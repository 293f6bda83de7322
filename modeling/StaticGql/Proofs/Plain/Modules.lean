import StaticGql.Proofs.Analysis.Events
import StaticGql.Proofs.Plain.Walk
import StaticGql.Proofs.Scan.Apart

/-!
Plain modules: plain statements with imports and exports among them. The scanner takes from the clauses the names
that stand in the tree, and on the statements it reports what the tree does, though it may tell of a binding
before the export that the tree puts first.
-/

namespace StaticGql
namespace Plain

open Script (Tree Node Form walk walkAll)
open Scan (Token TokenKind Piece Place Range)
open Scan.Place (at? at?_cons word? word?_eq_none atWord sizes_append text)
open Analysis (Rearranged)

variable {scope : Marker.Scope} {form : Form} {t u d w o c : Token} {e f : Tree} {l : List Tree} {p : Piece}
  {ps qs inner : List Piece} {place rest next : Place} {n m after : Nat} {es found : List Event}

/-! ### Clauses -/

/-- A name, and the name that it goes by elsewhere. -/
inductive Renamed : Tree → Tree → List Piece → Prop
  | same {t : Token} {a b a' b' : Nat} (ht : t.kind = .word) (htext : t.text ≠ "type") :
      Renamed (.mk .identifier t.text a b []) (.mk .identifier t.text a' b' []) [.token t]
  | other {t w u : Token} {a b a' b' : Nat} (ht : t.kind = .word) (htext : t.text ≠ "type")
      (hw : isWord "as" w = true) (hu : u.kind = .word) :
      Renamed (.mk .identifier t.text a b []) (.mk .identifier u.text a' b' []) [.token t, .token w, .token u]

inductive ImportName : Tree → List Piece → Prop
  | mk {e f : Tree} {ps : List Piece} {a b : Nat} (h : Renamed e f ps) : ImportName (.mk .importName f.text a b [e]) ps

inductive ExportName : Tree → List Piece → Prop
  | mk {e f : Tree} {text : String} {ps : List Piece} {a b : Nat} (h : Renamed e f ps) :
      ExportName (.mk .exportName text a b [e, f]) ps

/-- Parts of one kind between commas. -/
inductive Listed (part : Tree → List Piece → Prop) : List Tree → List Piece → Prop
  | nil : Listed part [] []
  | last {e : Tree} {ps : List Piece} (h : part e ps) : Listed part [e] ps
  | cons {c : Token} {e : Tree} {l : List Tree} {ps qs : List Piece} (h : part e ps) (hc : c.kind = .comma)
      (hl : Listed part l qs) : Listed part (e :: l) (ps ++ .token c :: qs)

/-- A text in quotes that is known. -/
structure IsSource (t : Token) : Prop where
  kind : t.kind = .str
  known : (Literal.string? t.text).isSome = true

/-- All names at once, or some of them. -/
inductive ImportNames : List Tree → List Piece → Prop
  | all {s w t : Token} {a b : Nat} (hs : s.kind = .operator) (htext : s.text = "*") (hw : isWord "as" w = true)
      (ht : t.kind = .word) : ImportNames [.mk .importAll t.text a b []] [.token s, .token w, .token t]
  | names {o c : Token} {l : List Tree} {inner : List Piece} (hl : Listed ImportName l inner)
      (ho : o.kind = .openBrace) : ImportNames l [.group o c inner]

/-- What an import binds. -/
inductive ImportClause : List Tree → List Piece → Prop
  | names {l : List Tree} {ps : List Piece} (h : ImportNames l ps) : ImportClause l ps
  | one {t : Token} {a b : Nat} (ht : t.kind = .word) (htext : t.text ∉ ["type", "from"]) :
      ImportClause [.mk .importDefault t.text a b []] [.token t]
  | more {t c : Token} {l : List Tree} {ps : List Piece} {a b : Nat} (ht : t.kind = .word)
      (htext : t.text ∉ ["type", "from"]) (hc : c.kind = .comma) (h : ImportNames l ps) :
      ImportClause (.mk .importDefault t.text a b [] :: l) (.token t :: .token c :: ps)

/-- Where something comes from. -/
inductive From : Tree → List Piece → Prop
  | mk {w t : Token} {a b : Nat} (hw : isWord "from" w = true) (ht : IsSource t) :
      From (.mk .quoted t.text a b []) [.token w, .token t]

/-! ### Statements of a module -/

inductive Item : Tree → List Piece → Prop
  | statement {e : Tree} {ps : List Piece} (h : Statement e ps) : Item e ps
  | importEffect {k t s : Token} {text : String} {a b : Nat} (hk : isWord "import" k = true) (ht : IsSource t)
      (hs : s.kind = .semicolon) :
      Item (.mk .importStatement text k.start s.stop [.mk .quoted t.text a b []]) [.token k, .token t, .token s]
  | importFrom {k s : Token} {text : String} {e : Tree} {l : List Tree} {ps qs : List Piece}
      (hk : isWord "import" k = true) (hl : ImportClause l ps) (h : From e qs) (hs : s.kind = .semicolon) :
      Item (.mk .importStatement text k.start s.stop (e :: l)) (.token k :: (ps ++ qs ++ [.token s]))
  | exportStatement {k : Token} {text : String} {e : Tree} {ps : List Piece} {a b : Nat}
      (hk : isWord "export" k = true) (h : Statement e ps) (he : e.node = .variableList ∨ e.node = .function) :
      Item (.mk .exportDeclaration text a b [e]) (.token k :: ps)
  | exportDefault {k w s : Token} {text : String} {e : Tree} {ps : List Piece} {a b : Nat}
      (hk : isWord "export" k = true) (hw : isWord "default" w = true) (h : Value e ps) (he : e.node ≠ .atom)
      (hs : s.kind = .semicolon) :
      Item (.mk .exportDefault text a b [e]) (.token k :: .token w :: (ps ++ [.token s]))
  | exportNames {k o c s : Token} {text : String} {l : List Tree} {inner : List Piece} {a b : Nat}
      (hk : isWord "export" k = true) (hl : Listed ExportName l inner) (ho : o.kind = .openBrace)
      (hs : s.kind = .semicolon) : Item (.mk .exportNames text a b l) [.token k, .group o c inner, .token s]
  | exportFrom {k o c s : Token} {text : String} {e : Tree} {l : List Tree} {inner qs : List Piece} {a b : Nat}
      (hk : isWord "export" k = true) (hl : Listed ExportName l inner) (ho : o.kind = .openBrace) (h : From e qs)
      (hs : s.kind = .semicolon) :
      Item (.mk .exportNames text a b (e :: l)) (.token k :: .group o c inner :: (qs ++ [.token s]))
  | exportAll {k t s : Token} {text : String} {e : Tree} {qs : List Piece} {a b : Nat}
      (hk : isWord "export" k = true) (ht : t.kind = .operator) (htext : t.text = "*") (h : From e qs)
      (hs : s.kind = .semicolon) :
      Item (.mk .exportAll text a b [e]) (.token k :: .token t :: (qs ++ [.token s]))
  | exportAllAs {k t w u s : Token} {text : String} {e : Tree} {qs : List Piece} {a b a' b' : Nat}
      (hk : isWord "export" k = true) (ht : t.kind = .operator) (htext : t.text = "*") (hw : isWord "as" w = true)
      (hu : IsName u) (h : From e qs) (hs : s.kind = .semicolon) :
      Item (.mk .exportAllAs text a b [e, .mk .identifier u.text a' b' []])
        (.token k :: .token t :: .token w :: .token u :: (qs ++ [.token s]))

/-- The statements of a module, one behind the other. -/
inductive Items : List Tree → List Piece → Prop
  | nil : Items [] []
  | cons {e : Tree} {l : List Tree} {ps qs : List Piece} (h : Item e ps) (hl : Items l qs) : Items (e :: l) (ps ++ qs)

/-! ### The names in a clause -/

theorem pieces_last (ps : List Piece) : Range.pieces ⟨ps, 0⟩ = ps := by simp [Range.pieces]

theorem pieces_cons (ps qs : List Piece) : Range.pieces ⟨ps ++ .token c :: qs, qs.length + 1⟩ = ps := by
  simp [Range.pieces]

theorem Renamed.no_comma (h : Renamed e f ps) : (∀ p ∈ ps, p.head.kind ≠ .comma) ∧ ps ≠ [] := by
  cases h with
  | same ht => simp [Piece.head, ht]
  | other ht htext hw hu =>
      simp only [isWord, Bool.and_eq_true, decide_eq_true_eq] at hw
      simp [Piece.head, ht, hw, hu]

/-- What is taken from each part between commas. -/
theorem Listed.filterMap_parts {β : Type} {part : Tree → List Piece → Prop} {own : List Piece → Option β}
    {told : Tree → Option β} (h : Listed part l inner)
    (hpart : ∀ e ps, part e ps → ((∀ p ∈ ps, p.head.kind ≠ .comma) ∧ ps ≠ []) ∧ own ps = told e) :
    ((Range.whole inner).parts.filterMap fun r => own r.pieces) = l.filterMap told := by
  induction h with
  | nil => rfl
  | last h =>
      obtain ⟨⟨hcomma, hne⟩, howned⟩ := hpart _ _ h
      rw [parts_last hcomma hne, List.filterMap_cons, List.filterMap_cons, pieces_last, howned]
      rfl
  | cons h hc hl ih =>
      obtain ⟨⟨hcomma, hne⟩, howned⟩ := hpart _ _ h
      rw [parts_cons hcomma hc, List.filterMap_cons, List.filterMap_cons, pieces_cons, howned, ih]

theorem ImportName.specifier? (h : ImportName e ps) :
    ((∀ p ∈ ps, p.head.kind ≠ .comma) ∧ ps ≠ []) ∧ Scan.Clause.specifier? ps = Script.specifier? e := by
  cases h with
  | mk h =>
      refine ⟨h.no_comma, ?_⟩
      cases h with
      | same ht htext =>
          simp [Scan.Clause.specifier?, atWord, word?, ht, htext, Scan.Clause.bindingName?, text, Piece.head,
            Script.specifier?, Script.moduleName?, Script.Tree.node, Tree.text]
      | other ht htext hw hu =>
          simp only [isWord, Bool.and_eq_true, decide_eq_true_eq] at hw
          simp [Scan.Clause.specifier?, atWord, word?, ht, htext, hw, Scan.Clause.bindingName?, text, Piece.head,
            Script.specifier?, Script.moduleName?, Script.Tree.node, Tree.text]

theorem ExportName.exportOf? (h : ExportName e ps) (source : Option String) :
    ((∀ p ∈ ps, p.head.kind ≠ .comma) ∧ ps ≠ []) ∧ Scan.Clause.exportOf? source ps = Script.exportName? source e := by
  cases h with
  | mk h =>
      refine ⟨h.no_comma, ?_⟩
      cases h with
      | same ht htext =>
          simp [Scan.Clause.exportOf?, atWord, word?, ht, htext, Scan.Clause.bindingName?, text, Piece.head,
            Script.exportName?, Script.moduleName?, Script.Tree.node, Tree.text]
          cases source <;> rfl
      | other ht htext hw hu =>
          simp only [isWord, Bool.and_eq_true, decide_eq_true_eq] at hw
          simp [Scan.Clause.exportOf?, atWord, word?, ht, htext, hw, hu, Scan.Clause.bindingName?, text, Piece.head,
            Script.exportName?, Script.moduleName?, Script.Tree.node, Tree.text]
          cases source <;> rfl

/-! ### Imports -/

theorem isWord_iff {v : String} : isWord v t = true ↔ t.kind = .word ∧ t.text = v ∧ t.isMember = false := by
  simp [isWord, and_assoc]

theorem ImportNames.otherNames? (h : ImportNames l ps) (rest : Place) :
    Scan.Clause.otherNames? (ps ++ rest) = some (l.filterMap Script.specifier?, rest) := by
  cases h with
  | all hs htext hw ht =>
      rw [isWord_iff] at hw
      simp [Scan.Clause.otherNames?, Scan.Place.atOperator, hs, text, Piece.head, htext, atWord, word?, hw, ht,
        Script.specifier?]
  | names hl ho =>
      simp [Scan.Clause.otherNames?, Scan.Place.atOperator, Scan.Place.group?, ho,
        hl.filterMap_parts fun e ps h => h.specifier?]

/-- What may begin an import but for a name: a star or a brace. -/
theorem ImportNames.head (h : ImportNames l ps) (rest : Place) :
    at? .word (ps ++ rest) = false ∧ at? .openParen (ps ++ rest) = false ∧ at? .dot (ps ++ rest) = false ∧
      at? .str (ps ++ rest) = false := by
  cases h with
  | all hs => simp [hs]
  | names hl ho => simp [ho]

theorem atWord_eq_false {v : String} (h : at? .word place = false) : atWord v place = false := by
  simp [atWord, word?_eq_none h]

/-- The names of a clause, those before its comma and those behind. -/
theorem ImportClause.names_eq (h : ImportClause l ps) (hfrom : isWord "from" w = true) (rest : Place) :
    ∃ first place others,
    Scan.Clause.defaultName? (Scan.Clause.skipType (ps ++ .token w :: rest)) = some (first, place) ∧
      Scan.Clause.otherNames? place = some (others, .token w :: rest) ∧
      first ++ others = l.filterMap Script.specifier? := by
  rw [isWord_iff] at hfrom
  cases h with
  | names h =>
      have hword := (h.head (.token w :: rest)).1
      refine ⟨[], _, _, ?_, h.otherNames? _, rfl⟩
      rw [Scan.Clause.skipType, atWord_eq_false hword]
      simp [Scan.Clause.defaultName?, hword]
  | @one t a b ht htext =>
      refine ⟨[⟨t.text, "default"⟩], .token w :: rest, [], ?_, ?_, by simp [Script.specifier?]⟩
      · simp only [List.mem_cons, List.not_mem_nil, or_false, not_or] at htext
        simp [Scan.Clause.skipType, Scan.Clause.defaultName?, atWord, word?, ht, htext, hfrom, text, Piece.head]
      · simp [Scan.Clause.otherNames?, Scan.Place.atOperator, hfrom, Scan.Place.group?]
  | @more t c l ps a b ht htext hc h =>
      refine ⟨[⟨t.text, "default"⟩], ps ++ .token w :: rest, l.filterMap Script.specifier?, ?_, h.otherNames? _,
        by simp [Script.specifier?]⟩
      simp only [List.mem_cons, List.not_mem_nil, or_false, not_or] at htext
      simp [Scan.Clause.skipType, Scan.Clause.defaultName?, atWord, word?, ht, htext, hc, text, Piece.head]

theorem tail_semicolon (hs : t.kind = .semicolon) : Scan.Clause.tail (.token t :: rest) = rest := by
  simp [Scan.Clause.tail, atWord, word?, hs]

/-- An import from a source is told with its names. -/
theorem import?_from {k s : Token} {source : String} (hl : ImportClause l ps) (h : From e qs)
    (hsource : Literal.string? e.text = some source) (hs : s.kind = .semicolon) :
    Scan.Clause.import? (.token k :: (ps ++ qs ++ .token s :: rest)) =
      some (source, l.filterMap Script.specifier?, rest) := by
  cases h with
  | @mk w t _ _ hw ht =>
      obtain ⟨first, place, others, hfirst, hothers, hnames⟩ := hl.names_eq hw (.token t :: .token s :: rest)
      have hstr : at? .str (ps ++ .token w :: .token t :: .token s :: rest) = false := by
        rw [isWord_iff] at hw
        cases hl with
        | names h => exact (h.head _).2.2.2
        | one ht => simp [ht]
        | more ht => simp [ht]
      rw [isWord_iff] at hw
      have hknown : Literal.string? t.text = some source := hsource
      have hplace : ps ++ [.token w, .token t] ++ .token s :: rest = ps ++ .token w :: .token t :: .token s :: rest := by
        simp
      have hfrom : (atWord "from" (.token w :: .token t :: .token s :: rest) && at? .str (.token t :: .token s :: rest)) =
          true := by
        simp [atWord, word?, hw, ht.kind]
      rw [hplace, Scan.Clause.import?]
      simp only [List.tail_cons, hstr, Bool.false_eq_true, if_false, hfirst, Option.bind_eq_bind, Option.bind_some,
        hothers, hfrom, if_true, text, Piece.head, hknown, hnames, List.drop_succ_cons, List.drop_zero,
        tail_semicolon hs]

theorem import?_effect {k s : Token} {source : String} (ht : t.kind = .str)
    (hsource : Literal.string? t.text = some source) (hs : s.kind = .semicolon) :
    Scan.Clause.import? (.token k :: .token t :: .token s :: rest) = some (source, [], rest) := by
  simp [Scan.Clause.import?, ht, text, Piece.head, hsource, tail_semicolon hs]

theorem isImport_eq {k : Token} (hk : isWord "import" k = true) (hparen : at? .openParen rest = false)
    (hdot : at? .dot rest = false) : Scan.Clause.isImport (.token k :: rest) = true := by
  rw [isWord_iff] at hk
  simp [Scan.Clause.isImport, atWord, word?, hk, Scan.Place.isMember, Piece.head, hparen, hdot]

theorem stopBefore_eq (ps : List Piece) (rest : Place) :
    Scan.Clause.stopBefore (ps ++ .token c :: rest) rest = c.stop := by
  have hplace : (ps ++ .token c :: rest).take ((ps ++ .token c :: rest).length - rest.length) = ps ++ [.token c] := by
    rw [List.append_cons ps (.token c) rest, List.length_append, Nat.add_sub_cancel, List.take_left']
    rfl
  rw [Scan.Clause.stopBefore, hplace, List.getLast?_concat]
  rfl

theorem isImport_eq_false (h : isWordPiece "import" p = false) : Scan.Clause.isImport (p :: rest) = false := by
  cases p with
  | group o c inner => rfl
  | token t =>
      by_contra himport
      simp only [Scan.Clause.isImport, atWord, word?, Scan.Place.isMember, Piece.head, Bool.not_eq_false,
        Bool.and_eq_true, Bool.not_eq_true'] at himport
      obtain ⟨⟨⟨hword, hmember⟩, -⟩, -⟩ := himport
      split at hword
      · rw [isWordPiece, isWord_iff.2 ⟨‹_›, Option.some.inj (of_decide_eq_true hword), hmember⟩] at h
        cases h
      · cases hword

/-- Nothing is imported where the word does not stand. -/
theorem imports_skip (h : ∀ p ∈ ps, isWordPiece "import" p = false) (n : Nat) :
    Scan.Clause.imports (ps.length + n) (ps ++ rest) = Scan.Clause.imports n rest := by
  induction ps with
  | nil => rw [List.length_nil, Nat.zero_add, List.nil_append]
  | cons p ps ih =>
      obtain ⟨hp, hps⟩ := List.forall_mem_cons.1 h
      rw [List.length_cons, Nat.add_right_comm, List.cons_append, Scan.Clause.imports, isImport_eq_false hp,
        if_neg Bool.false_ne_true, ih hps]

theorem imports_import {k : Token} {source : String} {names : List Specifier} (ps : List Piece)
    (himport : Scan.Clause.isImport (.token k :: (ps ++ .token c :: rest)) = true)
    (h : Scan.Clause.import? (.token k :: (ps ++ .token c :: rest)) = some (source, names, rest)) (n : Nat) :
    Scan.Clause.imports (n + 1) (.token k :: (ps ++ .token c :: rest)) =
      ⟨source, names, k.start, c.stop⟩ :: Scan.Clause.imports n rest := by
  rw [Scan.Clause.imports, if_pos himport, h]
  simp only [Piece.head]
  rw [show Piece.token k :: (ps ++ .token c :: rest) = (.token k :: ps) ++ .token c :: rest from rfl, stopBefore_eq]

theorem From.isWordPiece (h : From e qs) : ∀ p ∈ qs, Plain.isWordPiece "import" p = false := by
  cases h with
  | mk hw ht => simp [isWordPiece_of_word hw (show "from" ≠ "import" by decide), isWordPiece_of_kind ht.kind]

theorem From.source (h : From e qs) : ∃ source, Literal.string? e.text = some source := by
  cases h with
  | mk hw ht => exact Option.isSome_iff_exists.1 ht.known

theorem Statement.import?_eq_none (h : Statement e ps) : Script.import? e = none := by
  cases h <;> rfl

/-- An import that binds nothing is told alike. -/
theorem importEffect_eq {k s : Token} (text : String) (a b : Nat) (hk : isWord "import" k = true) (ht : IsSource t)
    (hs : s.kind = .semicolon) (rest : Place) : ∃ source names,
      Scan.Clause.isImport (.token k :: .token t :: .token s :: rest) = true ∧
      Scan.Clause.import? (.token k :: .token t :: .token s :: rest) = some (source, names, rest) ∧
      Script.import? (.mk .importStatement text k.start s.stop [.mk .quoted t.text a b []]) =
        some ⟨source, names, k.start, s.stop⟩ := by
  obtain ⟨source, hsource⟩ := Option.isSome_iff_exists.1 ht.known
  refine ⟨source, [], isImport_eq hk ?_ ?_, import?_effect ht.kind hsource hs, ?_⟩
  · simp [ht.kind]
  · simp [ht.kind]
  · simp [Script.import?, Tree.text, hsource]

/-- An import of names is told alike. -/
theorem importFrom_eq {k s : Token} (text : String) (hk : isWord "import" k = true) (hl : ImportClause l ps)
    (h : From e qs) (hs : s.kind = .semicolon) (rest : Place) : ∃ source names,
      Scan.Clause.isImport (.token k :: (ps ++ qs ++ .token s :: rest)) = true ∧
      Scan.Clause.import? (.token k :: (ps ++ qs ++ .token s :: rest)) = some (source, names, rest) ∧
      Script.import? (.mk .importStatement text k.start s.stop (e :: l)) = some ⟨source, names, k.start, s.stop⟩ := by
  obtain ⟨source, hsource⟩ := h.source
  have hhead : at? .openParen (ps ++ qs ++ .token s :: rest) = false ∧
      at? .dot (ps ++ qs ++ .token s :: rest) = false := by
    rw [List.append_assoc]
    cases hl with
    | names h => exact ⟨(h.head _).2.1, (h.head _).2.2.1⟩
    | one ht => simp [ht]
    | more ht => simp [ht]
  refine ⟨source, l.filterMap Script.specifier?, isImport_eq hk hhead.1 hhead.2, import?_from hl h hsource hs, ?_⟩
  simp [Script.import?, hsource]

/-- Of a statement the scanner takes the import that it is. -/
theorem Item.imports_eq (h : Item e ps) : ∃ m, m ≤ ps.length ∧ ∀ n rest,
    Scan.Clause.imports (m + n) (ps ++ rest) = (Script.import? e).toList ++ Scan.Clause.imports n rest := by
  have hother : Script.import? e = none → (∀ p ∈ ps, isWordPiece "import" p = false) → ∃ m, m ≤ ps.length ∧ ∀ n rest,
      Scan.Clause.imports (m + n) (ps ++ rest) = (Script.import? e).toList ++ Scan.Clause.imports n rest := by
    intro hnone hps
    refine ⟨ps.length, Nat.le_refl _, fun n rest => ?_⟩
    rw [imports_skip hps, hnone]
    rfl
  have hexport : ∀ {k : Token}, isWord "export" k = true → isWordPiece "import" (.token k) = false :=
    fun hk => isWordPiece_of_word hk (by decide)
  have hmark : ∀ {t : Token} {k : TokenKind}, t.kind = k → k ≠ .word → isWordPiece "import" (.token t) = false :=
    fun ht hk => isWordPiece_of_kind ht hk
  cases h with
  | statement h => exact hother h.import?_eq_none (h.isWordPiece (by decide) fun _ => by decide)
  | @importEffect k t s text a b hk ht hs =>
      refine ⟨1, by simp, fun n rest => ?_⟩
      obtain ⟨source, names, himport, hclause, htree⟩ := importEffect_eq text a b hk ht hs rest
      rw [Nat.add_comm, htree]
      exact imports_import [.token t] himport hclause n
  | @importFrom k s text e l ps qs hk hl h hs =>
      refine ⟨1, by simp, fun n rest => ?_⟩
      obtain ⟨source, names, himport, hclause, htree⟩ := importFrom_eq text hk hl h hs rest
      rw [Nat.add_comm, List.cons_append, List.append_assoc, List.singleton_append, htree]
      exact imports_import _ himport hclause n
  | exportStatement hk h =>
      exact hother rfl (List.forall_mem_cons.2 ⟨hexport hk, h.isWordPiece (by decide) fun _ => by decide⟩)
  | exportDefault hk hw h he hs =>
      refine hother rfl ?_
      simp only [List.forall_mem_cons, List.forall_mem_append]
      exact ⟨hexport hk, isWordPiece_of_word hw (by decide), fun p hp => (h.inside p hp).isWordPiece (by decide),
        hmark hs (by decide), by simp⟩
  | exportNames hk hl ho hs =>
      refine hother rfl ?_
      simp only [List.forall_mem_cons]
      exact ⟨hexport hk, rfl, hmark hs (by decide), by simp⟩
  | exportFrom hk hl ho h hs =>
      refine hother rfl ?_
      simp only [List.forall_mem_cons, List.forall_mem_append]
      exact ⟨hexport hk, rfl, h.isWordPiece, hmark hs (by decide), by simp⟩
  | exportAll hk ht htext h hs =>
      refine hother rfl ?_
      simp only [List.forall_mem_cons, List.forall_mem_append]
      exact ⟨hexport hk, hmark ht (by decide), h.isWordPiece, hmark hs (by decide), by simp⟩
  | exportAllAs hk ht htext hw hu h hs =>
      refine hother rfl ?_
      simp only [List.forall_mem_cons, List.forall_mem_append]
      exact ⟨hexport hk, hmark ht (by decide), isWordPiece_of_word hw (by decide),
        isWordPiece_of_ne (hu.ne (by decide)), h.isWordPiece, hmark hs (by decide), by simp⟩

/-- The scanner takes the imports that stand in the tree. -/
theorem Items.imports_eq (h : Items l ps) {n : Nat} (hn : ps.length ≤ n) :
    Scan.Clause.imports n ps = l.filterMap Script.import? := by
  induction h generalizing n with
  | nil => cases n <;> rfl
  | @cons e l ps qs h hl ih =>
      obtain ⟨m, hm, hitem⟩ := h.imports_eq
      rw [List.length_append] at hn
      have hfuel : n = m + (n - m) := by omega
      rw [hfuel, hitem, ih (by omega)]
      cases himport : Script.import? e with
      | none => rw [List.filterMap_cons_none himport, Option.toList_none, List.nil_append]
      | some i => rw [List.filterMap_cons_some himport, Option.toList_some, List.singleton_append]

/-! ### Exports -/

open Scan.Walk

variable {top : Bool} {behind : Place}

theorem statement_export {k : Token} {s : Step} (hk : isWord "export" k = true)
    (h : exported? top behind rest = some s) : statement top behind (.token k :: rest) = s := by
  rw [isWord_iff] at hk
  rw [Scan.Walk.statement, if_neg (by simp [hk]), if_neg (by simp [hk]), if_pos hk.2.1, h]

theorem atWord_token {v : String} (ht : t.kind = .word) : atWord v (.token t :: rest) = decide (t.text = v) := by
  simp [atWord, word?, ht]

theorem Target.atWord_eq_false {v : String} (h : Target e p) (hv : v ∈ Script.Parse.reserved) :
    atWord v (p :: rest) = false := by
  cases h with
  | name ht htext =>
      rw [atWord_token ht, decide_eq_false_iff_not]
      exact fun h => htext (h ▸ hv)
  | pattern => rfl

theorem exported?_binding {k : Token}
    (hk : isWord "const" k = true ∨ isWord "let" k = true ∨ isWord "var" k = true) (hu : Target e p) :
    exported? top behind (.token k :: p :: rest) = some (variableStatement top true (p :: rest)) := by
  have henum : atWord "enum" (p :: rest) = false := hu.atWord_eq_false (by decide)
  simp only [isWord_iff] at hk
  rcases hk with hk | hk | hk
  · simp [exported?, atWord_token hk.1, hk, henum]
  · simp [exported?, atWord_token hk.1, hk]
  · simp [exported?, atWord_token hk.1, hk]

theorem exported?_function {k : Token} (hk : isWord "function" k = true) (ht : t.kind = .word) :
    exported? top behind (.token k :: .token t :: rest) =
      some (exportsName t.text :: (function 0 top (.token t :: rest)).1, (function 0 top (.token t :: rest)).2) := by
  rw [isWord_iff] at hk
  simp [exported?, atWord, word?, hk, withName, namedIf, functionName?, Scan.Names.skipStar, Scan.Place.atOperator,
    ht]

theorem exported?_names (ho : o.kind = .openBrace) : exported? top behind (.group o c inner :: rest) =
    some ((Scan.Clause.exports inner rest).1.map fun e => .inl (.exported e), (Scan.Clause.exports inner rest).2) := by
  simp [exported?, atWord, word?, ho]

theorem exported?_all {es : List Export} (ht : t.kind = .operator) (htext : t.text = "*")
    (h : Scan.Clause.exportAll? rest behind = some (es, next)) :
    exported? top behind (.token t :: rest) = some (es.map fun e => .inl (.exported e), next) := by
  simp [exported?, atWord, word?, ht, htext, h]

theorem exported?_default (hw : isWord "default" w = true) : exported? top behind (.token w :: rest) =
    some (entering "default" (defaultValue rest).1, (defaultValue rest).2) := by
  rw [isWord_iff] at hw
  simp [exported?, atWord, word?, hw]

/-- A default value that is an expression: a word by itself is its name. -/
theorem Value.defaultValue_eq (h : Value e ps) (hc : c.kind = .semicolon) : defaultValue (ps ++ .token c :: rest) =
    if at? .word (ps ++ .token c :: rest) = true ∧ ps.length = 1 then
      ([Scan.Walk.exportsDefault (some (text (ps ++ .token c :: rest)))], rest)
    else ([Scan.Walk.exportsDefault none, expr ⟨ps ++ .token c :: rest, (Piece.token c :: rest).length⟩], rest) := by
  have hcontinues : Continues (.token c :: rest) := .of_kind (p := .token c) hc (by decide)
  have hend := h.statementEnd_semicolon hc rest
  have hlength : (Piece.token c :: rest).length + 1 = (ps ++ .token c :: rest).length ↔ ps.length = 1 := by
    rw [List.length_append]
    omega
  obtain ⟨p, qs, rfl, hp, hqs⟩ := h.exists_behindWord
  have hbehind : ∀ v, atWord v (p :: qs ++ .token c :: rest) = true → at? .word (qs ++ .token c :: rest) = false := by
    intro v hv
    by_cases hkind : p.head.kind = .word
    · exact (hqs hkind _ hcontinues).word
    · rw [Plain.atWord_eq_false (by simpa [at?_cons] using hkind)] at hv
      cases hv
  have habstract : (atWord "abstract" (p :: qs ++ .token c :: rest) &&
      atWord "class" (qs ++ .token c :: rest)) = false := by
    by_contra hboth
    obtain ⟨hfirst, hclass⟩ := Bool.and_eq_true_iff.1 (Bool.not_eq_false _ ▸ hboth)
    rw [Plain.atWord_eq_false (hbehind _ hfirst)] at hclass
    cases hclass
  have hinterface : (atWord "interface" (p :: qs ++ .token c :: rest) && at? .word (qs ++ .token c :: rest)) = false := by
    by_contra hboth
    obtain ⟨hfirst, hword⟩ := Bool.and_eq_true_iff.1 (Bool.not_eq_false _ ▸ hboth)
    rw [hbehind _ hfirst] at hword
    cases hword
  rw [List.cons_append] at hend hlength habstract hinterface ⊢
  rw [defaultValue]
  simp only [hp.not_at (w := "async") (by decide), hp.not_at (w := "function") (by decide),
    hp.not_at (w := "class") (by decide), habstract, hinterface, List.tail_cons, hend, Bool.false_and,
    Bool.false_eq_true, if_false]
  simp only [Bool.and_eq_true, decide_eq_true_eq, hlength]

/-- A value that is a word by itself is a name or one of the few words for values. -/
theorem Value.node_of_word (h : Value e ps) (hword : at? .word (ps ++ rest) = true) (hlength : ps.length = 1) :
    e.node = .identifier ∨ e.node = .atom := by
  have hlong : 1 < ps.length → e.node = .identifier ∨ e.node = .atom := fun h => absurd hlength (Nat.ne_of_gt h)
  cases h with
  | name ht => exact .inl rfl
  | literal ht =>
      cases ht with
      | word => exact .inr rfl
      | _ hkind => simp [hkind] at hword
  | negative => exact hlong (by simp)
  | member h => exact hlong (by simp)
  | call h =>
      have := List.length_pos_iff.2 h.ne_nil
      exact hlong (by simp; omega)
  | paren h ho => simp [ho] at hword
  | array hl ho => simp [ho] at hword
  | object hl ho => simp [ho] at hword
  | spread ht => simp [ht] at hword
  | operation h he ht h' =>
      have := List.length_pos_iff.2 h.ne_nil
      exact hlong (by simp; omega)
  | assign h he ht h' =>
      have := List.length_pos_iff.2 h.ne_nil
      exact hlong (by simp; omega)
  | arrow => exact hlong (by simp)
  | arrowBlock => exact hlong (by simp)

theorem Value.ne_interface (h : Value e ps) : e.node ≠ .interface := by
  cases h with
  | literal ht => cases ht <;> simp [Script.Tree.node]
  | _ => simp [Script.Tree.node]

theorem Value.defaultNames_eq (h : Value e ps) (he : e.node ≠ .identifier) :
    Script.defaultNames form e = [Script.exportsDefault "default"] := by
  cases h with
  | name => exact absurd rfl he
  | literal ht => cases ht <;> rfl
  | _ => rfl

/-- What is exported as the default tells the same, be it a name or any other value. -/
theorem Value.default_walked (h : Value e ps) (scope : Marker.Scope) (form : Form) (he : e.node ≠ .atom)
    (hc : c.kind = .semicolon) (rest : Place) : ∃ parts,
    defaultValue (ps ++ .token c :: rest) = (parts, rest) ∧
      Gives (step scope) (2 * Piece.sizes ps + 1) parts
        (Script.defaultNames form e ++ walk scope form false false e) := by
  rw [h.defaultValue_eq hc]
  by_cases hnode : e.node = .identifier
  · cases h with
    | @name t a b ht =>
        refine ⟨_, if_pos ⟨by simp [ht.kind], rfl⟩, ?_⟩
        have hnames : Script.defaultNames form (.mk .identifier t.text a b []) = [Script.exportsDefault t.text] := by
          simp [Script.defaultNames, Script.Tree.node, Tree.text, ht.ne (show "undefined" ∈ keywords by decide)]
        rw [hnames]
        exact (Gives.nil _ _).answer
    | literal ht => cases ht <;> cases hnode
    | _ => cases hnode
  · have hend : Stops (.token c :: rest) := .semicolon hc
    refine ⟨_, if_neg fun hword => ?_, ?_⟩
    · rcases h.node_of_word hword.1 hword.2 with h | h
      · exact hnode h
      · exact he h
    · rw [h.defaultNames_eq hnode]
      exact (Reports.upTo (h.walked scope form hend.behind (Nat.le_refl _))).answer

theorem gives_exports (es : List Export) : Gives (step scope) n (es.map fun e => Sum.inl (.exported e))
    (es.map Event.exported) := by
  have hmap : es.map (fun e => (Sum.inl (.exported e) : Part)) = (es.map Event.exported).map .inl := by
    rw [List.map_map]
    rfl
  rw [hmap]
  exact Gives.answers _ _ _

theorem exports_eq (hl : Listed ExportName l inner) (hc : c.kind = .semicolon) :
    Scan.Clause.exports inner (.token c :: rest) = (l.filterMap (Script.exportName? none), rest) := by
  simp [Scan.Clause.exports, atWord, word?, hc, tail_semicolon hc,
    hl.filterMap_parts fun e ps h => h.exportOf? none]

theorem exports_from {source : String} (hl : Listed ExportName l inner) (h : From e qs)
    (hsource : Literal.string? e.text = some source) (hc : c.kind = .semicolon) :
    Scan.Clause.exports inner (qs ++ .token c :: rest) = (l.filterMap (Script.exportName? (some source)), rest) := by
  cases h with
  | @mk w t _ _ hw ht =>
      rw [isWord_iff] at hw
      have hknown : Literal.string? t.text = some source := hsource
      simp [Scan.Clause.exports, atWord_token hw.1, hw, ht.kind, text, Piece.head, hknown, tail_semicolon hc,
        hl.filterMap_parts fun e ps h => h.exportOf? (some source)]

theorem ExportName.node (h : ExportName e ps) : e.node = .exportName := by
  cases h
  rfl

theorem Listed.nodes (h : Listed ExportName l inner) : ∀ e ∈ l, e.node = .exportName := by
  induction h with
  | nil => simp
  | last h => simpa using h.node
  | cons h hc hl ih => exact List.forall_mem_cons.2 ⟨h.node, ih⟩

theorem exportAll?_from {source : String} (h : From e qs) (hsource : Literal.string? e.text = some source)
    (hc : c.kind = .semicolon) : Scan.Clause.exportAll? (qs ++ .token c :: rest) behind =
      some ([.reExportAll source], rest) := by
  cases h with
  | @mk w t _ _ hw ht =>
      rw [isWord_iff] at hw
      have hknown : Literal.string? t.text = some source := hsource
      simp [Scan.Clause.exportAll?, Scan.Clause.behindAs, atWord_token hw.1, hw, ht.kind, text, Piece.head,
        hknown, tail_semicolon hc]

theorem exportAll?_as {source : String} (hw : isWord "as" w = true) (hu : IsName u) (h : From e qs)
    (hsource : Literal.string? e.text = some source) (hc : c.kind = .semicolon) :
    Scan.Clause.exportAll? (.token w :: .token u :: (qs ++ .token c :: rest)) behind =
      some ([.reExport u.text "*" source], rest) := by
  cases h with
  | @mk w' t _ _ hw' ht =>
      rw [isWord_iff] at hw hw'
      have hknown : Literal.string? t.text = some source := hsource
      simp [Scan.Clause.exportAll?, Scan.Clause.behindAs, Scan.Clause.behindToken, Scan.Clause.bindingName?,
        atWord_token hw.1, atWord_token hw'.1, hw, hw', hu.kind, ht.kind, text, Piece.head, hknown,
        tail_semicolon hc]

theorem exportNames_eq (h : ∀ e ∈ l, e.node = .exportName) :
    Script.exportNames l = (l.filterMap (Script.exportName? none)).map .exported := by
  have hfind : l.find? (·.node = .quoted) = none := by
    rw [List.find?_eq_none]
    intro e he
    simp [h e he]
  rw [Script.exportNames, hfind]
  rfl

theorem exportNames_from {source : String} (h : From e qs) (hsource : Literal.string? e.text = some source) :
    Script.exportNames (e :: l) = (l.filterMap (Script.exportName? (some source))).map .exported := by
  cases h with
  | @mk w t _ _ hw ht =>
      have hknown : Literal.string? t.text = some source := hsource
      simp only [Script.exportNames, Script.Tree.node, decide_true, List.find?_cons_of_pos, Option.bind_some, Script.moduleName?,
        Tree.text, hknown]
      rfl

theorem From.moduleName? (h : From e qs) : Script.moduleName? e = Literal.string? e.text := by
  cases h
  rfl

theorem rearranged_bound (name : Option String) {parts : List Part} (h : Gives (step scope) n parts es) : ∃ es',
    Gives (step scope) n (bound true true name ++ parts) es' ∧
      Rearranged es' (name.toList.flatMap (Script.declares true true) ++ es) := by
  cases name with
  | none => exact ⟨es, h, .refl _⟩
  | some name =>
      exact ⟨.binding name :: .exported (.named name name) :: es, h.answer.answer, rfl, rfl⟩

/-- An exported statement reports what the tree does, but that a binding may come before its export. -/
theorem Statement.exported (h : Statement e ps) (scope : Marker.Scope) (form : Form)
    (he : e.node = .variableList ∨ e.node = .function)
    (hrest : at? .openBrace rest = false) (behind : Place) : ∃ parts es,
    exported? true behind (ps ++ rest) = some (parts, rest) ∧ Gives (step scope) (2 * Piece.sizes ps) parts es ∧
      Rearranged es (walk scope form true true e) := by
  obtain ⟨parts, hstatement, hparts⟩ := h.walked scope form hrest true behind
  cases h with
  | @binding k t s text text' u e p ps a b a' b' hk hu ht h hs =>
      have hend : Stops (.token s :: rest) := .semicolon hs
      have hvalue := Reports.upTo (h.walked scope form hend.behind (Nat.le_refl _))
      obtain ⟨es, hes, hrearranged⟩ := rearranged_bound (targetName? u)
        (gives_under (targetName? u) hvalue)
      refine ⟨_, es, ?_, hes.mono (by simp only [Piece.sizes, Piece.size, sizes_append]; omega), ?_⟩
      · rw [List.cons_append, List.cons_append, List.cons_append, List.append_assoc, List.singleton_append,
          exported?_binding hk hu, variableStatement_eq hu ht h hs]
      · rw [walk_binding]
        exact hrearranged
  | @function k t o c text' u l p inner a b a' b' hk ht htext hp hparen hl ho hobject =>
      simp only [List.cons_append] at hstatement ⊢
      rw [statement_function hk] at hstatement
      rw [exported?_function hk ht, hstatement]
      refine ⟨_, _, rfl, hparts.answer, ?_⟩
      simp only [walk]
      exact .refl _
  | _ => simp [Script.Tree.node] at he

/-- A clause of exports is a statement of its own. -/
theorem statement_exports {k : Token} {exports : List Export} (hk : isWord "export" k = true)
    (h : exported? true behind place = some (exports.map fun e => .inl (.exported e), rest))
    (hwalk : walk scope form true false e = exports.map .exported) : ∃ parts es,
      Scan.Walk.statement true behind (.token k :: place) = (parts, rest) ∧ Gives (step scope) n parts es ∧
        Rearranged es (walk scope form true false e) :=
  ⟨_, _, statement_export hk h, gives_exports exports, hwalk ▸ .refl _⟩

/-- A statement of a module reports what the tree does, but that a binding may come before its export. -/
theorem Item.walked (h : Item e ps) (scope : Marker.Scope) (form : Form) (hrest : at? .openBrace rest = false)
    (behind : Place) : ∃ parts es,
    Scan.Walk.statement true behind (ps ++ rest) = (parts, rest) ∧ Gives (step scope) (2 * Piece.sizes ps) parts es ∧
      Rearranged es (walk scope form true false e) := by
  cases h with
  | statement h =>
      obtain ⟨parts, hstatement, hparts⟩ := h.walked scope form hrest true behind
      exact ⟨parts, _, hstatement, hparts, .refl _⟩
  | @importEffect k t s text a b hk ht hs =>
      obtain ⟨source, names, himport, hclause, -⟩ := importEffect_eq text a b hk ht hs rest
      exact ⟨[], [], statement_of_import true behind himport hclause, .nil _ _, .refl _⟩
  | @importFrom k s text e l ps qs hk hl h hs =>
      obtain ⟨source, names, himport, hclause, -⟩ := importFrom_eq text hk hl h hs rest
      rw [List.cons_append, List.append_assoc, List.singleton_append]
      exact ⟨[], [], statement_of_import true behind himport hclause, .nil _ _, .refl _⟩
  | @exportStatement k text e ps a b hk h he =>
      have hwalk : walk scope form true false (.mk .exportDeclaration text a b [e]) = walk scope form true true e :=
        walkAll_singleton true true e
      obtain ⟨parts, es, hexported, hparts, hes⟩ := h.exported scope form he hrest behind
      rw [hwalk]
      exact ⟨parts, es, statement_export hk hexported, hparts.mono (by simp only [Piece.sizes]; omega), hes⟩
  | @exportDefault k w s text e ps a b hk hw h he hs =>
      obtain ⟨parts, hdefault, hparts⟩ := h.default_walked scope form he hs rest
      have hwalk : walk scope form true false (.mk .exportDefault text a b [e]) =
          Script.entering "default" (Script.defaultNames form e ++ walk scope form false false e) := by
        simp only [walk, h.ne_interface, if_false]
      rw [hwalk, List.cons_append, List.cons_append, List.append_assoc, List.singleton_append]
      refine ⟨_, _, (statement_export hk (exported?_default hw)).trans ?_, (gives_entering _ hparts).mono ?_, .refl _⟩
      · rw [hdefault]
      · simp only [Piece.sizes, Piece.size, sizes_append]
        omega
  | @exportNames k o c s text l inner a b hk hl ho hs =>
      rw [List.cons_append]
      refine statement_exports hk ?_ (exportNames_eq hl.nodes)
      rw [List.cons_append, List.singleton_append, exported?_names ho, exports_eq hl hs]
  | @exportFrom k o c s text e l inner qs a b hk hl ho h hs =>
      obtain ⟨source, hsource⟩ := h.source
      rw [List.cons_append]
      refine statement_exports hk ?_ (exportNames_from h hsource)
      rw [List.cons_append, List.append_assoc, List.singleton_append, exported?_names ho, exports_from hl h hsource hs]
  | @exportAll k t s text e qs a b hk ht htext h hs =>
      obtain ⟨source, hsource⟩ := h.source
      have hwalk : walk scope form true false (.mk .exportAll text a b [e]) =
          [Export.reExportAll source].map .exported := by
        simp [walk, Script.exportAll, h.moduleName?, hsource]
      rw [List.cons_append]
      refine statement_exports hk ?_ hwalk
      rw [List.cons_append, List.append_assoc, List.singleton_append,
        exported?_all ht htext (exportAll?_from h hsource hs)]
  | @exportAllAs k t w u s text e qs a b a' b' hk ht htext hw hu h hs =>
      obtain ⟨source, hsource⟩ := h.source
      have hwalk : walk scope form true false (.mk .exportAllAs text a b [e, .mk .identifier u.text a' b' []]) =
          [Export.reExport u.text "*" source].map .exported := by
        have hname : Script.moduleName? (.mk .identifier u.text a' b' []) = some u.text := rfl
        simp only [walk, Script.exportAllAs, h.moduleName?, hsource, hname]
        rfl
      rw [List.cons_append]
      refine statement_exports hk ?_ hwalk
      rw [List.cons_append, List.cons_append, List.cons_append, List.append_assoc, List.singleton_append,
        exported?_all ht htext (exportAll?_as hw hu h hsource hs)]

theorem Item.ne_nil (h : Item e ps) : ps ≠ [] := by
  cases h with
  | statement h => exact h.ne_nil
  | _ => exact List.cons_ne_nil _ _

theorem Item.not_brace (h : Item e ps) : at? .openBrace (ps ++ rest) = false := by
  have hword : ∀ {v : String} {k : Token} {place : Place}, isWord v k = true →
      at? .openBrace (.token k :: place) = false :=
    fun hk => by simp [(isWord_iff.1 hk).1]
  cases h with
  | statement h => exact h.not_brace
  | importEffect hk => exact hword hk
  | importFrom hk => exact hword hk
  | exportStatement hk => exact hword hk
  | exportDefault hk => exact hword hk
  | exportNames hk => exact hword hk
  | exportFrom hk => exact hword hk
  | exportAll hk => exact hword hk
  | exportAllAs hk => exact hword hk

theorem Items.not_brace (h : Items l ps) : at? .openBrace ps = false := by
  cases h with
  | nil => rfl
  | cons h hl => exact h.not_brace

/-- A module reports what its tree does, but that bindings may come before their exports. -/
theorem Items.walked (h : Items l ps) (scope : Marker.Scope) (form : Form) (behind : Place) : ∃ es,
    Gives (step scope) (2 * Piece.sizes ps + 1) [.inr (.statements ps true behind)] es ∧
      Rearranged es (walkAll scope form true false l) := by
  induction h with
  | nil => exact ⟨[], (Gives.task (n := 0) (.nil _ _)).mono (by omega), .refl _⟩
  | @cons e l ps qs h hl ih =>
      obtain ⟨parts, found, hstatement, hparts, hfound⟩ := h.walked scope form hl.not_brace behind
      obtain ⟨es, hes, hrearranged⟩ := ih
      have hsizes := sizes_pos h.ne_nil
      refine ⟨found ++ es, Gives.task ?_, hfound.append hrearranged⟩
      rw [step, statementsStep_eq h.ne_nil hstatement, sizes_append]
      exact (hparts.mono (by omega)).append (hes.mono (by omega))

end Plain
end StaticGql
