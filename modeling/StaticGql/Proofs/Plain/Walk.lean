import StaticGql.Proofs.Plain.Calls
import StaticGql.Proofs.Scan.Events
import StaticGql.Script.Walk

/-!
A plain program walked through: the scanner, which takes up one piece after another, comes upon the calls of the
marker, the names that it enters and what it leaves just as those do who go by the tree.
-/

namespace StaticGql
namespace Plain

open Script (Tree Node Form walk walkAll)
open Scan (Token TokenKind Piece Place Range)
open Scan.Place (at? at?_cons word? word?_eq_none atWord sizes_append sizes_le_of_suffix chain skipTypeArguments)

variable {scope : Marker.Scope} {form : Form} {t u d w o c : Token} {e f : Tree} {l : List Tree} {p : Piece}
  {ps qs inner : List Piece} {place rest next : Place} {n m after : Nat} {es found : List Event}

/-! ### What a stretch reports -/

/-- What the walk reports on a stretch up to the end of its level, but for the pieces behind it. -/
abbrev Reports (scope : Marker.Scope) (n after : Nat) (place : Place) (es : List Event) : Prop :=
  Gives (Scan.Walk.step scope) n [Scan.Walk.expr ⟨place, after⟩] es

namespace Reports

open Scan.Walk

theorem empty (h : place.length ≤ after) : Reports scope 1 after place [] := by
  refine Gives.task (n := 0) ?_
  have hempty : Range.isEmpty ⟨place, after⟩ = true := decide_eq_true h
  have hstep : step scope (.expression ⟨place, after⟩) = [] := by rw [step, expressionStep, if_pos hempty]
  rw [hstep]
  exact .nil _ _

theorem of_step (hafter : after ≤ rest.length) (parts : List Part)
    (hstep : Range.isEmpty ⟨p :: rest, after⟩ = false →
      expressionStep scope ⟨p :: rest, after⟩ = parts ++ [expr ⟨next, after⟩])
    (hfound : Gives (step scope) n parts found) (h : Reports scope n after next es) :
    Reports scope (n + 1) after (p :: rest) (found ++ es) := by
  refine Gives.task ?_
  rw [step, hstep]
  · exact hfound.append h
  · simp [Range.isEmpty]
    omega

theorem token (hafter : after ≤ rest.length) (hkind : t.kind ≠ .word) (h : Reports scope n after rest es) :
    Reports scope (n + 1) after (.token t :: rest) es :=
  of_step hafter [] (fun hempty => by simp [expressionStep, hempty, hkind]) (.nil _ _) h

/-- A mark between values. -/
theorem mark {k : TokenKind} (hafter : after ≤ rest.length) (hkind : t.kind = k) (hk : k ≠ .word)
    (h : Reports scope n after rest es) : Reports scope (n + 1) after (.token t :: rest) es :=
  token hafter (hkind ▸ hk) h

theorem operation (ht : isOperation t = true) (hafter : after ≤ rest.length) (h : Reports scope n after rest es) :
    Reports scope (n + 1) after (.token t :: rest) es := by
  refine token hafter ?_ h
  rcases isOperation_kind ht with ht | ht <;> simp [ht]

theorem word (hafter : after ≤ rest.length) (hkind : t.kind = .word) {parts : List Part}
    (hword : wordExpression scope ⟨.token t :: rest, after⟩ t rest = (parts, next))
    (hfound : Gives (step scope) n parts found) (h : Reports scope n after next es) :
    Reports scope (n + 1) after (.token t :: rest) (found ++ es) :=
  of_step hafter parts (fun hempty => by simp [expressionStep, hempty, hkind, hword]) hfound h

/-- A word that tells nothing. -/
theorem silent (hafter : after ≤ rest.length) (hkind : t.kind = .word)
    (hword : wordExpression scope ⟨.token t :: rest, after⟩ t rest = ([], rest)) (h : Reports scope n after rest es) :
    Reports scope (n + 1) after (.token t :: rest) es :=
  word hafter hkind hword (.nil _ _) h

theorem links {l : List (Token × Token)} (hl : ∀ x ∈ l, IsLink x) (hafter : after ≤ rest.length)
    (h : Reports scope n after rest es) :
    Reports scope (n + Piece.sizes (Plain.links l)) after (Plain.links l ++ rest) es := by
  induction l with
  | nil => exact h
  | cons x l ih =>
      obtain ⟨hx, hl⟩ := List.forall_mem_cons.1 hl
      have hrest := ih hl
      have hword : Reports scope _ after (.token x.2 :: (Plain.links l ++ rest)) es :=
        silent (by simp; omega) hx.word (by rw [wordExpression, if_pos hx.member]) hrest
      have hlink : Reports scope _ after (.token x.1 :: .token x.2 :: (Plain.links l ++ rest)) es :=
        mark (by simp; omega) hx.dot (by decide) hword
      have hlinks : Plain.links (x :: l) = .token x.1 :: .token x.2 :: Plain.links l := rfl
      rw [hlinks]
      exact hlink.mono (by simp only [Piece.sizes, Piece.size]; omega)

/-- A group that is searched for calls. -/
theorem enclosed (hafter : after ≤ rest.length) (hbrace : o.kind ≠ .openBrace)
    (hinner : Reports scope (2 * Piece.sizes inner + 1) 0 inner found) (h : Reports scope n after rest es) :
    Reports scope (n + 2 * Piece.sizes [.group o c inner]) after (.group o c inner :: rest) (found ++ es) := by
  have hgroup : Reports scope (n + 2 * Piece.sizes inner + 1 + 1) after (.group o c inner :: rest) (found ++ es) :=
    of_step hafter [expr (.whole inner)] (fun hempty => by simp [expressionStep, hempty, hbrace])
      (hinner.mono (by omega)) (h.mono (by omega))
  exact hgroup.mono (by simp only [Piece.sizes, Piece.size]; omega)

theorem object (hafter : after ≤ rest.length) (ho : o.kind = .openBrace) (hobject : o.opensObject = true)
    (hinner : Gives (step scope) (2 * Piece.sizes inner + 1) ((Range.whole inner).parts.flatMap field) found)
    (h : Reports scope n after rest es) :
    Reports scope (n + 2 * Piece.sizes [.group o c inner]) after (.group o c inner :: rest) (found ++ es) := by
  have hgroup : Reports scope (n + 2 * Piece.sizes inner + 1 + 1) after (.group o c inner :: rest) (found ++ es) :=
    of_step hafter ((Range.whole inner).parts.flatMap field)
      (fun hempty => by simp [expressionStep, hempty, ho, hobject]) (hinner.mono (by omega)) (h.mono (by omega))
  exact hgroup.mono (by simp only [Piece.sizes, Piece.size]; omega)

theorem block (hafter : after ≤ rest.length) (ho : o.kind = .openBrace) (hobject : o.opensObject = false)
    (hinner : Gives (step scope) (2 * Piece.sizes inner + 1) [Scan.Walk.block inner rest] found)
    (h : Reports scope n after rest es) :
    Reports scope (n + 2 * Piece.sizes [.group o c inner]) after (.group o c inner :: rest) (found ++ es) := by
  have hgroup : Reports scope (n + 2 * Piece.sizes inner + 1 + 1) after (.group o c inner :: rest) (found ++ es) :=
    of_step hafter [Scan.Walk.block inner rest]
      (fun hempty => by simp [expressionStep, hempty, ho, hobject]) (hinner.mono (by omega)) (h.mono (by omega))
  exact hgroup.mono (by simp only [Piece.sizes, Piece.size]; omega)

end Reports

/-! ### Words -/

theorem marker?_eq_none (scope : Marker.Scope) {names : List String} (hchain : chain rest = (names, next))
    (hparen : at? .openParen (skipTypeArguments next) = false) :
    Scan.Call.marker? scope (.token t :: rest) = none := by
  rw [Scan.Call.marker?]
  split
  · rfl
  · simp only [hchain]
    split
    · rename_i hnext
      rw [if_pos]
      simpa [hnext] using hparen
    · rfl

theorem assignedExport?_eq_none {names : List String} (hchain : chain rest = (names, next))
    (hassign : at? .assign next = true → ∀ name, t.text :: names ≠ ["exports", name] ∧
      t.text :: names ≠ ["module", "exports", name]) : Scan.Walk.assignedExport? t rest = none := by
  rw [Scan.Walk.assignedExport?]
  simp only [hchain]
  split
  · have hnames := hassign ‹_›
    split
    · exact absurd ‹_› (hnames _).1
    · exact absurd ‹_› (hnames _).2
    · rfl
  · rfl

/-- A word that is neither a callee nor what is assigned to. -/
theorem wordExpression_silent (after : Nat) (hmember : t.isMember = false)
    (htext : t.text ≠ "function" ∧ t.text ≠ "class")
    (hmarker : Scan.Call.marker? scope (.token t :: rest) = none)
    (hassigned : Scan.Walk.assignedExport? t rest = none) :
    Scan.Walk.wordExpression scope ⟨.token t :: rest, after⟩ t rest = ([], rest) := by
  simp only [Scan.Walk.wordExpression, hmember, hmarker, hassigned, htext, if_false, Bool.false_eq_true]

theorem IsName.not_declaration (h : IsName t) : t.text ≠ "function" ∧ t.text ≠ "class" :=
  ⟨h.ne (by decide), h.ne (by decide)⟩

/-- A name by itself. -/
theorem IsName.silent (h : IsName t) (hskip : skipTypeArguments rest = rest) (hdot : at? .dot rest = false)
    (hparen : at? .openParen rest = false) :
    Scan.Walk.wordExpression scope ⟨.token t :: rest, after⟩ t rest = ([], rest) := by
  have hchain : chain rest = ([], rest) := chain_links (l := []) (by simp) hdot
  exact wordExpression_silent after h.member h.not_declaration (marker?_eq_none scope hchain (by rw [hskip, hparen]))
    (assignedExport?_eq_none hchain (by simp))

/-! ### Calls of the marker -/

/-- The names in a value are those that the tree counts. -/
theorem Value.ofRange_eq (h : Value e ps) (form : Form) (hrest : Continues rest) :
    Scan.Names.ofRange ⟨ps ++ rest, rest.length⟩ = e.names form := by
  have hnames : Names (1 + Piece.sizes ps) rest.length (ps ++ rest) (e.names form ++ []) :=
    h.named hrest (Nat.le_refl _) (.empty (Nat.le_refl _))
  rw [List.append_nil] at hnames
  exact hnames.unfold_eq (by simp [sizes_append]; omega)

/-- The call of a chain of names is a call of the marker just if the tree is one, and the same. -/
theorem Value.marker?_eq {text text' : String} {start a b : Nat} {x : List (Token × Token)} (scope : Marker.Scope)
    (form : Form) (h : Value (.mk .call text start c.stop [f, .mk .arguments text' a b l])
      (.token t :: links x ++ [.group o c inner]))
    (ht : IsName t) (hx : ∀ y ∈ x, IsLink y) (hchain : f.chain? = some (t.text :: x.map (·.2.text)))
    (hl : Values l inner) (ho : o.kind = .openParen) (hstart : t.start = start) (hrest : Continues rest) :
    Scan.Call.marker? scope (.token t :: (links x ++ .group o c inner :: rest)) =
      (Tree.markerCall? scope form (.mk .call text start c.stop [f, .mk .arguments text' a b l])).map (·, rest) := by
  have hfirst : ¬(t.text ∈ ["this", "super", "new", "function"] ∨ t.follows "new" = true ∨
      t.follows "function" = true) := by
    simp [ht.new, ht.function, ht.ne (show "this" ∈ keywords by decide), ht.ne (show "super" ∈ keywords by decide),
      ht.ne (show "new" ∈ keywords by decide), ht.ne (show "function" ∈ keywords by decide)]
  have hlinks : chain (links x ++ .group o c inner :: rest) = (x.map (·.2.text), .group o c inner :: rest) :=
    chain_links hx (by simp [ho])
  have hskip : skipTypeArguments (.group o c inner :: rest) = .group o c inner :: rest :=
    Continues.skip (.of_kind (p := .group o c inner) ho (by decide))
  have hnames := h.ofRange_eq form hrest
  rw [List.append_assoc, List.cons_append, List.singleton_append] at hnames
  rw [Scan.Call.marker?, if_neg hfirst]
  simp only [hlinks, hskip, ho, ne_eq, not_true_eq_false, if_false, hnames, hl.shape_eq form, hstart,
    Tree.markerCall?, hchain]
  cases x with
  | nil => simp
  | cons y x => simp; split <;> rfl

/-! ### Parameters -/

/-- What may stand behind a name among parameters. -/
def AmongParameters (place : Place) : Prop :=
  ∀ p ∈ place.head?, p.head.kind ∈ [.word, .comma, .openBrace, .openBracket]

theorem isParameterPiece_kind (h : isParameterPiece p = true) :
    p.head.kind ∈ [.word, .comma, .openBrace, .openBracket] := by
  cases p with
  | token t =>
      simp only [isParameterPiece, Bool.or_eq_true, decide_eq_true_eq] at h
      rcases h with h | h
      · simp [Piece.head, h.kind]
      · simp [Piece.head, h]
  | group o c inner =>
      simp only [isParameterPiece, Bool.and_eq_true, Bool.or_eq_true, decide_eq_true_eq] at h
      rcases h.1 with h | h
      · simp [Piece.head, h.1]
      · simp [Piece.head, h]

theorem isParameterPiece_of_name (h : isNameOrComma p = true) : isParameterPiece p = true := by
  cases p with
  | token t => exact h
  | group o c inner => cases h

theorem amongParameters (h : ps.all isParameterPiece = true) : AmongParameters ps := by
  cases ps with
  | nil => rintro _ ⟨⟩
  | cons p ps =>
      rintro _ ⟨⟩
      rw [List.all_cons, Bool.and_eq_true] at h
      exact isParameterPiece_kind h.1

namespace AmongParameters

theorem at_eq_false {k : TokenKind} (h : AmongParameters place) (hk : k ∉ [.word, .comma, .openBrace, .openBracket]) :
    at? k place = false := by
  cases place with
  | nil => rfl
  | cons p rest =>
      rw [at?_cons, decide_eq_false_iff_not]
      rintro rfl
      exact hk (h p rfl)

theorem skip (h : AmongParameters place) : skipTypeArguments place = place := by
  refine skipTypeArguments_eq_self fun p hp hkind => ?_
  have hmem := h p hp
  rw [hkind] at hmem
  exact absurd hmem (by decide)

end AmongParameters

namespace Reports

theorem name (ht : IsName t) (hskip : skipTypeArguments rest = rest) (hdot : at? .dot rest = false)
    (hparen : at? .openParen rest = false) (hafter : after ≤ rest.length) (h : Reports scope n after rest es) :
    Reports scope (n + 1) after (.token t :: rest) es :=
  silent hafter ht.kind (ht.silent hskip hdot hparen) h

theorem nameOrComma (ht : isNameOrComma (.token t) = true) (hrest : AmongParameters rest) (hafter : after ≤ rest.length)
    (h : Reports scope n after rest es) : Reports scope (n + 1) after (.token t :: rest) es := by
  simp only [isNameOrComma, Bool.or_eq_true, decide_eq_true_eq] at ht
  rcases ht with ht | ht
  · exact name ht hrest.skip (hrest.at_eq_false (by decide)) (hrest.at_eq_false (by decide)) hafter h
  · exact mark hafter ht (by decide) h

/-- Names between commas report nothing. -/
theorem names (h : ps.all isNameOrComma = true) (after : Nat) : Reports scope (Piece.sizes ps + 1) after ps [] := by
  induction ps with
  | nil => exact empty (Nat.zero_le _)
  | cons p ps ih =>
      rw [List.all_cons, Bool.and_eq_true] at h
      obtain ⟨hp, hps⟩ := h
      by_cases hafter : after ≤ ps.length
      · cases p with
        | group o c inner => cases hp
        | token t =>
            have hall : ps.all isParameterPiece = true :=
              List.all_eq_true.2 fun p hmem => isParameterPiece_of_name (List.all_eq_true.1 hps p hmem)
            refine (nameOrComma hp (amongParameters hall) hafter (ih hps)).mono ?_
            simp only [Piece.sizes, Piece.size]
            omega
      · exact (empty (by simp; omega)).mono (by omega)

end Reports

theorem sizes_pos (h : ps ≠ []) : 0 < Piece.sizes ps :=
  (List.length_pos_iff.2 h).trans_le (Scan.Place.length_le_sizes ps)

namespace Reports

/-- The fields of a pattern of names report nothing. -/
theorem patternFields (h : inner.all isNameOrComma = true) :
    Gives (Scan.Walk.step scope) (Piece.sizes inner + 1) ((Range.whole inner).parts.flatMap Scan.Walk.field) [] := by
  refine Gives.flatMap_nil fun r hr => ?_
  obtain ⟨place, after⟩ := r
  have hsuffix := Scan.Place.suffix_of_parts hr
  have hplace : place.all isNameOrComma = true :=
    List.all_eq_true.2 fun p hp => List.all_eq_true.1 h p (hsuffix.subset hp)
  have hnames : Reports scope (Piece.sizes inner + 1) after place [] :=
    (names hplace after).mono (Nat.succ_le_succ (sizes_le_of_suffix hsuffix))
  cases place with
  | nil => exact .nil _ _
  | cons p rest =>
      rw [List.all_cons, Bool.and_eq_true] at hplace
      cases p with
      | group o c inner => cases hplace.1
      | token t =>
          have hrest : AmongParameters rest := amongParameters
            (List.all_eq_true.2 fun p hp => isParameterPiece_of_name (List.all_eq_true.1 hplace.2 p hp))
          have hellipsis : t.kind ≠ .ellipsis := by
            have := isParameterPiece_kind (isParameterPiece_of_name hplace.1)
            rw [Piece.head] at this
            rintro hkind
            rw [hkind] at this
            exact absurd this (by decide)
          have hcolon : at? .colon rest = false := hrest.at_eq_false (by decide)
          have hfield : Scan.Walk.field ⟨.token t :: rest, after⟩ = [Scan.Walk.expr ⟨.token t :: rest, after⟩] := by
            simp [Scan.Walk.field, hellipsis, hcolon]
          rw [hfield]
          exact hnames

/-- Parameters report nothing. -/
theorem parameters (h : inner.all isParameterPiece = true) : Reports scope (2 * Piece.sizes inner + 1) 0 inner [] := by
  induction inner with
  | nil => exact empty (Nat.le_refl 0)
  | cons p inner ih =>
      rw [List.all_cons, Bool.and_eq_true] at h
      obtain ⟨hp, hinner⟩ := h
      have hrest := ih hinner
      cases p with
      | token t =>
          refine (nameOrComma hp (amongParameters hinner) (Nat.zero_le _) hrest).mono ?_
          simp only [Piece.sizes, Piece.size]
          omega
      | group o c names' =>
          simp only [isParameterPiece, Bool.and_eq_true, Bool.or_eq_true, decide_eq_true_eq] at hp
          obtain ⟨ho, hnames⟩ := hp
          have hsizes : 2 * Piece.sizes inner + 1 + 2 * Piece.sizes [.group o c names'] ≤
              2 * Piece.sizes (.group o c names' :: inner) + 1 := by
            simp only [Piece.sizes, Piece.size]
            omega
          rcases ho with ⟨ho, hobject⟩ | ho
          · exact (object (c := c) (Nat.zero_le _) ho hobject ((patternFields hnames).mono (by omega)) hrest).mono hsizes
          · exact (enclosed (c := c) (Nat.zero_le _) (by simp [ho]) ((names hnames 0).mono (by omega)) hrest).mono hsizes

/-- Parameters with the arrow behind them report nothing. -/
theorem arrow (hp : Parameters e p) (ht : t.kind = .arrow) (hafter : after ≤ rest.length)
    (h : Reports scope n after rest es) :
    Reports scope (n + 2 * Piece.sizes [p, .token t]) after (p :: .token t :: rest) es := by
  have harrow : Reports scope (n + 1) after (.token t :: rest) es := mark hafter ht (by decide) h
  have hafter' : after ≤ (Piece.token t :: rest).length := Nat.le_succ_of_le hafter
  cases hp with
  | @group o c text l inner _ _ hl ho hinner =>
      refine (enclosed (c := c) hafter' (by simp [ho]) (parameters hinner) harrow).mono ?_
      simp only [Piece.sizes, Piece.size]
      omega
  | single ht' =>
      have hskip : skipTypeArguments (.token t :: rest) = .token t :: rest :=
        skipTypeArguments_eq_self (by simp [Piece.head, ht])
      refine (name ht' hskip ?_ ?_ hafter' harrow).mono ?_
      · simp [ht]
      · simp [ht]
      · simp [Piece.sizes, Piece.size]

end Reports

/-! ### What stands behind a value -/

/-- What may stand behind a value that is walked through: an equals sign only where nothing is exported by it, and
more of an expression only where the value can be gone on with. -/
structure Behind (e : Tree) (rest : Place) : Prop extends Follows e rest where
  assigned : at? .assign rest = true → e.chain?.isSome = true ∧ Script.assignedName? "=" e = none
  stops : isOperand e = false → Stops rest

theorem Stops.behind (h : Stops rest) : Behind e rest :=
  ⟨h.follows, by simp [h.at_eq_false (k := .assign) (by decide)], fun _ => h⟩

theorem Behind.at_assign (h : Behind e rest) (he : e.chain? = none) : at? .assign rest = false := by
  by_contra hassign
  have := (h.assigned (by simpa using hassign)).1
  rw [he] at this
  cases this

theorem isOperand_of_head (h : isHead e = true) : isOperand e = true := by
  rw [isOperand, h]
  rfl

theorem isHead_of_chain {names : List String} (h : e.chain? = some names) : isHead e = true := by
  rcases node_of_chain h with h | h <;> simp [isHead, h]

/-- Behind a value that is no head stands no member and no call. -/
theorem Follows.of_not_head (h : Follows e rest) (he : isHead e = false) : Follows f rest := by
  have hmore : ¬(at? .dot rest = true ∨ at? .openParen rest = true) := fun hat => by
    have := (h.more hat).1
    rw [he] at this
    cases this
  exact ⟨h.continues, fun hat => absurd hat hmore⟩

/-- What stands behind an operation stands behind the operand on its right. -/
theorem Behind.right (h : Behind e rest) (he : isHead e = false) (hchain : e.chain? = none) (hf : isOperand f = true) :
    Behind f rest :=
  ⟨h.toFollows.of_not_head he, by simp [h.at_assign hchain], fun hf' => absurd (hf.symm.trans hf') (by decide)⟩

/-! ### Chains and calls -/

theorem Value.walk_chain {e : Tree} {ps : List Piece} {names : List String} (h : Value e ps)
    (scope : Marker.Scope) (form : Form) (hchain : e.chain? = some names) (top exported : Bool) :
    walk scope form top exported e = [] := by
  cases h with
  | name ht => rfl
  | @member d w e ps a b h he hd hw hmember =>
      have hmap : e.chain?.map (· ++ [w.text]) = some names := hchain
      obtain ⟨names', hnames, -⟩ := Option.map_eq_some_iff.1 hmap
      have hwalk : walk scope form top exported (.mk .member w.text a b [e]) = walk scope form false false e ++ [] := rfl
      rw [hwalk, h.walk_chain scope form hnames]
      rfl
  | literal ht => cases ht <;> cases hchain
  | _ => cases hchain

theorem assignedName?_eq_some_iff {names : List String} {name : String} (hchain : e.chain? = some names) :
    Script.assignedName? "=" e = some name ↔ names = ["exports", name] ∨ names = ["module", "exports", name] := by
  rw [Script.assignedName?, if_pos rfl, hchain]
  constructor
  · intro hname
    split at hname
    · rename_i hnames
      cases hnames
      cases hname
      exact .inl rfl
    · rename_i hnames
      cases hnames
      cases hname
      exact .inr rfl
    · cases hname
  · rintro (rfl | rfl) <;> rfl

/-- A chain of names that is neither called nor assigned to the exports. -/
theorem Value.walked_chain {names : List String} (h : Value e ps) (hchain : e.chain? = some names)
    (hrest : Behind e rest) (hafter : after ≤ rest.length) (hes : Reports scope n after rest es) :
    Reports scope (n + 2 * Piece.sizes ps) after (ps ++ rest) es := by
  have hmore : at? .dot rest = false ∧ at? .openParen rest = false := by
    simpa [hchain] using hrest.more
  obtain ⟨t, x, ht, hx, rfl, rfl⟩ := h.exists_links hchain
  have hlinks : chain (links x ++ rest) = (x.map (·.2.text), rest) := chain_links hx hmore.1
  have hassigned : Scan.Walk.assignedExport? t (links x ++ rest) = none := by
    refine assignedExport?_eq_none hlinks fun hassign name => ?_
    have hnone := (hrest.assigned hassign).2
    have hnames := mt ((assignedName?_eq_some_iff hchain).2 : _ → _ = some name) (by simp [hnone])
    exact not_or.1 hnames
  have hparen : at? .openParen (skipTypeArguments rest) = false := by rw [hrest.continues.skip, hmore.2]
  have hword := wordExpression_silent after ht.member ht.not_declaration
    (marker?_eq_none scope hlinks hparen) hassigned
  have hreports := Reports.silent (by simp; omega) ht.kind hword (Reports.links hx hafter hes)
  rw [List.cons_append]
  exact hreports.mono (by simp only [Piece.sizes, Piece.size]; omega)

/-- A chain of names that is assigned to the exports. -/
theorem Value.wordExpression_assigned (scope : Marker.Scope) {name : String} {x : List (Token × Token)}
    (ht : IsName t) (hx : ∀ y ∈ x, IsLink y) (hchain : e.chain? = some (t.text :: x.map (·.2.text)))
    (hname : Script.assignedName? "=" e = some name) (hc : c.kind = .assign) (h : Value f qs) (hrest : Stops rest)
    (hafter : after ≤ rest.length) :
    Scan.Walk.wordExpression scope ⟨.token t :: (links x ++ .token c :: (qs ++ rest)), after⟩ t
      (links x ++ .token c :: (qs ++ rest)) =
        (.inl (.assignedExport name) :: Scan.Walk.entering name [Scan.Walk.expr ⟨qs ++ rest, rest.length⟩], rest) := by
  have hlinks : chain (links x ++ .token c :: (qs ++ rest)) = (x.map (·.2.text), .token c :: (qs ++ rest)) :=
    chain_links hx (by simp [hc])
  have hskip : skipTypeArguments (.token c :: (qs ++ rest)) = .token c :: (qs ++ rest) :=
    skipTypeArguments_eq_self (by simp [Piece.head, hc])
  have hmarker : Scan.Call.marker? scope (.token t :: (links x ++ .token c :: (qs ++ rest))) = none :=
    marker?_eq_none scope hlinks (by rw [hskip]; simp [hc])
  have hassigned : Scan.Walk.assignedExport? t (links x ++ .token c :: (qs ++ rest)) =
      some (name, .token c :: (qs ++ rest)) := by
    have hassign : at? .assign (.token c :: (qs ++ rest)) = true := by simp [hc]
    rw [Scan.Walk.assignedExport?]
    simp only [hlinks, hassign, if_true]
    rcases (assignedName?_eq_some_iff hchain).1 hname with hnames | hnames
    · rw [hnames]
      rfl
    · rw [hnames]
      rfl
  simp only [Scan.Walk.wordExpression, ht.member, hmarker, hassigned, Bool.false_eq_true, if_false, List.tail_cons,
    h.statementEnd_stops hrest hafter]

theorem gives_entering {parts : List Scan.Walk.Part} (name : String)
    (h : Gives (Scan.Walk.step scope) n parts es) :
    Gives (Scan.Walk.step scope) n (Scan.Walk.entering name parts) (Script.entering name es) :=
  (h.append (Gives.answer (.nil _ _))).answer

/-! ### Statements by their first words -/

/-- Words that begin a statement of a kind of its own. -/
def statementWords : List String :=
  ["import", "export", "const", "let", "var", "async", "function", "class", "if", "while", "for", "switch", "with",
    "catch", "else", "do", "try", "finally", "return", "throw", "case"]

theorem not_statementWord {w : String} (hw : w ∉ keywords ∨ w ∈ ["true", "false", "null"]) : w ∉ statementWords := by
  have hwords : ∀ w ∈ statementWords, w ∈ keywords ∧ w ∉ ["true", "false", "null"] := by decide
  intro hmem
  rcases hw with hw | hw
  · exact hw (hwords w hmem).1
  · exact (hwords w hmem).2 hw

/-- What stands behind a word that neither names something nor marks a place. -/
structure BehindWord (rest : Place) : Prop where
  word : at? .word rest = false
  str : at? .str rest = false
  colon : at? .colon rest = false

theorem Continues.behindWord (h : Continues rest) : BehindWord rest :=
  ⟨h.at_eq_false (by decide), h.at_eq_false (by decide), h.at_eq_false (by decide)⟩

theorem Value.exists_behindWord (h : Value e ps) : ∃ p qs, ps = p :: qs ∧ Opens p ∧
    (p.head.kind = .word → ∀ rest, Continues rest → BehindWord (qs ++ rest)) := by
  by_cases he : e.node = .arrow
  · have harrow : ∀ {t : Token} {rest : Place}, t.kind = .arrow → BehindWord (.token t :: rest) := fun ht =>
      ⟨by simp [ht], by simp [ht], by simp [ht]⟩
    cases h with
    | arrow hp ht h => exact ⟨_, _, rfl, hp.opens, fun _ _ _ => harrow ht⟩
    | arrowBlock hp ht hl => exact ⟨_, _, rfl, hp.opens, fun _ _ _ => harrow ht⟩
    | literal ht => cases ht <;> cases he
    | _ => cases he
  · obtain ⟨p, qs, rfl, hp, hqs⟩ := h.exists_opens
    exact ⟨p, qs, rfl, hp, fun hword rest hrest => (hqs he (.inl hword) rest hrest).behindWord⟩

open Scan.Walk in
theorem wordStatement_value {w : String} (hw : w ∉ statementWords) (hrest : BehindWord rest) (top : Bool) :
    wordStatement top w place rest = expressionStatement place := by
  simp only [statementWords, List.mem_cons, List.not_mem_nil, or_false, not_or] at hw
  simp [wordStatement, conditionWords, hw, word?_eq_none hrest.word, hrest.str, hrest.colon]

open Scan.Walk in
theorem statement_word {top : Bool} {behind : Place} (hkind : t.kind = .word) (htext : t.text ≠ "export") :
    statement top behind (.token t :: rest) = wordStatement top t.text (.token t :: rest) rest := by
  rw [statement, if_neg (by simp [hkind]), if_neg (by simp [hkind]), if_neg htext]

open Scan.Walk in
theorem Value.expressionStatement_eq (h : Value e ps) (hc : c.kind = .semicolon) :
    expressionStatement (ps ++ .token c :: rest) =
      ([expr ⟨ps ++ .token c :: rest, (Piece.token c :: rest).length⟩], rest) := by
  rw [expressionStatement, h.statementEnd_semicolon hc]
  rfl

open Scan.Walk in
/-- A value is a statement of its own, up to the semicolon. -/
theorem Value.statement_eq (h : Value e ps) (hbrace : at? .openBrace ps = false) (hc : c.kind = .semicolon)
    (top : Bool) (behind : Place) : statement top behind (ps ++ .token c :: rest) =
      ([expr ⟨ps ++ .token c :: rest, (Piece.token c :: rest).length⟩], rest) := by
  have hcontinues : Continues (.token c :: rest) := .of_kind (p := .token c) hc (by decide)
  rw [← h.expressionStatement_eq hc]
  obtain ⟨p, qs, rfl, hp, hqs⟩ := h.exists_behindWord
  have hinside := (h.inside p List.mem_cons_self).kind
  rw [List.cons_append]
  cases p with
  | group o c inner =>
      rw [statement, if_neg]
      simpa [] using hbrace
  | token t =>
      by_cases hkind : t.kind = .word
      · have hw : t.text ∉ keywords ∨ t.text ∈ ["true", "false", "null"] := (hp.word t rfl hkind).imp_left (·.text)
        have hexport : t.text ≠ "export" := fun htext => not_statementWord hw (htext ▸ by decide)
        rw [statement_word hkind hexport, wordStatement_value (not_statementWord hw) (hqs hkind _ hcontinues)]
      · have hsemicolon : t.kind ≠ .semicolon := by
          rintro hsemicolon
          simp [Piece.head, hsemicolon] at hinside
        rw [statement, if_neg hsemicolon, if_pos hkind]

/-- The name that a declarator gives to its value; a pattern gives none. -/
def targetName? (t : Tree) : Option String := if t.node = .bindingName then some t.text else none

open Scan.Walk in
/-- What stands under a name, or under none. -/
def under (name : Option String) (parts : List Part) : List Part :=
  match name with
  | some name => entering name parts
  | none => .inl .enterAnonymous :: parts ++ [.inl .exit]

open Scan.Walk in
theorem variableStatement_eq (hu : Target f p) (ht : t.kind = .assign) (h : Value e ps) (hc : c.kind = .semicolon)
    (top exported : Bool) : variableStatement top exported (p :: .token t :: (ps ++ .token c :: rest)) =
      (bound top exported (targetName? f) ++
        under (targetName? f) [expr ⟨ps ++ .token c :: rest, (Piece.token c :: rest).length⟩], rest) := by
  have hdeclared : declared? (p :: .token t :: (ps ++ .token c :: rest)) =
      some (targetName? f, .token t :: (ps ++ .token c :: rest)) := by
    cases hu with
    | name hword htext => simp [declared?, hword, targetName?, Script.Tree.node, Tree.text]
    | pattern hl ho => simp [declared?, ho, targetName?, Script.Tree.node]
  have htype : behindType (.token t :: (ps ++ .token c :: rest)) = .token t :: (ps ++ .token c :: rest) := by
    simp [behindType, Scan.Place.atOperator, ht]
  have hend := h.statementEnd_stops (.semicolon (p := .token c) hc) (Nat.zero_le (Piece.token c :: rest).length)
  have hvalue : value (targetName? f) (.token t :: (ps ++ .token c :: rest)) =
      (under (targetName? f) [expr ⟨ps ++ .token c :: rest, (Piece.token c :: rest).length⟩], .token c :: rest) := by
    rw [value, if_pos (by simp [ht]), List.tail_cons, hend]
    cases targetName? f <;> rfl
  have hcomma : at? .comma (.token c :: rest) = false := by simp [hc]
  have hsemicolon : at? .semicolon (.token c :: rest) = true := by simp [hc]
  rw [variableStatement, List.length_cons, declarators_succ, hdeclared]
  simp only [htype, hvalue, hcomma, hsemicolon, if_true, Bool.false_eq_true, if_false, List.tail_cons]

open Scan.Walk in
theorem function_eq {u' c' : Token} (ht : t.kind = .word) (hu : u.kind = .openParen) (ho : o.kind = .openBrace)
    (hrest : at? .openBrace rest = false) (top : Bool) :
    function 0 top (.token t :: .group u u' qs :: .group o c' inner :: rest) =
      (bindingIf top t.text ++ entering t.text [expr (.whole qs), Scan.Walk.block inner rest], rest) := by
  have hskip : skipTypeArguments (.group u u' qs :: .group o c' inner :: rest) =
      .group u u' qs :: .group o c' inner :: rest := skipTypeArguments_eq_self (by simp [Piece.head, hu])
  have hfind : Scan.Place.find 0 (fun q => at? .openBrace q || at? .semicolon q) (.group o c' inner :: rest) =
      .group o c' inner :: rest := by
    rw [Scan.Place.find, if_neg (Nat.not_lt_zero _), if_pos]
    simp [ho]
  have hbody : bodyBlock (.group o c' inner :: rest) = .group o c' inner :: rest := by
    rw [bodyBlock, if_neg (by simp [hrest])]
  have hfunction : functionRest 0 (.group u u' qs :: .group o c' inner :: rest) =
      ([expr (.whole qs), Scan.Walk.block inner rest], rest) := by
    rw [functionRest]
    simp only [hskip, Scan.Place.group?, hu, if_true, hfind, hbody, ho]
  simp [function, Scan.Names.skipStar, Scan.Place.atOperator, ht, word?, hfunction]

/-! ### Walking through values and statements -/

theorem walkAll_singleton (top exported : Bool) (e : Tree) :
    walkAll scope form top exported [e] = walk scope form top exported e := by
  rw [walkAll, walkAll, List.append_nil]

theorem walkAll_pair (top exported : Bool) (e f : Tree) :
    walkAll scope form top exported [e, f] = walk scope form top exported e ++ walk scope form top exported f := by
  rw [walkAll, walkAll_singleton]

theorem walk_target (h : isTarget e = true) (top exported : Bool) : walk scope form top exported e = [] := by
  obtain ⟨node, text, start, stop, l⟩ := e
  rw [isTarget] at h
  split at h
  · rename_i hnode
    obtain rfl : node = .bindingName := hnode
    rw [Tree.children, List.isEmpty_iff] at h
    subst h
    rfl
  · rename_i hnode
    obtain rfl : node = .pattern := hnode
    rw [Tree.children] at h
    show walkAll scope form false false l = []
    induction l with
    | nil => rfl
    | cons u l ih =>
        rw [List.all_cons, Bool.and_eq_true] at h
        obtain ⟨node, text, start, stop, children⟩ := u
        simp only [Script.Tree.node, Tree.children, Bool.and_eq_true, Bool.or_eq_true, List.isEmpty_iff] at h
        obtain ⟨⟨hnode, rfl⟩, hl⟩ := h
        rw [walkAll, ih hl]
        rcases hnode with hnode | hnode
        · obtain rfl := of_decide_eq_true hnode
          rfl
        · obtain rfl := of_decide_eq_true hnode
          rfl
  · cases h

theorem Parameters.walk_eq (h : Parameters e p) (top exported : Bool) : walk scope form top exported e = [] := by
  cases h with
  | @group o c text l inner a b hl ho hinner =>
      show walkAll scope form false false l = []
      induction l with
      | nil => rfl
      | cons u l ih =>
          rw [List.all_cons, Bool.and_eq_true] at hl
          rw [walkAll, walk_target hl.1, ih hl.2]
          rfl
  | single ht => rfl

theorem IsLiteral.walk_eq {node : Node} {text : String} {a b : Nat} (h : IsLiteral t node text) :
    walk scope form false false (.mk node text a b []) = [] := by
  cases h <;> rfl

theorem Reports.literal {node : Node} {text : String} {a b : Nat} (ht : IsLiteral t node text)
    (hrest : Behind (.mk node text a b []) rest) (hafter : after ≤ rest.length) (h : Reports scope n after rest es) :
    Reports scope (n + 1) after (.token t :: rest) es := by
  cases ht with
  | quoted hkind => exact mark hafter hkind (by decide) h
  | number hkind => exact mark hafter hkind (by decide) h
  | template hkind => exact mark hafter hkind (by decide) h
  | regex hkind htext => exact mark hafter hkind (by decide) h
  | word hkind htext hmember =>
      have hmore : at? .dot rest = false ∧ at? .openParen rest = false := by
        simpa [isHead, Script.Tree.node] using hrest.more
      have hchain : chain rest = ([], rest) := chain_links (l := []) (by simp) hmore.1
      have hwords : t.text ≠ "function" ∧ t.text ≠ "class" := by
        generalize t.text = text at htext
        revert text
        decide
      exact silent hafter hkind (wordExpression_silent after hmember hwords
        (marker?_eq_none scope hchain (by rw [hrest.continues.skip, hmore.2]))
        (assignedExport?_eq_none hchain (by simp))) h

theorem Statement.ne_nil (h : Statement e ps) : ps ≠ [] := by
  cases h <;> simp

theorem Statement.not_brace (h : Statement e ps) : at? .openBrace (ps ++ rest) = false := by
  cases h with
  | binding hk hu ht h hs =>
      simp only [isWord, Bool.and_eq_true, decide_eq_true_eq] at hk
      rcases hk with hk | hk | hk <;> simp [hk]
  | function hk =>
      simp only [isWord, Bool.and_eq_true, decide_eq_true_eq] at hk
      simp [hk]
  | expression h hbrace hs =>
      obtain ⟨p, qs, rfl, -⟩ := h.exists_opens
      simpa [at?_cons] using hbrace
  | result hk =>
      simp only [isWord, Bool.and_eq_true, decide_eq_true_eq] at hk
      simp [hk]

theorem Statements.not_brace (h : Statements l ps) : at? .openBrace ps = false := by
  cases h with
  | nil => rfl
  | cons h hl => exact h.not_brace

open Scan.Walk in
theorem statementsStep_eq {parts : List Part} {top : Bool} {behind : Place} (hne : ps ≠ [])
    (h : statement top behind (ps ++ rest) = (parts, rest)) :
    statementsStep (ps ++ rest) top behind = parts ++ [.inr (.statements rest top behind)] := by
  cases ps with
  | nil => exact absurd rfl hne
  | cons p ps =>
      have hsizes : Piece.sizes rest < Piece.sizes (p :: ps ++ rest) := by
        have hpos := sizes_pos (List.cons_ne_nil p ps)
        rw [sizes_append]
        omega
      rw [List.cons_append] at h hsizes ⊢
      rw [statementsStep.eq_def]
      simp only [h, hsizes, if_true]

/-- What is reported under a name, or under none. -/
def entered (name : Option String) (es : List Event) : List Event :=
  match name with
  | some name => Script.entering name es
  | none => .enterAnonymous :: es ++ [.exit]

open Scan.Walk in
theorem gives_under {parts : List Part} (name : Option String) (h : Gives (step scope) n parts es) :
    Gives (step scope) n (under name parts) (entered name es) := by
  cases name with
  | some name => exact gives_entering name h
  | none => exact (h.append (Gives.answer (.nil _ _))).answer

/-- What a declaration of one variable reports. -/
theorem walk_binding {text text' : String} {a b a' b' : Nat} (top exported : Bool) :
    walk scope form top exported (.mk .variableList text a b [.mk .declarator text' a' b' [f, e]]) =
      (targetName? f).toList.flatMap (Script.declares top exported) ++
        entered (targetName? f) (walk scope form false false e) := by
  have hdeclarator : walk scope form top exported (.mk .variableList text a b [.mk .declarator text' a' b' [f, e]]) =
      walk scope form top exported (.mk .declarator text' a' b' [f, e]) := walkAll_singleton top exported _
  rw [hdeclarator]
  simp only [walk, walkAll_singleton, targetName?, List.isEmpty_cons, Bool.false_eq_true, if_false]
  split
  · simp [entered]
  · rfl

theorem gives_bindingIf (top : Bool) (name : String) :
    Gives (Scan.Walk.step scope) n (Scan.Walk.bindingIf top name) (Script.declares top false name) := by
  cases top with
  | true => exact (Gives.nil _ _).answer
  | false => exact .nil _ _

theorem gives_bound (top : Bool) (name : Option String) : Gives (Scan.Walk.step scope) n
    (Scan.Walk.bound top false name) (name.toList.flatMap (Script.declares top false)) := by
  cases name with
  | none => exact .nil _ _
  | some name =>
      rw [Scan.Walk.bound, Option.toList_some, List.flatMap_singleton]
      simpa using gives_bindingIf top name

theorem walk_call {text text' : String} {start stop a b : Nat}
    (h : Tree.markerCall? scope form (.mk .call text start stop [f, .mk .arguments text' a b l]) = none) :
    walk scope form false false (.mk .call text start stop [f, .mk .arguments text' a b l]) =
      walk scope form false false f ++ walkAll scope form false false l := by
  simp only [walk, h, walkAll_pair]

/-- A call of a chain of names, be it a call of the marker or any other. -/
theorem Value.walked_callee {text text' : String} {start a b : Nat} {names : List String}
    (hcall : Value (.mk .call text start c.stop [f, .mk .arguments text' a b l]) (ps ++ [.group o c inner]))
    (h : Value f ps) (hchain : f.chain? = some names) (hl : Values l inner) (ho : o.kind = .openParen)
    (hstart : ps.head?.map (·.head.start) = some start) (hrest : Continues rest) (hafter : after ≤ rest.length)
    (hgroup : Reports scope (n + 2 * Piece.sizes [.group o c inner]) after (.group o c inner :: rest)
      (walkAll scope form false false l ++ es)) (hes : Reports scope n after rest es) :
    Reports scope (n + 2 * Piece.sizes (ps ++ [.group o c inner])) after (ps ++ .group o c inner :: rest)
      (walk scope form false false (.mk .call text start c.stop [f, .mk .arguments text' a b l]) ++ es) := by
  have hcallee := h.walk_chain scope form hchain false false
  obtain ⟨t, x, ht, hx, rfl, rfl⟩ := h.exists_links hchain
  have hlinks : chain (links x ++ .group o c inner :: rest) = (x.map (·.2.text), .group o c inner :: rest) :=
    chain_links hx (by simp [ho])
  have hmarker := hcall.marker?_eq scope form ht hx hchain hl ho
    (by simpa [Piece.head] using hstart) hrest
  have hlength : after ≤ (links x ++ .group o c inner :: rest).length := by simp; omega
  rw [List.cons_append]
  cases hevent : Tree.markerCall? scope form (.mk .call text start c.stop [f, .mk .arguments text' a b l]) with
  | none =>
      rw [hevent] at hmarker
      have hword := wordExpression_silent after ht.member ht.not_declaration hmarker
        (assignedExport?_eq_none hlinks (by simp [ho]))
      have hreports := Reports.silent hlength ht.kind hword (Reports.links hx (Nat.le_succ_of_le hafter) hgroup)
      rw [walk_call hevent, hcallee, List.nil_append]
      exact hreports.mono (by simp only [Piece.sizes, Piece.size, sizes_append]; omega)
  | some e =>
      have hwalk : walk scope form false false (.mk .call text start c.stop [f, .mk .arguments text' a b l]) = [e] := by
        simp only [walk, hevent]
      rw [hevent] at hmarker
      have hword : Scan.Walk.wordExpression scope ⟨.token t :: (links x ++ .group o c inner :: rest), after⟩ t
          (links x ++ .group o c inner :: rest) = ([.inl e], rest) := by
        simp only [Scan.Walk.wordExpression, ht.member, hmarker, Option.map_some, Bool.false_eq_true, if_false]
      have hreports := Reports.word hlength ht.kind hword (Gives.answer (.nil _ _)) hes
      rw [hwalk]
      exact hreports.mono (by simp only [Piece.sizes, Piece.size]; omega)

/-- What a stretch reports that ends where the next begins. -/
theorem Reports.upTo (h : ∀ {n : Nat} {es : List Event}, Reports scope n rest.length rest es →
    Reports scope (n + m) rest.length place (found ++ es)) : Reports scope (m + 1) rest.length place found := by
  have hend := h (.empty (Nat.le_refl _))
  rw [List.append_nil] at hend
  exact hend.mono (by omega)

open Scan.Walk in
theorem statement_binding {top : Bool} {behind : Place}
    (hk : isWord "const" t = true ∨ isWord "let" t = true ∨ isWord "var" t = true) (hu : Target e p) :
    statement top behind (.token t :: p :: rest) = variableStatement top false (p :: rest) := by
  simp only [isWord, Bool.and_eq_true, decide_eq_true_eq] at hk
  have hnamed : (word? (p :: rest)).isSome = true ∨ at? .openBrace (p :: rest) = true ∨
      at? .openBracket (p :: rest) = true := by
    cases hu with
    | name hword htext => simp [word?, hword]
    | pattern hl ho => simpa [] using Or.inr ho
  rcases hk with hk | hk | hk
  · rw [statement_word hk.1.1 (by simp [hk.1.2]), hk.1.2, wordStatement]
    simp [hnamed]
  · rw [statement_word hk.1.1 (by simp [hk.1.2]), hk.1.2, wordStatement]
    simp [hnamed]
  · rw [statement_word hk.1.1 (by simp [hk.1.2]), hk.1.2, wordStatement]
    simp [hnamed]

open Scan.Walk in
theorem statement_function {top : Bool} {behind : Place} (hk : isWord "function" t = true) :
    statement top behind (.token t :: rest) = function 0 top rest := by
  simp only [isWord, Bool.and_eq_true, decide_eq_true_eq] at hk
  rw [statement_word hk.1.1 (by simp [hk.1.2]), hk.1.2, wordStatement]
  simp

open Scan.Walk in
theorem statement_result {top : Bool} {behind : Place} (hk : isWord "return" t = true) :
    statement top behind (.token t :: rest) = expressionStatement rest := by
  simp only [isWord, Bool.and_eq_true, decide_eq_true_eq] at hk
  rw [statement_word hk.1.1 (by simp [hk.1.2]), hk.1.2, wordStatement]
  simp [conditionWords]

section

variable (scope : Marker.Scope) (form : Form)

mutual

theorem Value.walked {e : Tree} {ps : List Piece} (h : Value e ps) {rest : Place} {n after : Nat} {es : List Event}
    (hrest : Behind e rest) (hafter : after ≤ rest.length) (hes : Reports scope n after rest es) :
    Reports scope (n + 2 * Piece.sizes ps) after (ps ++ rest) (walk scope form false false e ++ es) := by
  cases h with
  | @name t a b ht =>
      have hname := (Value.name (a := a) (b := b) ht).walked_chain rfl hrest hafter hes
      exact hname
  | @literal t node text a b ht =>
      rw [ht.walk_eq, List.nil_append]
      exact (Reports.literal ht hrest hafter hes).mono (by simp [Piece.sizes, Piece.size])
  | @negative s t a b a' b' hs htext ht =>
      have hreports := Reports.mark (t := s) (Nat.le_succ_of_le hafter) hs (by decide)
        (.mark hafter ht (by decide) hes)
      exact hreports.mono (by simp [Piece.sizes, Piece.size])
  | @member d w e ps a b h he hd hw hmember =>
      have hwalk : walk scope form false false (.mk .member w.text a b [e]) = walk scope form false false e :=
        walkAll_singleton false false e
      rw [hwalk]
      cases hchain : e.chain? with
      | some names =>
          have hnames : (Tree.mk .member w.text a b [e]).chain? = some (names ++ [w.text]) := by
            simp [Tree.chain?, hchain]
          rw [h.walk_chain scope form hchain]
          exact (Value.member h he hd hw hmember).walked_chain hnames hrest hafter hes
      | none =>
          have hword : Reports scope (n + 1) after (.token w :: rest) es :=
            .silent hafter hw (by rw [Scan.Walk.wordExpression, if_pos hmember]) hes
          have hdot : Reports scope (n + 1 + 1) after (.token d :: .token w :: rest) es :=
            .mark (Nat.le_succ_of_le hafter) hd (by decide) hword
          have hbehind : Behind e (.token d :: .token w :: rest) :=
            ⟨⟨.of_kind (p := .token d) hd (by decide), fun _ => ⟨he, hchain⟩⟩,
              by simp [hd], by simp [isOperand_of_head he]⟩
          rw [List.append_assoc, sizes_append]
          have hvalue := h.walked hbehind (Nat.le_succ_of_le (Nat.le_succ_of_le hafter)) hdot
          exact hvalue.mono (by simp only [Piece.sizes, Piece.size]; omega)
  | @call o c text text' f l ps inner start a b h hf hl ho hcatch hstart =>
      have hgroup : Reports scope (n + 2 * Piece.sizes [.group o c inner]) after (.group o c inner :: rest)
          (walkAll scope form false false l ++ es) := .enclosed hafter (by simp [ho]) hl.walked hes
      rw [List.append_assoc, List.singleton_append]
      cases hchain : f.chain? with
      | none =>
          have hbehind : Behind f (.group o c inner :: rest) :=
            ⟨⟨.of_kind (p := .group o c inner) ho (by decide), fun _ => ⟨hf, hchain⟩⟩,
              by simp [ho], by simp [isOperand_of_head hf]⟩
          have hmarker : Tree.markerCall? scope form (.mk .call text start c.stop [f, .mk .arguments text' a b l]) =
              none := by simp [Tree.markerCall?, hchain]
          rw [walk_call hmarker, List.append_assoc, sizes_append]
          exact (h.walked hbehind (Nat.le_succ_of_le hafter) hgroup).mono (by omega)
      | some names =>
          have hcall : Value (.mk .call text start c.stop [f, .mk .arguments text' a b l]) (ps ++ [.group o c inner]) :=
            .call h hf hl ho hcatch hstart
          exact hcall.walked_callee h hchain hl ho hstart hrest.continues hafter hgroup hes
  | @paren o c text e inner a b h ho hcatch =>
      have hwalk : walk scope form false false (.mk .paren text a b [e]) = walk scope form false false e :=
        walkAll_singleton false false e
      have hinner := Reports.upTo (h.walked Stops.nil.behind (Nat.le_refl 0))
      rw [List.append_nil] at hinner
      rw [hwalk]
      exact .enclosed hafter (by simp [ho]) hinner hes
  | array hl ho => exact .enclosed hafter (by simp [ho]) hl.walked hes
  | object hl ho hobject => exact .object hafter ho hobject hl.walked hes
  | @spread t text e ps a b ht h =>
      have hwalk : walk scope form false false (.mk .spread text a b [e]) = walk scope form false false e :=
        walkAll_singleton false false e
      have hvalue := h.walked (hrest.stops rfl).behind hafter hes
      have hreports := Reports.mark (t := t) (Nat.le_trans hafter (by simp)) ht (by decide) hvalue
      rw [hwalk]
      exact hreports.mono (by simp only [Piece.sizes, Piece.size]; omega)
  | @operation t text e f ps qs a b h he ht h' hf =>
      have hwalk : walk scope form false false (.mk .compound text a b [e, f]) =
          walk scope form false false e ++ walk scope form false false f := walkAll_pair false false e f
      have hkind : t.kind ≠ .dot ∧ t.kind ≠ .openParen ∧ t.kind ≠ .assign := by
        rcases isOperation_kind ht with ht | ht <;> simp [ht]
      have hright := h'.walked (hrest.right rfl rfl hf) hafter hes
      have hmark := Reports.operation ht (Nat.le_trans hafter (by simp)) hright
      have hbehind : Behind e (.token t :: (qs ++ rest)) :=
        ⟨.of_at (.of_operation ht) (by simp [hkind]) (by simp [hkind]),
          by simp [hkind], by simp [he]⟩
      rw [hwalk, List.append_assoc, List.append_assoc, sizes_append]
      have hvalue := h.walked hbehind (Nat.le_trans hafter (by simp; omega)) hmark
      exact hvalue.mono (by simp only [Piece.sizes, Piece.size]; omega)
  | @assign t e f ps qs a b h he ht h' =>
      have hstops := hrest.stops rfl
      obtain ⟨names, hchain⟩ := Option.isSome_iff_exists.1 he
      have hlength : after ≤ (qs ++ rest).length := Nat.le_trans hafter (by simp)
      rw [List.append_assoc, List.cons_append]
      cases hname : Script.assignedName? "=" e with
      | none =>
          have hwalk : walk scope form false false (.mk .assign "=" a b [e, f]) = walk scope form false false f := by
            have hvalue := h.walk_chain scope form hchain false false
            simp only [walk, hname, hvalue, List.nil_append, walkAll_singleton]
          have hmark := Reports.mark hlength ht (by decide) (h'.walked hstops.behind hafter hes)
          have hbehind : Behind e (.token t :: (qs ++ rest)) :=
            ⟨.of_at (.of_kind (p := .token t) ht (by decide)) (by simp [ht])
                (by simp [ht]), fun _ => ⟨he, hname⟩,
              by simp [isOperand_of_head (isHead_of_chain hchain)]⟩
          rw [hwalk, sizes_append]
          exact (h.walked_chain hchain hbehind (Nat.le_succ_of_le hlength) hmark).mono
            (by simp only [Piece.sizes, Piece.size]; omega)
      | some name =>
          have hwalk : walk scope form false false (.mk .assign "=" a b [e, f]) =
              .assignedExport name :: Script.entering name (walk scope form false false f) := by
            simp only [walk, hname, walkAll_singleton]
          obtain ⟨t', x, ht', hx, rfl, rfl⟩ := h.exists_links hchain
          have hvalue := Reports.upTo (h'.walked hstops.behind (Nat.le_refl _))
          have hparts := (gives_entering name hvalue).answer (e := .assignedExport name)
          have hword := Value.wordExpression_assigned scope ht' hx hchain hname ht h' hstops hafter
          have hreports := Reports.word (by simp; omega) ht'.kind hword (hparts.mono (Nat.le_add_left _ n))
            (hes.mono (Nat.le_add_right _ _))
          rw [hwalk, List.cons_append]
          exact hreports.mono (by simp only [Piece.sizes, Piece.size, sizes_append]; omega)
  | @arrow t text u e p ps a b hp ht h he =>
      have hwalk : walk scope form false false (.mk .arrow text a b [u, e]) = walk scope form false false e := by
        rw [← List.nil_append (walk scope form false false e), ← hp.walk_eq false false]
        exact walkAll_pair false false u e
      have hbody := h.walked (hrest.stops rfl).behind hafter hes
      have hreports := Reports.arrow hp ht (Nat.le_trans hafter (by simp)) hbody
      rw [hwalk]
      exact hreports.mono (by cases p <;> simp [Piece.sizes, Piece.size] <;> omega)
  | @arrowBlock t o c text text' u l p inner a b a' b' hp ht hl ho hobject =>
      have hwalk : walk scope form false false (.mk .arrow text a b [u, .mk .block text' a' b' l]) =
          walkAll scope form false false l := by
        rw [← List.nil_append (walkAll scope form false false l), ← hp.walk_eq false false]
        exact walkAll_pair false false u (.mk .block text' a' b' l)
      have hblock := Reports.block (c := c) hafter ho hobject (hl.walked false rest) hes
      have hreports := Reports.arrow hp ht (Nat.le_succ_of_le hafter) hblock
      rw [hwalk]
      exact hreports.mono (by cases p <;> simp [Piece.sizes, Piece.size] <;> omega)

theorem Values.walked {l : List Tree} {ps : List Piece} (h : Values l ps) :
    Reports scope (2 * Piece.sizes ps + 1) 0 ps (walkAll scope form false false l) := by
  cases h with
  | nil => exact .empty (Nat.le_refl 0)
  | last h =>
      have hvalue := Reports.upTo (h.walked Stops.nil.behind (Nat.le_refl 0))
      rw [List.append_nil] at hvalue
      rw [walkAll_singleton]
      exact hvalue
  | @cons c e l ps qs h hc hl =>
      have hcomma := Reports.mark (Nat.zero_le _) hc (by decide) (hl.walked)
      have hvalue := h.walked (Stops.comma (p := .token c) hc).behind (Nat.zero_le _) hcomma
      rw [sizes_append]
      exact hvalue.mono (by simp only [Piece.sizes, Piece.size]; omega)

theorem Field.walked {e : Tree} {ps : List Piece} (h : Field e ps) {rest : Place} (hrest : Stops rest) :
    Gives (Scan.Walk.step scope) (2 * Piece.sizes ps) (Scan.Walk.field ⟨ps ++ rest, rest.length⟩)
      (walk scope form false false e) := by
  cases h with
  | @shorthand t a b ht =>
      have hcontinues := hrest.continues
      have hcolon : at? .colon rest = false := hrest.at_eq_false (by decide)
      have hstep : Scan.Walk.field ⟨[.token t] ++ rest, rest.length⟩ =
          [Scan.Walk.expr ⟨.token t :: rest, rest.length⟩] := by
        simp [Scan.Walk.field, ht.kind, hcolon]
      rw [hstep]
      exact (Reports.name ht hcontinues.skip (hrest.at_eq_false (by decide)) (hrest.at_eq_false (by decide))
        (Nat.le_refl _) (.empty (Nat.le_refl _))).mono (by simp [Piece.sizes, Piece.size])
  | @pair t c text e ps a b a' b' ht hc h =>
      have hvalue := Reports.upTo (h.walked hrest.behind (Nat.le_refl _))
      have hwalk : walk scope form false false (.mk .pair text a b [.mk .propertyName t.text a' b' [], e]) =
          Script.entering t.text (walk scope form false false e) := by
        simp only [walk, walkAll_singleton, Tree.key?, Script.Tree.node, Tree.text]
        rfl
      have hstep : Scan.Walk.field ⟨.token t :: .token c :: ps ++ rest, rest.length⟩ =
          Scan.Walk.entering t.text [Scan.Walk.expr ⟨ps ++ rest, rest.length⟩] := by
        simp [Scan.Walk.field, Scan.Walk.keyedField, ht, hc]
      rw [hstep, hwalk]
      exact (gives_entering _ hvalue).mono (by simp only [Piece.sizes, Piece.size]; omega)
  | @quoted t c text e ps a b a' b' ht hc h =>
      have hvalue := Reports.upTo (h.walked hrest.behind (Nat.le_refl _))
      have hstep : Scan.Walk.field ⟨.token t :: .token c :: ps ++ rest, rest.length⟩ =
          Scan.Walk.keyedField ⟨.token t :: .token c :: ps ++ rest, rest.length⟩ t ⟨ps ++ rest, rest.length⟩ := by
        simp [Scan.Walk.field, ht, hc]
      rw [hstep]
      simp only [walk, walkAll_singleton, Tree.key?, Script.Tree.node, Tree.text, Scan.Walk.keyedField, ht]
      cases Literal.string? t.text with
      | none => exact hvalue.mono (by simp only [Piece.sizes, Piece.size]; omega)
      | some key => exact (gives_entering _ hvalue).mono (by simp only [Piece.sizes, Piece.size]; omega)
  | @spread t text e ps a b ht h =>
      have hvalue := Reports.upTo (h.walked hrest.behind (Nat.le_refl _))
      have hwalk : walk scope form false false (.mk .spread text a b [e]) = walk scope form false false e :=
        walkAll_singleton false false e
      have hstep : Scan.Walk.field ⟨.token t :: ps ++ rest, rest.length⟩ =
          [Scan.Walk.expr ⟨ps ++ rest, rest.length⟩] := by
        simp [Scan.Walk.field, ht]
      rw [hstep, hwalk]
      exact hvalue.mono (by simp only [Piece.sizes, Piece.size]; omega)

theorem Fields.walked {l : List Tree} {ps : List Piece} (h : Fields l ps) :
    Gives (Scan.Walk.step scope) (2 * Piece.sizes ps + 1) ((Range.whole ps).parts.flatMap Scan.Walk.field)
      (walkAll scope form false false l) := by
  cases h with
  | nil => exact .nil _ _
  | last h =>
      have hfield := h.walked .nil
      rw [parts_last h.no_comma h.ne_nil, walkAll_singleton, List.flatMap_singleton]
      rw [List.append_nil] at hfield
      exact hfield.mono (by omega)
  | @cons c e l ps qs h hc hl =>
      rw [parts_cons h.no_comma hc, List.flatMap_cons, walkAll, sizes_append]
      have hend : Stops (.token c :: qs) := .comma hc
      have hfield := h.walked hend
      exact (hfield.mono (by omega)).append (hl.walked.mono (by simp only [Piece.sizes, Piece.size]; omega))

theorem Statement.walked {e : Tree} {ps : List Piece} (h : Statement e ps) {rest : Place}
    (hrest : at? .openBrace rest = false) (top : Bool) (behind : Place) :
    ∃ parts, Scan.Walk.statement top behind (ps ++ rest) = (parts, rest) ∧
      Gives (Scan.Walk.step scope) (2 * Piece.sizes ps) parts (walk scope form top false e) := by
  cases h with
  | @binding k t s text text' u e p ps a b a' b' hk hu ht h hs =>
      have hend : Stops (.token s :: rest) := .semicolon hs
      have hvalue := Reports.upTo (h.walked hend.behind (Nat.le_refl _))
      rw [List.cons_append, List.cons_append, List.cons_append, List.append_assoc, List.singleton_append]
      refine ⟨_, (statement_binding hk hu).trans (variableStatement_eq hu ht h hs top false), ?_⟩
      rw [walk_binding]
      exact (gives_bound top _).append
        ((gives_under _ hvalue).mono (by simp only [Piece.sizes, Piece.size, sizes_append]; omega))
  | @function k t o c text' u l p inner a b a' b' hk ht htext hp hparen hl ho hobject =>
      have hwalk : walk scope form top false (.mk .function t.text a b [u, .mk .block text' a' b' l]) =
          Script.declares top false t.text ++ Script.entering t.text (walkAll scope form false false l) := by
        simp only [walk, walkAll_pair, hp.walk_eq, List.nil_append]
      have hbody := hl.walked false rest
      cases hp with
      | single ht' => exact absurd (ht'.kind.symm.trans hparen) (by decide)
      | @group o' c' text l' params a b hl' ho' hparams =>
          refine ⟨_, (statement_function hk).trans (function_eq ht ho' ho hrest top), ?_⟩
          have hinside : Gives (Scan.Walk.step scope) (2 * Piece.sizes params + 2 * Piece.sizes inner + 1)
              [Scan.Walk.expr (.whole params), Scan.Walk.block inner rest] (walkAll scope form false false l) :=
            ((Reports.parameters hparams).mono (by omega)).append (hbody.mono (by omega))
          rw [hwalk]
          exact (gives_bindingIf top _).append
            ((gives_entering _ hinside).mono (by simp only [Piece.sizes, Piece.size]; omega))
  | @expression s text e ps a b h hbrace hs =>
      have hend : Stops (.token s :: rest) := .semicolon hs
      have hvalue := Reports.upTo (h.walked hend.behind (Nat.le_refl _))
      rw [List.append_assoc, List.singleton_append]
      refine ⟨_, h.statement_eq hbrace hs top behind, ?_⟩
      have hwalk : walk scope form top false (.mk .statement text a b [e]) = walk scope form false false e :=
        walkAll_singleton false false e
      rw [hwalk]
      exact hvalue.mono (by simp only [Piece.sizes, Piece.size, sizes_append]; omega)
  | @result k s text e ps a b hk h hs =>
      have hend : Stops (.token s :: rest) := .semicolon hs
      have hvalue := Reports.upTo (h.walked hend.behind (Nat.le_refl _))
      rw [List.cons_append, List.append_assoc, List.singleton_append]
      refine ⟨_, (statement_result hk).trans (h.expressionStatement_eq hs), ?_⟩
      have hwalk : walk scope form top false (.mk .result text a b [e]) = walk scope form false false e :=
        walkAll_singleton false false e
      rw [hwalk]
      exact hvalue.mono (by simp only [Piece.sizes, Piece.size, sizes_append]; omega)

theorem Statements.walked {l : List Tree} {ps : List Piece} (h : Statements l ps) (top : Bool) (behind : Place) :
    Gives (Scan.Walk.step scope) (2 * Piece.sizes ps + 1) [.inr (.statements ps top behind)]
      (walkAll scope form top false l) := by
  cases h with
  | nil => exact (Gives.task (n := 0) (.nil _ _)).mono (by omega)
  | @cons e l ps qs h hl =>
      obtain ⟨parts, hstatement, hparts⟩ := h.walked hl.not_brace top behind
      have hsizes := sizes_pos h.ne_nil
      refine Gives.task ?_
      rw [Scan.Walk.step, statementsStep_eq h.ne_nil hstatement, sizes_append]
      exact (hparts.mono (by omega)).append ((hl.walked top behind).mono (by omega))

end

end

end Plain
end StaticGql
