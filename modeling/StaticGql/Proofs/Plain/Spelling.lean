import StaticGql.Proofs.Scan.Places
import StaticGql.Scan.Call
import StaticGql.Script.Cursor

/-!
Plain programs: those in which each token stands for a part of the tree, without types, markup, classes and
control. What a value is can then be told from the pieces that it stands as.
-/

namespace StaticGql
namespace Plain

open Script (Tree Node)
open Scan (Token TokenKind Piece Place)
open Scan.Place (at? at?_cons chain skipTypeArguments typeArguments? find)

/-! ### Tokens -/

/-- Words with a meaning of their own to one reading or another. -/
def keywords : List String := Script.Parse.reserved ++ Scan.Names.reserved ++ ["let", "as", "satisfies"]

/-- A word that can only be a name. -/
structure IsName (t : Token) : Prop where
  kind : t.kind = .word
  text : t.text ∉ keywords
  member : t.isMember = false
  new : t.follows "new" = false
  function : t.follows "function" = false

instance (t : Token) : Decidable (IsName t) :=
  decidable_of_iff (t.kind = .word ∧ t.text ∉ keywords ∧ t.isMember = false ∧ t.follows "new" = false ∧
    t.follows "function" = false)
    ⟨fun ⟨a, b, c, d, e⟩ => ⟨a, b, c, d, e⟩, fun ⟨a, b, c, d, e⟩ => ⟨a, b, c, d, e⟩⟩

def isWord (w : String) (t : Token) : Bool := t.kind = .word && t.text = w && !t.isMember

/-- Operators that cannot be taken for the brackets of types. -/
def isOperation (t : Token) : Bool := t.kind = .slash || (t.kind = .operator && !t.text.startsWith "<")

/-- A value that is a token of its own; a template without holes. -/
inductive IsLiteral (t : Token) : Node → String → Prop
  | quoted (h : t.kind = .str) : IsLiteral t .quoted t.text
  | number (h : t.kind = .number) : IsLiteral t .number t.text
  | template (h : t.kind = .template) : IsLiteral t .template ""
  | regex (h : t.kind = .regex) (htext : t.text ∉ ["true", "false", "null"]) : IsLiteral t .atom t.text
  | word (h : t.kind = .word) (htext : t.text ∈ ["true", "false", "null"]) (hmember : t.isMember = false) :
      IsLiteral t .atom t.text

/-! ### Parameters and targets -/

/-- A pattern that is made of names alone. -/
def isTarget (t : Tree) : Bool :=
  match t.node with
  | .bindingName => t.children.isEmpty
  | .pattern => t.children.all fun u => (u.node = .bindingName || u.node = .shorthandTarget) && u.children.isEmpty
  | _ => false

def isNameOrComma : Piece → Bool
  | .token t => IsName t || t.kind = .comma
  | .group _ _ _ => false

/-- The pieces that parameters without types and defaults stand as. -/
def isParameterPiece : Piece → Bool
  | .token t => IsName t || t.kind = .comma
  | .group o _ inner =>
    ((o.kind = .openBrace && o.opensObject) || o.kind = .openBracket) && inner.all isNameOrComma

/-- The parameters of a function, and the piece that they stand as. -/
inductive Parameters : Tree → Piece → Prop
  | group {o c : Token} {text : String} {l : List Tree} {inner : List Piece} {a b : Nat}
      (hl : l.all isTarget = true) (ho : o.kind = .openParen) (hinner : inner.all isParameterPiece = true) :
      Parameters (.mk .parameters text a b l) (.group o c inner)
  | single {t : Token} {text : String} {a b a' b' : Nat} (ht : IsName t) :
      Parameters (.mk .parameters text a b [.mk .bindingName t.text a' b' []]) (.token t)

/-- What a declarator names, and the piece that it stands as. -/
inductive Target : Tree → Piece → Prop
  | name {t : Token} {a b : Nat} (ht : t.kind = .word) (htext : t.text ∉ Script.Parse.reserved) :
      Target (.mk .bindingName t.text a b []) (.token t)
  | pattern {o c : Token} {text : String} {l : List Tree} {inner : List Piece} {a b : Nat}
      (hl : isTarget (.mk .pattern text a b l) = true) (ho : o.kind = .openBrace ∨ o.kind = .openBracket) :
      Target (.mk .pattern text a b l) (.group o c inner)

/-! ### Values and statements -/

/-- A value of which a member may be taken, or that may be called. -/
def isHead (t : Tree) : Bool := t.node ∈ [.identifier, .quoted, .member, .call, .paren, .array, .object]

/-- A value that may stand before an operator. -/
def isOperand (t : Tree) : Bool := isHead t || t.node ∈ [.number, .template, .atom, .unary, .compound]

mutual

/-- A value, and the pieces that it stands as. -/
inductive Value : Tree → List Piece → Prop
  | name {t : Token} {a b : Nat} (ht : IsName t) : Value (.mk .identifier t.text a b []) [.token t]
  | literal {t : Token} {node : Node} {text : String} {a b : Nat} (ht : IsLiteral t node text) :
      Value (.mk node text a b []) [.token t]
  | negative {s t : Token} {a b a' b' : Nat} (hs : s.kind = .operator) (htext : s.text = "-")
      (ht : t.kind = .number) : Value (.mk .unary "-" a b [.mk .number t.text a' b' []]) [.token s, .token t]
  | member {d w : Token} {e : Tree} {ps : List Piece} {a b : Nat} (h : Value e ps) (he : isHead e = true)
      (hd : d.kind = .dot) (hw : w.kind = .word) (hmember : w.isMember = true) :
      Value (.mk .member w.text a b [e]) (ps ++ [.token d, .token w])
  | call {o c : Token} {text text' : String} {f : Tree} {l : List Tree} {ps inner : List Piece} {start a b : Nat}
      (h : Value f ps) (hf : isHead f = true) (hl : Values l inner) (ho : o.kind = .openParen)
      (hcatch : o.follows "catch" = false) (hstart : ps.head?.map (·.head.start) = some start) :
      Value (.mk .call text start c.stop [f, .mk .arguments text' a b l]) (ps ++ [.group o c inner])
  | paren {o c : Token} {text : String} {e : Tree} {inner : List Piece} {a b : Nat} (h : Value e inner)
      (ho : o.kind = .openParen) (hcatch : o.follows "catch" = false) :
      Value (.mk .paren text a b [e]) [.group o c inner]
  | array {o c : Token} {text : String} {l : List Tree} {inner : List Piece} {a b : Nat} (hl : Values l inner)
      (ho : o.kind = .openBracket) : Value (.mk .array text a b l) [.group o c inner]
  | object {o c : Token} {text : String} {l : List Tree} {inner : List Piece} {a b : Nat} (hl : Fields l inner)
      (ho : o.kind = .openBrace) (hobject : o.opensObject = true) : Value (.mk .object text a b l) [.group o c inner]
  | spread {t : Token} {text : String} {e : Tree} {ps : List Piece} {a b : Nat} (ht : t.kind = .ellipsis)
      (h : Value e ps) : Value (.mk .spread text a b [e]) (.token t :: ps)
  | operation {t : Token} {text : String} {e f : Tree} {ps qs : List Piece} {a b : Nat} (h : Value e ps)
      (he : isOperand e = true) (ht : isOperation t = true) (h' : Value f qs) (hf : isOperand f = true) :
      Value (.mk .compound text a b [e, f]) (ps ++ .token t :: qs)
  | assign {t : Token} {e f : Tree} {ps qs : List Piece} {a b : Nat} (h : Value e ps) (he : e.chain?.isSome = true)
      (ht : t.kind = .assign) (h' : Value f qs) : Value (.mk .assign "=" a b [e, f]) (ps ++ .token t :: qs)
  | arrow {t : Token} {text : String} {u e : Tree} {p : Piece} {ps : List Piece} {a b : Nat} (hp : Parameters u p)
      (ht : t.kind = .arrow) (h : Value e ps) (he : e.node ≠ .object) :
      Value (.mk .arrow text a b [u, e]) (p :: .token t :: ps)
  | arrowBlock {t o c : Token} {text text' : String} {u : Tree} {l : List Tree} {p : Piece} {inner : List Piece}
      {a b a' b' : Nat} (hp : Parameters u p) (ht : t.kind = .arrow) (hl : Statements l inner)
      (ho : o.kind = .openBrace) (hobject : o.opensObject = false) :
      Value (.mk .arrow text a b [u, .mk .block text' a' b' l]) [p, .token t, .group o c inner]

/-- Values between commas. -/
inductive Values : List Tree → List Piece → Prop
  | nil : Values [] []
  | last {e : Tree} {ps : List Piece} (h : Value e ps) : Values [e] ps
  | cons {c : Token} {e : Tree} {l : List Tree} {ps qs : List Piece} (h : Value e ps) (hc : c.kind = .comma)
      (hl : Values l qs) : Values (e :: l) (ps ++ .token c :: qs)

inductive Field : Tree → List Piece → Prop
  | shorthand {t : Token} {a b : Nat} (ht : IsName t) : Field (.mk .shorthand t.text a b []) [.token t]
  | pair {t c : Token} {text : String} {e : Tree} {ps : List Piece} {a b a' b' : Nat} (ht : t.kind = .word)
      (hc : c.kind = .colon) (h : Value e ps) :
      Field (.mk .pair text a b [.mk .propertyName t.text a' b' [], e]) (.token t :: .token c :: ps)
  | quoted {t c : Token} {text : String} {e : Tree} {ps : List Piece} {a b a' b' : Nat} (ht : t.kind = .str)
      (hc : c.kind = .colon) (h : Value e ps) :
      Field (.mk .pair text a b [.mk .quoted t.text a' b' [], e]) (.token t :: .token c :: ps)
  | spread {t : Token} {text : String} {e : Tree} {ps : List Piece} {a b : Nat} (ht : t.kind = .ellipsis)
      (h : Value e ps) : Field (.mk .spread text a b [e]) (.token t :: ps)

/-- Fields between commas. -/
inductive Fields : List Tree → List Piece → Prop
  | nil : Fields [] []
  | last {e : Tree} {ps : List Piece} (h : Field e ps) : Fields [e] ps
  | cons {c : Token} {e : Tree} {l : List Tree} {ps qs : List Piece} (h : Field e ps) (hc : c.kind = .comma)
      (hl : Fields l qs) : Fields (e :: l) (ps ++ .token c :: qs)

inductive Statement : Tree → List Piece → Prop
  | binding {k t s : Token} {text text' : String} {u e : Tree} {p : Piece} {ps : List Piece} {a b a' b' : Nat}
      (hk : isWord "const" k = true ∨ isWord "let" k = true ∨ isWord "var" k = true) (hu : Target u p)
      (ht : t.kind = .assign) (h : Value e ps) (hs : s.kind = .semicolon) :
      Statement (.mk .variableList text a b [.mk .declarator text' a' b' [u, e]])
        (.token k :: p :: .token t :: (ps ++ [.token s]))
  | function {k t o c : Token} {text' : String} {u : Tree} {l : List Tree} {p : Piece} {inner : List Piece}
      {a b a' b' : Nat} (hk : isWord "function" k = true) (ht : t.kind = .word)
      (htext : t.text ∉ Script.Parse.reserved) (hp : Parameters u p) (hparen : p.head.kind = .openParen)
      (hl : Statements l inner) (ho : o.kind = .openBrace) (hobject : o.opensObject = false) :
      Statement (.mk .function t.text a b [u, .mk .block text' a' b' l]) [.token k, .token t, p, .group o c inner]
  | expression {s : Token} {text : String} {e : Tree} {ps : List Piece} {a b : Nat} (h : Value e ps)
      (hbrace : at? .openBrace ps = false) (hs : s.kind = .semicolon) :
      Statement (.mk .statement text a b [e]) (ps ++ [.token s])
  | result {k s : Token} {text : String} {e : Tree} {ps : List Piece} {a b : Nat} (hk : isWord "return" k = true)
      (h : Value e ps) (hs : s.kind = .semicolon) :
      Statement (.mk .result text a b [e]) (.token k :: (ps ++ [.token s]))

/-- Statements one behind the other. -/
inductive Statements : List Tree → List Piece → Prop
  | nil : Statements [] []
  | cons {e : Tree} {l : List Tree} {ps qs : List Piece} (h : Statement e ps) (hl : Statements l qs) :
      Statements (e :: l) (ps ++ qs)

end

variable {t u d w o c : Token} {e f : Tree} {l : List Tree} {p : Piece} {ps qs inner : List Piece}
  {place rest next : Place} {after : Nat} {names : List String} {v : String}

/-! ### The pieces of a value -/

/-- A piece that neither ends a value nor begins a statement. -/
structure Inside (p : Piece) : Prop where
  kind : p.head.kind ∉ [.semicolon, .comma, .colon]
  word : ∀ t, p = .token t → t.kind = .word → t.isMember = false → t.text ∉ Scan.blockWords

theorem Inside.of_kind {k : TokenKind} (hk : t.kind = k) (h : k ∉ [.semicolon, .comma, .colon, .word]) :
    Inside (.token t) := by
  subst hk
  simp only [List.mem_cons, List.not_mem_nil, or_false, not_or] at h
  refine ⟨by simp [Piece.head, h], fun u hu hword => ?_⟩
  cases hu
  exact absurd hword h.2.2.2

theorem Inside.of_word (hk : t.kind = .word) (h : t.isMember = false → t.text ∉ Scan.blockWords) :
    Inside (.token t) := by
  refine ⟨by simp [Piece.head, hk], fun u hu _ => ?_⟩
  cases hu
  exact h

theorem Inside.group {k : TokenKind} (ho : o.kind = k) (h : k.isOpen = true) : Inside (.group o c inner) := by
  refine ⟨fun hmem => ?_, nofun⟩
  rw [Piece.head, ho] at hmem
  cases k <;> simp [TokenKind.isOpen, TokenKind.closer?] at h hmem

theorem blockWords_subset : ∀ w ∈ Scan.blockWords, w ∈ keywords := by decide

theorem IsName.ne (h : IsName t) {w : String} (hw : w ∈ keywords) : t.text ≠ w := fun htext => h.text (htext ▸ hw)

theorem IsName.inside (h : IsName t) : Inside (.token t) :=
  .of_word h.kind fun _ hmem => h.text (blockWords_subset _ hmem)

theorem IsLiteral.inside {node : Node} {text : String} (h : IsLiteral t node text) : Inside (.token t) := by
  cases h with
  | quoted h => exact .of_kind h (by decide)
  | number h => exact .of_kind h (by decide)
  | template h => exact .of_kind h (by decide)
  | regex h htext => exact .of_kind h (by decide)
  | word h htext hmember =>
      refine .of_word h fun _ hmem => ?_
      revert htext
      generalize t.text = text at hmem
      revert hmem text
      decide

theorem Parameters.inside (h : Parameters e p) : Inside p := by
  cases h with
  | group hl ho hinner => exact .group ho rfl
  | single ht => exact ht.inside

theorem isOperation_kind (h : isOperation t = true) : t.kind = .slash ∨ t.kind = .operator := by
  simp only [isOperation, Bool.or_eq_true, Bool.and_eq_true, decide_eq_true_eq] at h
  exact h.imp_right And.left

theorem Value.inside {e : Tree} {ps : List Piece} (h : Value e ps) : ∀ p ∈ ps, Inside p := by
  cases h with
  | name ht => exact List.forall_mem_singleton.2 ht.inside
  | literal ht => exact List.forall_mem_singleton.2 ht.inside
  | negative hs htext ht =>
      simp [Inside.of_kind hs (by decide), Inside.of_kind ht (by decide)]
  | member h he hd hw hmember =>
      refine List.forall_mem_append.2 ⟨h.inside, ?_⟩
      simp [Inside.of_kind hd (by decide), Inside.of_word hw, hmember]
  | call h hf hl ho => exact List.forall_mem_append.2 ⟨h.inside, List.forall_mem_singleton.2 (.group ho rfl)⟩
  | paren h ho => exact List.forall_mem_singleton.2 (.group ho rfl)
  | array hl ho => exact List.forall_mem_singleton.2 (.group ho rfl)
  | object hl ho => exact List.forall_mem_singleton.2 (.group ho rfl)
  | spread ht h => exact List.forall_mem_cons.2 ⟨.of_kind ht (by decide), h.inside⟩
  | operation h he ht h' hf =>
      refine List.forall_mem_append.2 ⟨h.inside, List.forall_mem_cons.2 ⟨?_, h'.inside⟩⟩
      rcases isOperation_kind ht with ht | ht
      · exact .of_kind ht (by decide)
      · exact .of_kind ht (by decide)
  | assign h he ht h' =>
      exact List.forall_mem_append.2 ⟨h.inside, List.forall_mem_cons.2 ⟨.of_kind ht (by decide), h'.inside⟩⟩
  | arrow hp ht h =>
      exact List.forall_mem_cons.2 ⟨hp.inside, List.forall_mem_cons.2 ⟨.of_kind ht (by decide), h.inside⟩⟩
  | arrowBlock hp ht hl ho => simp [hp.inside, Inside.of_kind ht (by decide), Inside.group ho rfl]

/-! ### Words -/

/-- The piece is that word by itself. -/
def isWordPiece (v : String) : Piece → Bool
  | .token t => isWord v t
  | .group _ _ _ => false

theorem isWordPiece_of_ne (h : t.text ≠ v) : isWordPiece v (.token t) = false := by
  simp [isWordPiece, isWord, h]

theorem isWordPiece_of_kind {k : TokenKind} (h : t.kind = k) (hk : k ≠ .word) : isWordPiece v (.token t) = false := by
  simp [isWordPiece, isWord, h, hk]

theorem isWordPiece_of_word {w : String} (h : isWord w t = true) (hw : w ≠ v) : isWordPiece v (.token t) = false := by
  simp only [isWord, Bool.and_eq_true, decide_eq_true_eq] at h
  exact isWordPiece_of_ne (h.1.2 ▸ hw)

theorem Inside.isWordPiece (h : Inside p) (hv : v ∈ Scan.blockWords) : isWordPiece v p = false := by
  cases p with
  | group o c inner => rfl
  | token t =>
      by_contra hword
      simp only [Plain.isWordPiece, isWord, Bool.not_eq_false, Bool.and_eq_true, decide_eq_true_eq,
        Bool.not_eq_true'] at hword
      exact h.word t rfl hword.1.1 hword.2 (hword.1.2 ▸ hv)

theorem Target.isWordPiece (h : Target e p) (hv : v ∈ Script.Parse.reserved) : isWordPiece v p = false := by
  cases h with
  | name ht htext => exact isWordPiece_of_ne fun h => htext (h ▸ hv)
  | pattern => rfl

/-- In a statement, as far as it is no block, nothing is imported, and only a return statement returns. -/
theorem Statement.isWordPiece (h : Statement e ps) (hv : v ∈ ["import", "return"])
    (hresult : e.node = .result → v ≠ "return") : ∀ p ∈ ps, isWordPiece v p = false := by
  have hwords : ∀ v ∈ ["import", "return"], v ∈ Scan.blockWords ∧ v ∈ Script.Parse.reserved ∧
      v ∉ ["const", "let", "var", "function"] := by decide
  obtain ⟨hblock, hreserved, hother⟩ := hwords v hv
  have hvalue : ∀ {e : Tree} {ps : List Piece}, Value e ps → ∀ p ∈ ps, Plain.isWordPiece v p = false :=
    fun h p hp => (h.inside p hp).isWordPiece hblock
  simp only [List.mem_cons, List.not_mem_nil, or_false, not_or] at hother
  cases h with
  | @binding k _ _ _ _ _ _ _ _ _ _ _ _ hk hu ht h hs =>
      have hword : Plain.isWordPiece v (.token k) = false := by
        rcases hk with hk | hk | hk
        · exact isWordPiece_of_word hk (Ne.symm hother.1)
        · exact isWordPiece_of_word hk (Ne.symm hother.2.1)
        · exact isWordPiece_of_word hk (Ne.symm hother.2.2.1)
      simp only [List.forall_mem_cons, List.forall_mem_append]
      exact ⟨hword, hu.isWordPiece hreserved, isWordPiece_of_kind ht (by decide), hvalue h,
        isWordPiece_of_kind hs (by decide), by simp⟩
  | function hk ht htext hp hparen hl ho hobject =>
      simp only [List.forall_mem_cons]
      exact ⟨isWordPiece_of_word hk (Ne.symm hother.2.2.2), isWordPiece_of_ne fun h => htext (h ▸ hreserved),
        hp.inside.isWordPiece hblock, rfl, by simp⟩
  | expression h hbrace hs =>
      simp only [List.forall_mem_append, List.forall_mem_singleton]
      exact ⟨hvalue h, isWordPiece_of_kind hs (by decide)⟩
  | result hk h hs =>
      simp only [List.forall_mem_cons, List.forall_mem_append]
      exact ⟨isWordPiece_of_word hk (Ne.symm (hresult rfl)), hvalue h, isWordPiece_of_kind hs (by decide), by simp⟩

/-! ### How a value begins -/

theorem skipTypeArguments_eq_self
    (h : ∀ p ∈ place.head?, p.head.kind = .operator → p.head.text.startsWith "<" = false) :
    skipTypeArguments place = place := by
  cases place with
  | nil => rfl
  | cons p rest =>
      have hnone : typeArguments? (p :: rest) = none := by
        rw [typeArguments?, if_neg]
        simp only [at?_cons, Scan.Place.text, decide_eq_true_eq, Bool.and_eq_true, not_and, Bool.not_eq_true]
        exact h p rfl
      rw [skipTypeArguments, hnone, Option.getD_none]

/-- What may stand behind a value, where the value or more of the same begins with a name or a parenthesis. -/
def Continues (place : Place) : Prop :=
  ∀ p ∈ place.head?, p.head.kind ∈ [.comma, .semicolon, .dot, .openParen, .assign, .slash] ∨
    (p.head.kind = .operator ∧ p.head.text.startsWith "<" = false)

theorem Continues.nil : Continues [] := nofun

theorem Continues.skip (h : Continues place) : skipTypeArguments place = place := by
  refine skipTypeArguments_eq_self fun p hp hkind => ?_
  rcases h p hp with h | h
  · rw [hkind] at h
    exact absurd h (by decide)
  · exact h.2

theorem Continues.at_eq_false {k : TokenKind} (h : Continues place)
    (hk : k ∉ [.comma, .semicolon, .dot, .openParen, .assign, .slash, .operator]) : at? k place = false := by
  cases place with
  | nil => rfl
  | cons p rest =>
      rw [at?_cons, decide_eq_false_iff_not]
      rintro rfl
      simp only [List.mem_cons, List.not_mem_nil, or_false, not_or] at hk
      rcases h p rfl with h | h
      · simp only [List.mem_cons, List.not_mem_nil, or_false] at h
        simp [hk] at h
      · exact hk.2.2.2.2.2.2 h.1

theorem Continues.of_kind {k : TokenKind} (hp : p.head.kind = k)
    (hk : k ∈ [.comma, .semicolon, .dot, .openParen, .assign, .slash]) : Continues (p :: rest) := by
  rintro _ ⟨⟩
  exact .inl (hp ▸ hk)

theorem Continues.of_operation (ht : isOperation t = true) : Continues (.token t :: rest) := by
  rintro _ ⟨⟩
  simp only [isOperation, Bool.or_eq_true, Bool.and_eq_true, decide_eq_true_eq, Bool.not_eq_true'] at ht
  rcases ht with ht | ht
  · exact .inl (by simp [Piece.head, ht])
  · exact .inr ht

/-- The first piece of a value. -/
structure Opens (p : Piece) : Prop where
  word : ∀ t, p = .token t → t.kind = .word → IsName t ∨ t.text ∈ ["true", "false", "null"]
  types : ∀ place, skipTypeArguments (p :: place) = p :: place

theorem Opens.of_kind {k : TokenKind} (hp : p.head.kind = k) (h : k ∉ [.word, .operator]) : Opens p := by
  subst hp
  simp only [List.mem_cons, List.not_mem_nil, or_false, not_or] at h
  refine ⟨?_, fun place => skipTypeArguments_eq_self ?_⟩
  · rintro t rfl hword
    exact absurd hword h.1
  · rintro _ ⟨⟩ hop
    exact absurd hop h.2

theorem Opens.of_word (hk : t.kind = .word) (h : IsName t ∨ t.text ∈ ["true", "false", "null"]) : Opens (.token t) := by
  refine ⟨fun u hu _ => ?_, fun place => skipTypeArguments_eq_self ?_⟩
  · cases hu
    exact h
  · rintro _ ⟨⟩ hop
    exact absurd (hk.symm.trans hop) (by decide)

theorem IsLiteral.opens {node : Node} {text : String} (h : IsLiteral t node text) : Opens (.token t) := by
  cases h with
  | quoted h => exact .of_kind (p := .token t) h (by decide)
  | number h => exact .of_kind (p := .token t) h (by decide)
  | template h => exact .of_kind (p := .token t) h (by decide)
  | regex h htext => exact .of_kind (p := .token t) h (by decide)
  | word h htext hmember => exact .of_word h (.inr htext)

theorem Parameters.opens (h : Parameters e p) : Opens p := by
  cases h with
  | group hl ho hinner => exact .of_kind (k := .openParen) ho (by decide)
  | single ht => exact .of_word ht.kind (.inl ht)

theorem node_of_chain (h : e.chain? = some names) : e.node = .identifier ∨ e.node = .member := by
  obtain ⟨node, text, start, stop, l⟩ := e
  cases node with
  | identifier => exact .inl rfl
  | member => exact .inr rfl
  | _ => cases h

theorem startsWith_minus : ("-" : String).startsWith "<" = false := by decide +kernel

theorem Value.exists_opens {e : Tree} {ps : List Piece} (h : Value e ps) : ∃ p qs, ps = p :: qs ∧ Opens p ∧
    (e.node ≠ .arrow → p.head.kind = .word ∨ p.head.kind = .openParen →
      ∀ rest, Continues rest → Continues (qs ++ rest)) := by
  cases h with
  | name ht => exact ⟨_, _, rfl, .of_word ht.kind (.inl ht), fun _ _ _ h => h⟩
  | literal ht => exact ⟨_, _, rfl, ht.opens, fun _ _ _ h => h⟩
  | negative hs htext ht =>
      refine ⟨_, _, rfl, ⟨?_, fun place => skipTypeArguments_eq_self ?_⟩, fun _ hfirst => ?_⟩
      · rintro u ⟨⟩ hword
        exact absurd (hs.symm.trans hword) (by decide)
      · rintro _ ⟨⟩ _
        rw [Piece.head, htext]
        exact startsWith_minus
      · rw [Piece.head, hs] at hfirst
        exact absurd hfirst (by decide)
  | member h he hd =>
      obtain ⟨p, qs, rfl, hp, hqs⟩ := h.exists_opens
      refine ⟨p, _, List.cons_append, hp, fun _ hfirst rest _ => ?_⟩
      rw [List.append_assoc]
      refine hqs ?_ hfirst _ (.of_kind (p := .token _) hd (by decide))
      rintro hnode
      simp [isHead, hnode] at he
  | call h hf hl ho =>
      obtain ⟨p, qs, rfl, hp, hqs⟩ := h.exists_opens
      refine ⟨p, _, List.cons_append, hp, fun _ hfirst rest _ => ?_⟩
      rw [List.append_assoc]
      refine hqs ?_ hfirst _ (.of_kind (p := .group _ _ _) ho (by decide))
      rintro hnode
      simp [isHead, hnode] at hf
  | paren h ho => exact ⟨_, _, rfl, .of_kind (p := .group _ _ _) ho (by decide), fun _ _ _ h => h⟩
  | array hl ho => exact ⟨_, _, rfl, .of_kind (p := .group _ _ _) ho (by decide), fun _ _ _ h => h⟩
  | object hl ho => exact ⟨_, _, rfl, .of_kind (p := .group _ _ _) ho (by decide), fun _ _ _ h => h⟩
  | spread ht h =>
      refine ⟨_, _, rfl, .of_kind (p := .token _) ht (by decide), fun _ hfirst => ?_⟩
      rw [Piece.head, ht] at hfirst
      exact absurd hfirst (by decide)
  | operation h he ht =>
      obtain ⟨p, qs, rfl, hp, hqs⟩ := h.exists_opens
      refine ⟨p, _, List.cons_append, hp, fun _ hfirst rest _ => ?_⟩
      rw [List.append_assoc]
      refine hqs ?_ hfirst _ (.of_operation ht)
      rintro hnode
      simp [isOperand, isHead, hnode] at he
  | assign h he ht =>
      obtain ⟨p, qs, rfl, hp, hqs⟩ := h.exists_opens
      refine ⟨p, _, List.cons_append, hp, fun _ hfirst rest _ => ?_⟩
      rw [List.append_assoc]
      refine hqs ?_ hfirst _ (.of_kind (p := .token _) ht (by decide))
      rintro hnode
      obtain ⟨names, hnames⟩ := Option.isSome_iff_exists.1 he
      rcases node_of_chain hnames with h | h
      · rw [h] at hnode
        cases hnode
      · rw [h] at hnode
        cases hnode
  | arrow hp => exact ⟨_, _, rfl, hp.opens, fun hnode => absurd rfl hnode⟩
  | arrowBlock hp => exact ⟨_, _, rfl, hp.opens, fun hnode => absurd rfl hnode⟩

/-! ### How a value ends -/

theorem find_append {cond : Place → Bool} (h : ∀ p ∈ ps, ∀ place, cond (p :: place) = false)
    (hafter : after ≤ rest.length) (hrest : rest = [] ∨ cond rest = true ∨ rest.length = after) :
    find after cond (ps ++ rest) = rest := by
  induction ps with
  | nil =>
      cases rest with
      | nil => rfl
      | cons q rest =>
          rw [List.nil_append, find]
          rcases hrest with h | h | h
          · cases h
          · rw [if_pos h, ite_self]
          · rw [if_pos (by simp at h; omega)]
  | cons p ps ih =>
      obtain ⟨hp, hps⟩ := List.forall_mem_cons.1 h
      rw [List.cons_append, find, if_neg (by simp; omega), hp, ih hps]
      rfl

theorem Inside.at_eq_false {k : TokenKind} (h : Inside p) (hk : k ∈ [.semicolon, .comma, .colon]) :
    at? k (p :: place) = false := by
  rw [at?_cons, decide_eq_false_iff_not]
  rintro rfl
  exact h.kind hk

theorem Inside.startsStatement (h : Inside p) : Scan.startsStatement (p :: place) = false := by
  cases p with
  | group o c inner => rfl
  | token t =>
      by_cases hk : t.kind = .word
      · have hword := h.word t rfl hk
        simp only [Scan.startsStatement, Scan.Place.word?, hk, if_true, Scan.Place.isMember, Piece.head]
        cases hmember : t.isMember with
        | true => simp
        | false => simp [hword hmember]
      · simp [Scan.startsStatement, Scan.Place.word?, hk]

/-- A value goes up to a semicolon, to a comma where one counts, or to the end of the stretch. -/
theorem Value.statementEnd_eq (h : Value e ps) {comma : Bool} (hafter : after ≤ rest.length)
    (hrest : rest = [] ∨ at? .semicolon rest = true ∨ (comma = true ∧ at? .comma rest = true) ∨ rest.length = after) :
    Scan.statementEnd after comma (ps ++ rest) = rest := by
  obtain ⟨p, qs, rfl, -⟩ := h.exists_opens
  obtain ⟨hp, hqs⟩ := List.forall_mem_cons.1 h.inside
  have hkind := hp.kind
  simp only [List.mem_cons, List.not_mem_nil, or_false, not_or] at hkind
  rw [List.cons_append, Scan.statementEnd, if_neg (by simp; omega), if_neg (by simp [hkind])]
  refine find_append (fun q hq place => ?_) hafter ?_
  · simp [(hqs q hq).at_eq_false, (hqs q hq).startsStatement]
  · rcases hrest with h | h | ⟨hcomma, h⟩ | h
    · exact .inl h
    · simp [h]
    · simp [hcomma, h]
    · exact .inr (.inr h)

theorem Value.statementEnd_semicolon (h : Value e ps) (hc : c.kind = .semicolon) (rest : Place) :
    Scan.statementEnd 0 false (ps ++ .token c :: rest) = .token c :: rest :=
  h.statementEnd_eq (Nat.zero_le _) (.inr (.inl (by simp [hc])))

/-- What may stand behind a value: more of it only if the value can be gone on with and is no chain of names. -/
structure Follows (e : Tree) (rest : Place) : Prop where
  continues : Continues rest
  more : at? .dot rest = true ∨ at? .openParen rest = true → isHead e = true ∧ e.chain? = none

theorem Follows.of_at (h : Continues rest) (hdot : at? .dot rest = false) (hparen : at? .openParen rest = false) :
    Follows e rest :=
  ⟨h, by simp [hdot, hparen]⟩

/-- Where a part of a list or a statement ends. -/
inductive Stops : Place → Prop
  | nil : Stops []
  | comma {p : Piece} {rest : Place} (hp : p.head.kind = .comma) : Stops (p :: rest)
  | semicolon {p : Piece} {rest : Place} (hp : p.head.kind = .semicolon) : Stops (p :: rest)

theorem Stops.continues (h : Stops rest) : Continues rest := by
  cases h with
  | nil => exact .nil
  | comma hp => exact .of_kind hp (by decide)
  | semicolon hp => exact .of_kind hp (by decide)

theorem Stops.at_eq_false {k : TokenKind} (h : Stops rest) (hk : k ∉ [.comma, .semicolon]) : at? k rest = false := by
  simp only [List.mem_cons, List.not_mem_nil, or_false, not_or] at hk
  cases h with
  | nil => rfl
  | comma hp => simpa [at?_cons, hp] using Ne.symm hk.1
  | semicolon hp => simpa [at?_cons, hp] using Ne.symm hk.2

theorem Stops.follows (h : Stops rest) : Follows e rest :=
  .of_at h.continues (h.at_eq_false (by decide)) (h.at_eq_false (by decide))

theorem Value.statementEnd_stops (h : Value e ps) (hrest : Stops rest) (hafter : after ≤ rest.length) :
    Scan.statementEnd after true (ps ++ rest) = rest := by
  refine h.statementEnd_eq hafter ?_
  cases hrest with
  | nil => exact .inl rfl
  | comma hp => exact .inr (.inr (.inl ⟨rfl, by simp [at?_cons, hp]⟩))
  | semicolon hp => exact .inr (.inl (by simp [at?_cons, hp]))

/-! ### Chains of names -/

/-- A dot and the name of a member. -/
structure IsLink (x : Token × Token) : Prop where
  dot : x.1.kind = .dot
  word : x.2.kind = .word
  member : x.2.isMember = true

def links (l : List (Token × Token)) : List Piece := l.flatMap fun x => [.token x.1, .token x.2]

theorem chain_links {l : List (Token × Token)} (hl : ∀ x ∈ l, IsLink x) (hrest : at? .dot rest = false) :
    chain (links l ++ rest) = (l.map (·.2.text), rest) := by
  induction l with
  | nil =>
      rw [links, List.flatMap_nil, List.nil_append]
      rcases rest with _ | ⟨d | _, _ | ⟨w | _, rest⟩⟩
      · rfl
      · rfl
      · rw [chain, if_neg]
        · rfl
        · rintro ⟨hd, -⟩
          simp [hd] at hrest
      · rfl
      · rfl
      · rfl
      · rfl
  | cons x l ih =>
      obtain ⟨hx, hl⟩ := List.forall_mem_cons.1 hl
      have hlinks : links (x :: l) ++ rest = .token x.1 :: .token x.2 :: (links l ++ rest) := rfl
      rw [hlinks, chain, if_pos ⟨hx.dot, hx.word⟩, ih hl]
      rfl

theorem Value.ne_nil (h : Value e ps) : ps ≠ [] := by
  obtain ⟨p, qs, rfl, -⟩ := h.exists_opens
  exact List.cons_ne_nil _ _

/-- A chain of names is a name with links behind it. -/
theorem Value.exists_links {e : Tree} {ps : List Piece} {names : List String} (h : Value e ps)
    (hchain : e.chain? = some names) : ∃ t l, IsName t ∧ (∀ x ∈ l, IsLink x) ∧ ps = .token t :: links l ∧
      names = t.text :: l.map (·.2.text) := by
  cases h with
  | @name t _ _ ht =>
      cases hchain
      exact ⟨t, [], ht, by simp, rfl, rfl⟩
  | literal ht => cases ht <;> cases hchain
  | @member d w e ps _ _ h he hd hw hmember =>
      have hmap : e.chain?.map (· ++ [w.text]) = some names := hchain
      obtain ⟨names', hnames, rfl⟩ := Option.map_eq_some_iff.1 hmap
      obtain ⟨t, l, ht, hl, rfl, rfl⟩ := h.exists_links hnames
      refine ⟨t, l ++ [(d, w)], ht, ?_, ?_, ?_⟩
      · exact List.forall_mem_append.2 ⟨hl, List.forall_mem_singleton.2 ⟨hd, hw, hmember⟩⟩
      · simp [links]
      · simp
  | _ => cases hchain

end Plain
end StaticGql
