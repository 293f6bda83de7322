import StaticGql.Proofs.Plain.Modules
import StaticGql.Proofs.Script.Conformance

/-!
Where the frontends agree. Those that parse agree on every program that reads alike in both orders. On plain modules
the tokens tell as much as the tree, so there the scanner comes to the same analysis. Whether pieces spell a tree is
found out by computing how: each construct is looked for where it may stand, and what is found is a derivation.
-/

namespace StaticGql
namespace Plain

open Script (Tree Node Form arrangedAll)
open Scan (Token TokenKind Piece)

variable {e u : Tree} {l : List Tree} {p : Piece} {ps inner : List Piece}

/-! ### Plain trees in the abstract order -/

theorem arrangedAll_leaves (h : ∀ e ∈ l, e.arranged = e) : arrangedAll l = l := by
  induction l with
  | nil => rfl
  | cons e l ih =>
      obtain ⟨he, hl⟩ := List.forall_mem_cons.1 h
      rw [arrangedAll, he, ih hl]

theorem arranged_target (h : isTarget e = true) : e.arranged = e := by
  obtain ⟨node, text, start, stop, l⟩ := e
  rw [isTarget] at h
  split at h
  · rename_i hnode
    obtain rfl : node = .bindingName := hnode
    obtain rfl : l = [] := by simpa [Tree.children] using h
    rfl
  · rename_i hnode
    obtain rfl : node = .pattern := hnode
    have hleaves : ∀ u ∈ l, u.arranged = u := by
      intro u hu
      obtain ⟨node, text, start, stop, children⟩ := u
      have hleaf := List.all_eq_true.1 h _ hu
      simp only [Script.Tree.node, Tree.children, Bool.and_eq_true, Bool.or_eq_true, List.isEmpty_iff] at hleaf
      obtain ⟨hnode, rfl⟩ := hleaf
      rcases hnode with hnode | hnode
      · obtain rfl := of_decide_eq_true hnode
        rfl
      · obtain rfl := of_decide_eq_true hnode
        rfl
    rw [Tree.arranged, arrangedAll_leaves hleaves]
    rfl
  · cases h

theorem Parameters.arranged (h : Parameters u p) : u.arranged = u := by
  cases h with
  | group hl =>
      rw [Tree.arranged, arrangedAll_leaves fun e he => arranged_target (List.all_eq_true.1 hl e he)]
      rfl
  | single => rfl

theorem Target.arranged (h : Target u p) : u.arranged = u := by
  cases h with
  | name => rfl
  | pattern hl => exact arranged_target hl

mutual

theorem Value.arranged {e : Tree} {ps : List Piece} (h : Value e ps) : e.arranged = e := by
  cases h with
  | name => rfl
  | literal ht => cases ht <;> rfl
  | negative => rfl
  | member h | paren h | spread ht h =>
      simp only [Tree.arranged, arrangedAll, h.arranged]
      rfl
  | call h hf hl =>
      simp only [Tree.arranged, arrangedAll, h.arranged, hl.arranged]
      rfl
  | array hl | object hl =>
      simp only [Tree.arranged, hl.arranged]
      rfl
  | operation h he ht h' | assign h he ht h' =>
      simp only [Tree.arranged, arrangedAll, h.arranged, h'.arranged]
      rfl
  | arrow hp ht h =>
      simp only [Tree.arranged, arrangedAll, hp.arranged, h.arranged]
      rfl
  | arrowBlock hp ht hl =>
      simp only [Tree.arranged, arrangedAll, hp.arranged, hl.arranged]
      rfl

theorem Values.arranged {l : List Tree} {ps : List Piece} (h : Values l ps) : arrangedAll l = l := by
  cases h with
  | nil => rfl
  | last h => rw [arrangedAll, h.arranged, arrangedAll]
  | cons h hc hl => rw [arrangedAll, h.arranged, hl.arranged]

theorem Field.arranged {e : Tree} {ps : List Piece} (h : Field e ps) : e.arranged = e := by
  cases h with
  | shorthand => rfl
  | pair ht hc h | quoted ht hc h | spread ht h =>
      simp only [Tree.arranged, arrangedAll, h.arranged]
      rfl

theorem Fields.arranged {l : List Tree} {ps : List Piece} (h : Fields l ps) : arrangedAll l = l := by
  cases h with
  | nil => rfl
  | last h => rw [arrangedAll, h.arranged, arrangedAll]
  | cons h hc hl => rw [arrangedAll, h.arranged, hl.arranged]

theorem Statement.arranged {e : Tree} {ps : List Piece} (h : Statement e ps) : e.arranged = e := by
  cases h with
  | binding hk hu ht h =>
      simp only [Tree.arranged, arrangedAll, hu.arranged, h.arranged]
      rfl
  | function hk ht htext hp hparen hl =>
      simp only [Tree.arranged, arrangedAll, hp.arranged, hl.arranged]
      rfl
  | expression h | result hk h =>
      simp only [Tree.arranged, arrangedAll, h.arranged]
      rfl

theorem Statements.arranged {l : List Tree} {ps : List Piece} (h : Statements l ps) : arrangedAll l = l := by
  cases h with
  | nil => rfl
  | cons h hl => rw [arrangedAll, h.arranged, hl.arranged]

end

theorem Renamed.arranged {f : Tree} (h : Renamed e f ps) : e.arranged = e ∧ f.arranged = f := by
  cases h <;> exact ⟨rfl, rfl⟩

theorem Listed.arranged {part : Tree → List Piece → Prop} (h : Listed part l inner)
    (hpart : ∀ e ps, part e ps → e.arranged = e) : arrangedAll l = l := by
  induction h with
  | nil => rfl
  | last h => rw [arrangedAll, hpart _ _ h, arrangedAll]
  | cons h hc hl ih => rw [arrangedAll, hpart _ _ h, ih]

theorem ImportName.arranged (h : ImportName e ps) : e.arranged = e := by
  cases h with
  | mk h =>
      simp only [Tree.arranged, arrangedAll, h.arranged.1]
      rfl

theorem ExportName.arranged (h : ExportName e ps) : e.arranged = e := by
  cases h with
  | mk h =>
      simp only [Tree.arranged, arrangedAll, h.arranged]
      rfl

theorem ImportNames.arranged (h : ImportNames l ps) : arrangedAll l = l := by
  cases h with
  | all => rfl
  | names hl => exact hl.arranged fun e ps h => h.arranged

theorem ImportClause.arranged (h : ImportClause l ps) : arrangedAll l = l := by
  cases h with
  | names h => exact h.arranged
  | one => rfl
  | more ht htext hc h =>
      rw [arrangedAll, h.arranged]
      rfl

theorem From.arranged (h : From e ps) : e.arranged = e := by
  cases h
  rfl

theorem Item.arranged (h : Item e ps) : e.arranged = e := by
  cases h with
  | statement h => exact h.arranged
  | importEffect => rfl
  | importFrom hk hl h =>
      simp only [Tree.arranged, arrangedAll, h.arranged, hl.arranged]
      rfl
  | exportStatement hk h =>
      simp only [Tree.arranged, arrangedAll, h.arranged]
      rfl
  | exportDefault hk hw h =>
      simp only [Tree.arranged, arrangedAll, h.arranged]
      rfl
  | exportNames hk hl =>
      simp only [Tree.arranged, hl.arranged fun e ps h => h.arranged]
      rfl
  | exportFrom hk hl ho h =>
      simp only [Tree.arranged, arrangedAll, h.arranged, hl.arranged fun e ps h => h.arranged]
      rfl
  | exportAll hk ht htext h =>
      simp only [Tree.arranged, arrangedAll, h.arranged]
      rfl
  | exportAllAs hk ht htext hw hu h =>
      simp only [Tree.arranged, arrangedAll, h.arranged]
      rfl

theorem Items.arranged (h : Items l ps) : arrangedAll l = l := by
  induction h with
  | nil => rfl
  | cons h hl ih => rw [arrangedAll, h.arranged, ih]

/-! ### One analysis -/

/-- What a plain module reports to the scanner and in either form. -/
theorem Items.analyze (h : Items l ps) (form : Form) (marker : Marker) (file text : String) (start stop : Nat)
    (head : String) : Analysis.ofEvents marker file text (Scan.Clause.imports (ps.length + 1) ps) (Scan.Walk.events ps) =
      Analysis.ofEvents marker file text (l.filterMap Script.import?) fun scope =>
        Script.walk scope form true false (Tree.inForm (.mk .module head start stop l) form) := by
  have hform : Tree.inForm (.mk .module head start stop l) form = .mk .module head start stop l := by
    cases form with
    | abstract =>
        rw [Tree.inForm, Tree.arranged, h.arranged]
        rfl
    | concrete => rfl
  rw [h.imports_eq (Nat.le_succ _), hform]
  refine Analysis.ofEvents_rearranged ?_
  generalize marker.scope ((l.filterMap Script.import?).map fun i => (i.source, i.specifiers)) = scope
  obtain ⟨es, hes, hrearranged⟩ := h.walked scope form []
  have hevents : Scan.Walk.events ps scope = es := hes.unfold_eq (by omega)
  rw [hevents]
  exact hrearranged

/-- The tokens of the text spell the tree that it parses to. -/
def IsPlain (file text : String) : Prop := ∃ program pieces,
  Script.parse? (Frontend.holdsElements file) text = some program ∧ Scan.forest text = .ok pieces ∧
    program.node = .module ∧ Items program.children pieces

/-! ### Derivations of values and statements -/

/-- The condition, if it holds. -/
def check (c : Prop) [Decidable c] : Option (PLift c) := if h : c then some ⟨h⟩ else none

/-- The ways to cut a stretch in two. -/
def cuts : (ps : List Piece) → List { s : List Piece × List Piece // s.1 ++ s.2 = ps }
  | [] => [⟨([], []), rfl⟩]
  | p :: ps => ⟨([], p :: ps), rfl⟩ :: (cuts ps).map fun s => ⟨(p :: s.1.1, s.1.2), congrArg (p :: ·) s.2⟩

/-- A derivation for one of the ways to cut a stretch in two. -/
def cutAt {P : List Piece → Prop} (ps : List Piece)
    (f : (before after : List Piece) → Option (PLift (P (before ++ after)))) : Option (PLift (P ps)) :=
  (cuts ps).findSome? fun (s : { s : List Piece × List Piece // s.1 ++ s.2 = ps }) =>
    (f s.1.1 s.1.2).map fun h => ⟨s.2 ▸ h.down⟩

def IsLiteral.derive? (t : Token) : (node : Node) → (text : String) → Option (PLift (IsLiteral t node text))
  | .quoted, text => do
    let ⟨ht, htext⟩ ← check (t.kind = .str ∧ t.text = text)
    return ⟨htext ▸ .quoted ht⟩
  | .number, text => do
    let ⟨ht, htext⟩ ← check (t.kind = .number ∧ t.text = text)
    return ⟨htext ▸ .number ht⟩
  | .template, text => do
    let ⟨ht, htext⟩ ← check (t.kind = .template ∧ "" = text)
    return ⟨htext ▸ .template ht⟩
  | .atom, text =>
    if t.kind = .regex then do
      let ⟨ht, hword, htext⟩ ← check (t.kind = .regex ∧ t.text ∉ ["true", "false", "null"] ∧ t.text = text)
      return ⟨htext ▸ .regex ht hword⟩
    else do
      let ⟨ht, hword, hmember, htext⟩ ←
        check (t.kind = .word ∧ t.text ∈ ["true", "false", "null"] ∧ t.isMember = false ∧ t.text = text)
      return ⟨htext ▸ .word ht hword hmember⟩
  | _, _ => none

def Parameters.derive? : (u : Tree) → (p : Piece) → Option (PLift (Parameters u p))
  | .mk .parameters _ _ _ l, .group o _ inner => do
    let ⟨hl, ho, hinner⟩ ← check (l.all isTarget = true ∧ o.kind = .openParen ∧ inner.all isParameterPiece = true)
    return ⟨.group hl ho hinner⟩
  | .mk .parameters _ _ _ [.mk .bindingName text _ _ []], .token t => do
    let ⟨ht, htext⟩ ← check (IsName t ∧ t.text = text)
    return ⟨htext ▸ .single ht⟩
  | _, _ => none

def Target.derive? : (u : Tree) → (p : Piece) → Option (PLift (Target u p))
  | .mk .bindingName text _ _ [], .token t => do
    let ⟨ht, hword, htext⟩ ← check (t.kind = .word ∧ t.text ∉ Script.Parse.reserved ∧ t.text = text)
    return ⟨htext ▸ .name ht hword⟩
  | .mk .pattern text a b l, .group o _ _ => do
    let ⟨hl, ho⟩ ← check (isTarget (.mk .pattern text a b l) = true ∧ (o.kind = .openBrace ∨ o.kind = .openBracket))
    return ⟨.pattern hl ho⟩
  | _, _ => none

mutual

def Value.derive? : (e : Tree) → (ps : List Piece) → Option (PLift (Value e ps))
  | .mk .identifier text _ _ [], [.token t] => do
    let ⟨ht, htext⟩ ← check (IsName t ∧ t.text = text)
    return ⟨htext ▸ .name ht⟩
  | .mk .unary op _ _ [.mk .number text _ _ []], [.token s, .token t] => do
    let ⟨hs, hminus, ht, hop, htext⟩ ←
      check (s.kind = .operator ∧ s.text = "-" ∧ t.kind = .number ∧ "-" = op ∧ t.text = text)
    return ⟨hop ▸ htext ▸ .negative hs hminus ht⟩
  | .mk .member text _ _ [e], ps => cutAt ps fun
    | before, [.token d, .token w] => do
      let ⟨he, hd, hw, hmember, htext⟩ ←
        check (isHead e = true ∧ d.kind = .dot ∧ w.kind = .word ∧ w.isMember = true ∧ w.text = text)
      let ⟨h⟩ ← Value.derive? e before
      return ⟨htext ▸ .member h he hd hw hmember⟩
    | _, _ => none
  | .mk .call _ start stop [f, .mk .arguments _ _ _ l], ps => cutAt ps fun
    | before, [.group o c inner] => do
      let ⟨hf, ho, hcatch, hstart, hstop⟩ ← check (isHead f = true ∧ o.kind = .openParen ∧ o.follows "catch" = false ∧
        before.head?.map (·.head.start) = some start ∧ c.stop = stop)
      let ⟨h⟩ ← Value.derive? f before
      let ⟨hl⟩ ← Values.derive? l inner
      return ⟨hstop ▸ .call h hf hl ho hcatch hstart⟩
    | _, _ => none
  | .mk .paren _ _ _ [e], [.group o _ inner] => do
    let ⟨ho, hcatch⟩ ← check (o.kind = .openParen ∧ o.follows "catch" = false)
    let ⟨h⟩ ← Value.derive? e inner
    return ⟨.paren h ho hcatch⟩
  | .mk .array _ _ _ l, [.group o _ inner] => do
    let ⟨ho⟩ ← check (o.kind = .openBracket)
    let ⟨hl⟩ ← Values.derive? l inner
    return ⟨.array hl ho⟩
  | .mk .object _ _ _ l, [.group o _ inner] => do
    let ⟨ho, hobject⟩ ← check (o.kind = .openBrace ∧ o.opensObject = true)
    let ⟨hl⟩ ← Fields.derive? l inner
    return ⟨.object hl ho hobject⟩
  | .mk .spread _ _ _ [e], .token t :: ps => do
    let ⟨ht⟩ ← check (t.kind = .ellipsis)
    let ⟨h⟩ ← Value.derive? e ps
    return ⟨.spread ht h⟩
  | .mk .compound _ _ _ [e, f], ps => cutAt ps fun
    | before, .token t :: after => do
      let ⟨ht, he, hf⟩ ← check (isOperation t = true ∧ isOperand e = true ∧ isOperand f = true)
      let ⟨h⟩ ← Value.derive? e before
      let ⟨h'⟩ ← Value.derive? f after
      return ⟨.operation h he ht h' hf⟩
    | _, _ => none
  | .mk .assign op _ _ [e, f], ps => cutAt ps fun
    | before, .token t :: after => do
      let ⟨ht, he, hop⟩ ← check (t.kind = .assign ∧ e.chain?.isSome = true ∧ "=" = op)
      let ⟨h⟩ ← Value.derive? e before
      let ⟨h'⟩ ← Value.derive? f after
      return ⟨hop ▸ .assign h he ht h'⟩
    | _, _ => none
  | .mk .arrow _ _ _ [u, .mk .block _ _ _ l], [p, .token t, .group o _ inner] => do
    let ⟨ht, ho, hobject⟩ ← check (t.kind = .arrow ∧ o.kind = .openBrace ∧ o.opensObject = false)
    let ⟨hp⟩ ← Parameters.derive? u p
    let ⟨hl⟩ ← Statements.derive? l inner
    return ⟨.arrowBlock hp ht hl ho hobject⟩
  | .mk .arrow _ _ _ [u, e], p :: .token t :: ps => do
    let ⟨ht, he⟩ ← check (t.kind = .arrow ∧ e.node ≠ .object)
    let ⟨hp⟩ ← Parameters.derive? u p
    let ⟨h⟩ ← Value.derive? e ps
    return ⟨.arrow hp ht h he⟩
  | .mk node text _ _ [], [.token t] => do
    let ⟨ht⟩ ← IsLiteral.derive? t node text
    return ⟨.literal ht⟩
  | _, _ => none

def Values.derive? : (l : List Tree) → (ps : List Piece) → Option (PLift (Values l ps))
  | [], [] => some ⟨.nil⟩
  | e :: l, ps =>
    let last : Option (PLift (Values (e :: l) ps)) :=
      match l with
      | [] => (Value.derive? e ps).map fun h => ⟨.last h.down⟩
      | _ :: _ => none
    last <|> cutAt ps fun
      | before, .token c :: after => do
        let ⟨hc⟩ ← check (c.kind = .comma)
        let ⟨h⟩ ← Value.derive? e before
        let ⟨hl⟩ ← Values.derive? l after
        return ⟨.cons h hc hl⟩
      | _, _ => none
  | _, _ => none

def Field.derive? : (e : Tree) → (ps : List Piece) → Option (PLift (Field e ps))
  | .mk .shorthand text _ _ [], [.token t] => do
    let ⟨ht, htext⟩ ← check (IsName t ∧ t.text = text)
    return ⟨htext ▸ .shorthand ht⟩
  | .mk .pair _ _ _ [.mk .propertyName text _ _ [], e], .token t :: .token c :: ps => do
    let ⟨ht, hc, htext⟩ ← check (t.kind = .word ∧ c.kind = .colon ∧ t.text = text)
    let ⟨h⟩ ← Value.derive? e ps
    return ⟨htext ▸ .pair ht hc h⟩
  | .mk .pair _ _ _ [.mk .quoted text _ _ [], e], .token t :: .token c :: ps => do
    let ⟨ht, hc, htext⟩ ← check (t.kind = .str ∧ c.kind = .colon ∧ t.text = text)
    let ⟨h⟩ ← Value.derive? e ps
    return ⟨htext ▸ .quoted ht hc h⟩
  | .mk .spread _ _ _ [e], .token t :: ps => do
    let ⟨ht⟩ ← check (t.kind = .ellipsis)
    let ⟨h⟩ ← Value.derive? e ps
    return ⟨.spread ht h⟩
  | _, _ => none

def Fields.derive? : (l : List Tree) → (ps : List Piece) → Option (PLift (Fields l ps))
  | [], [] => some ⟨.nil⟩
  | e :: l, ps =>
    let last : Option (PLift (Fields (e :: l) ps)) :=
      match l with
      | [] => (Field.derive? e ps).map fun h => ⟨.last h.down⟩
      | _ :: _ => none
    last <|> cutAt ps fun
      | before, .token c :: after => do
        let ⟨hc⟩ ← check (c.kind = .comma)
        let ⟨h⟩ ← Field.derive? e before
        let ⟨hl⟩ ← Fields.derive? l after
        return ⟨.cons h hc hl⟩
      | _, _ => none
  | _, _ => none

def Statement.derive? : (e : Tree) → (ps : List Piece) → Option (PLift (Statement e ps))
  | .mk .variableList _ _ _ [.mk .declarator _ _ _ [u, e]], ps => cutAt ps fun
    | .token k :: p :: .token t :: before, [.token s] => do
      let ⟨hk, ht, hs⟩ ← check ((isWord "const" k = true ∨ isWord "let" k = true ∨ isWord "var" k = true) ∧
        t.kind = .assign ∧ s.kind = .semicolon)
      let ⟨hu⟩ ← Target.derive? u p
      let ⟨h⟩ ← Value.derive? e before
      return ⟨.binding hk hu ht h hs⟩
    | _, _ => none
  | .mk .function text _ _ [u, .mk .block _ _ _ l], [.token k, .token t, p, .group o _ inner] => do
    let ⟨hk, ht, hword, hparen, ho, hobject, htext⟩ ← check (isWord "function" k = true ∧ t.kind = .word ∧
      t.text ∉ Script.Parse.reserved ∧ p.head.kind = .openParen ∧ o.kind = .openBrace ∧ o.opensObject = false ∧
        t.text = text)
    let ⟨hp⟩ ← Parameters.derive? u p
    let ⟨hl⟩ ← Statements.derive? l inner
    return ⟨htext ▸ .function hk ht hword hp hparen hl ho hobject⟩
  | .mk .statement _ _ _ [e], ps => cutAt ps fun
    | before, [.token s] => do
      let ⟨hbrace, hs⟩ ← check (Scan.Place.at? .openBrace before = false ∧ s.kind = .semicolon)
      let ⟨h⟩ ← Value.derive? e before
      return ⟨.expression h hbrace hs⟩
    | _, _ => none
  | .mk .result _ _ _ [e], ps => cutAt ps fun
    | .token k :: before, [.token s] => do
      let ⟨hk, hs⟩ ← check (isWord "return" k = true ∧ s.kind = .semicolon)
      let ⟨h⟩ ← Value.derive? e before
      return ⟨.result hk h hs⟩
    | _, _ => none
  | _, _ => none

def Statements.derive? : (l : List Tree) → (ps : List Piece) → Option (PLift (Statements l ps))
  | [], [] => some ⟨.nil⟩
  | e :: l, ps => cutAt ps fun before after => do
    let ⟨h⟩ ← Statement.derive? e before
    let ⟨hl⟩ ← Statements.derive? l after
    return ⟨.cons h hl⟩
  | _, _ => none

end

/-! ### Derivations of modules -/

def Renamed.derive? : (e f : Tree) → (ps : List Piece) → Option (PLift (Renamed e f ps))
  | .mk .identifier text _ _ [], .mk .identifier text' _ _ [], [.token t] => do
    let ⟨ht, htype, htext, htext'⟩ ← check (t.kind = .word ∧ t.text ≠ "type" ∧ t.text = text ∧ t.text = text')
    return ⟨htext ▸ htext' ▸ .same ht htype⟩
  | .mk .identifier text _ _ [], .mk .identifier text' _ _ [], [.token t, .token w, .token u] => do
    let ⟨ht, htype, hw, hu, htext, htext'⟩ ← check (t.kind = .word ∧ t.text ≠ "type" ∧ isWord "as" w = true ∧
      u.kind = .word ∧ t.text = text ∧ u.text = text')
    return ⟨htext ▸ htext' ▸ .other ht htype hw hu⟩
  | _, _, _ => none

def ImportName.derive? : (e : Tree) → (ps : List Piece) → Option (PLift (ImportName e ps))
  | .mk .importName text _ _ [e], ps => do
    let ⟨h⟩ ← Renamed.derive? e (.mk .identifier text 0 0 []) ps
    return ⟨(ImportName.mk h :)⟩
  | _, _ => none

def ExportName.derive? : (e : Tree) → (ps : List Piece) → Option (PLift (ExportName e ps))
  | .mk .exportName _ _ _ [e, f], ps => (Renamed.derive? e f ps).map fun h => ⟨.mk h.down⟩
  | _, _ => none

def Listed.derive? {part : Tree → List Piece → Prop}
    (one : (e : Tree) → (ps : List Piece) → Option (PLift (part e ps))) :
    (l : List Tree) → (ps : List Piece) → Option (PLift (Listed part l ps))
  | [], [] => some ⟨.nil⟩
  | e :: l, ps =>
    let last : Option (PLift (Listed part (e :: l) ps)) :=
      match l with
      | [] => (one e ps).map fun h => ⟨.last h.down⟩
      | _ :: _ => none
    last <|> cutAt ps fun
      | before, .token c :: after => do
        let ⟨hc⟩ ← check (c.kind = .comma)
        let ⟨h⟩ ← one e before
        let ⟨hl⟩ ← Listed.derive? one l after
        return ⟨.cons h hc hl⟩
      | _, _ => none
  | _, _ => none

instance (t : Token) : Decidable (IsSource t) :=
  decidable_of_iff (t.kind = .str ∧ (Literal.string? t.text).isSome = true) ⟨fun ⟨a, b⟩ => ⟨a, b⟩, fun ⟨a, b⟩ => ⟨a, b⟩⟩

def ImportNames.derive? : (l : List Tree) → (ps : List Piece) → Option (PLift (ImportNames l ps))
  | [.mk .importAll text _ _ []], [.token s, .token w, .token t] => do
    let ⟨hs, hstar, hw, ht, htext⟩ ←
      check (s.kind = .operator ∧ s.text = "*" ∧ isWord "as" w = true ∧ t.kind = .word ∧ t.text = text)
    return ⟨htext ▸ .all hs hstar hw ht⟩
  | l, [.group o _ inner] => do
    let ⟨ho⟩ ← check (o.kind = .openBrace)
    let ⟨hl⟩ ← Listed.derive? ImportName.derive? l inner
    return ⟨.names hl ho⟩
  | _, _ => none

def ImportClause.derive? : (l : List Tree) → (ps : List Piece) → Option (PLift (ImportClause l ps))
  | [.mk .importDefault text _ _ []], [.token t] => do
    let ⟨ht, hword, htext⟩ ← check (t.kind = .word ∧ t.text ∉ ["type", "from"] ∧ t.text = text)
    return ⟨htext ▸ .one ht hword⟩
  | .mk .importDefault text _ _ [] :: l, .token t :: .token c :: ps => do
    let ⟨ht, hword, hc, htext⟩ ← check (t.kind = .word ∧ t.text ∉ ["type", "from"] ∧ c.kind = .comma ∧ t.text = text)
    let ⟨h⟩ ← ImportNames.derive? l ps
    return ⟨htext ▸ .more ht hword hc h⟩
  | l, ps => (ImportNames.derive? l ps).map fun h => ⟨.names h.down⟩

def From.derive? : (e : Tree) → (ps : List Piece) → Option (PLift (From e ps))
  | .mk .quoted text _ _ [], [.token w, .token t] => do
    let ⟨hw, ht, htext⟩ ← check (isWord "from" w = true ∧ IsSource t ∧ t.text = text)
    return ⟨htext ▸ .mk hw ht⟩
  | _, _ => none

def Item.derive? : (e : Tree) → (ps : List Piece) → Option (PLift (Item e ps))
  | .mk .importStatement _ start stop [.mk .quoted text _ _ []], [.token k, .token t, .token s] => do
    let ⟨hk, ht, hs, htext, hstart, hstop⟩ ← check (isWord "import" k = true ∧ IsSource t ∧ s.kind = .semicolon ∧
      t.text = text ∧ k.start = start ∧ s.stop = stop)
    return ⟨htext ▸ hstart ▸ hstop ▸ .importEffect hk ht hs⟩
  | .mk .importStatement text start stop (e :: l), ps => cutAt ps fun
    | .token k :: clause, [.token s] =>
      cutAt (P := fun qs => Item (.mk .importStatement text start stop (e :: l)) (.token k :: (qs ++ [.token s]))) clause
        fun before after => do
          let ⟨hk, hs, hstart, hstop⟩ ←
            check (isWord "import" k = true ∧ s.kind = .semicolon ∧ k.start = start ∧ s.stop = stop)
          let ⟨h⟩ ← From.derive? e after
          let ⟨hl⟩ ← ImportClause.derive? l before
          return ⟨hstart ▸ hstop ▸ .importFrom hk hl h hs⟩
    | _, _ => none
  | .mk .exportDeclaration _ _ _ [e], .token k :: ps => do
    let ⟨hk, he⟩ ← check (isWord "export" k = true ∧ (e.node = .variableList ∨ e.node = .function))
    let ⟨h⟩ ← Statement.derive? e ps
    return ⟨.exportStatement hk h he⟩
  | .mk .exportDefault _ _ _ [e], ps => cutAt ps fun
    | .token k :: .token w :: before, [.token s] => do
      let ⟨hk, hw, he, hs⟩ ← check (isWord "export" k = true ∧ isWord "default" w = true ∧ e.node ≠ .atom ∧
        s.kind = .semicolon)
      let ⟨h⟩ ← Value.derive? e before
      return ⟨.exportDefault hk hw h he hs⟩
    | _, _ => none
  | .mk .exportNames _ _ _ l, [.token k, .group o _ inner, .token s] => do
    let ⟨hk, ho, hs⟩ ← check (isWord "export" k = true ∧ o.kind = .openBrace ∧ s.kind = .semicolon)
    let ⟨hl⟩ ← Listed.derive? ExportName.derive? l inner
    return ⟨.exportNames hk hl ho hs⟩
  | .mk .exportNames _ _ _ (e :: l), ps => cutAt ps fun
    | .token k :: .group o _ inner :: source, [.token s] => do
      let ⟨hk, ho, hs⟩ ← check (isWord "export" k = true ∧ o.kind = .openBrace ∧ s.kind = .semicolon)
      let ⟨hl⟩ ← Listed.derive? ExportName.derive? l inner
      let ⟨h⟩ ← From.derive? e source
      return ⟨.exportFrom hk hl ho h hs⟩
    | _, _ => none
  | .mk .exportAll _ _ _ [e], ps => cutAt ps fun
    | .token k :: .token t :: source, [.token s] => do
      let ⟨hk, ht, hstar, hs⟩ ←
        check (isWord "export" k = true ∧ t.kind = .operator ∧ t.text = "*" ∧ s.kind = .semicolon)
      let ⟨h⟩ ← From.derive? e source
      return ⟨.exportAll hk ht hstar h hs⟩
    | _, _ => none
  | .mk .exportAllAs _ _ _ [e, .mk .identifier text _ _ []], ps => cutAt ps fun
    | .token k :: .token t :: .token w :: .token u :: source, [.token s] => do
      let ⟨hk, ht, hstar, hw, hu, hs, htext⟩ ← check (isWord "export" k = true ∧ t.kind = .operator ∧ t.text = "*" ∧
        isWord "as" w = true ∧ IsName u ∧ s.kind = .semicolon ∧ u.text = text)
      let ⟨h⟩ ← From.derive? e source
      return ⟨htext ▸ .exportAllAs hk ht hstar hw hu h hs⟩
    | _, _ => none
  | e, ps => (Statement.derive? e ps).map fun h => ⟨.statement h.down⟩

def Items.derive? : (l : List Tree) → (ps : List Piece) → Option (PLift (Items l ps))
  | [], [] => some ⟨.nil⟩
  | e :: l, ps => cutAt ps fun before after => do
    let ⟨h⟩ ← Item.derive? e before
    let ⟨hl⟩ ← Items.derive? l after
    return ⟨.cons h hl⟩
  | _, _ => none

/-- Whether a derivation is found that the text is a plain module. -/
def findsPlain (file text : String) : Bool :=
  match Script.parse? (Frontend.holdsElements file) text, Scan.forest text with
  | some (.mk .module _ _ _ l), .ok pieces => (Items.derive? l pieces).isSome
  | _, _ => false

theorem isPlain_of_finds {file text : String} (h : findsPlain file text = true) : IsPlain file text := by
  rw [findsPlain] at h
  split at h
  · rename_i head start stop l pieces hprogram hforest
    obtain ⟨⟨hitems⟩, -⟩ := Option.isSome_iff_exists.1 h
    exact ⟨_, pieces, hprogram, hforest, rfl, hitems⟩
  · cases h

end Plain

namespace Frontend

open Plain (IsPlain findsPlain isPlain_of_finds)

variable {file text : String}

/-- All frontends accept a plain module, and they give one analysis of it. -/
theorem plain_agree (h : IsPlain file text) (marker : Marker) :
    ∃ analysis, ∀ f : Frontend, f.analyze marker file text = .ok analysis := by
  obtain ⟨⟨node, head, start, stop, l⟩, pieces, hprogram, hforest, hnode, hitems⟩ := h
  obtain rfl : node = .module := hnode
  obtain ⟨analysis, hanalysis⟩ : ∃ analysis, analysis = Analysis.ofEvents marker file text
      (Scan.Clause.imports (pieces.length + 1) pieces) (Scan.Walk.events pieces) := ⟨_, rfl⟩
  have hread : ∀ form, Script.analyze? form (holdsElements file) marker file text = some analysis := by
    intro form
    rw [hanalysis, Script.analyze?, hprogram, Option.map_some,
      hitems.analyze form marker file text start stop head]
    rfl
  refine ⟨analysis, fun f => ?_⟩
  cases f with
  | scanner =>
      rw [analyze, Scan.analyze, hforest, hanalysis]
      rfl
  | abstractTree => simp only [analyze, hread]
  | concreteTree => simp only [analyze, hread]

/-- A class with a heritage, which one frontend walks through before the body and the other behind it. -/
def heritageText : String :=
  "class A extends f(B) { m = gql.a(() => query.slice({})) }"

/-- The declarations found in a text, by their places and kinds; nothing if the text is refused. -/
def found? (f : Frontend) (file text : String) : Option (List (String × Kind)) :=
  (f.analyze .standard file text).toOption.map fun a =>
    a.declarations.map fun d => (d.structuralPath, d.kind)

/-- A plain module with a declaration and a function. -/
def userText : String :=
  "import \x7b gql \x7d from './gql';\n" ++
  "export const user = gql.default((\x7b fragment \x7d) => fragment.User(\x7b name: 'User', fields: ['id'] \x7d));\n" ++
  "export function label(value) \x7b return value; \x7d"

/-- A bracket in the text of an element, which is none to those who know elements. -/
def markupText : String := "const a = <p>(</p>;"

/-- A loop with a declaration in its body and another in its condition. -/
def loopText : String :=
  "do gql.a(() => query.slice({})); while (gql.b(() => query.operation({})))"

end Frontend
end StaticGql
