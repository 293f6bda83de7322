import StaticGql.Proofs.Plain.Spelling
import StaticGql.Proofs.Scan.Capture
import StaticGql.Proofs.Unfold
import StaticGql.Script.Call

/-!
The calls in a plain program: the scanner finds the names that stand in them, the literal values that are passed
and the builder calls that functions yield just as those find them who have the tree.
-/

namespace StaticGql
namespace Plain

open Script (Tree Node Form)
open Scan (Token TokenKind Piece Place Range)
open Scan.Place (at? atWord word? at?_token group?_eq_none sizes_append chain cut skipTypeArguments group?
  afterArrowParameters)

variable {t u d w o c : Token} {e f : Tree} {l : List Tree} {p : Piece} {ps qs inner : List Piece}
  {place rest next : Place} {n m after : Nat} {form : Form}

/-! ### Parts between commas -/

theorem cut_last {start : Place} (h : ∀ p ∈ ps, p.head.kind ≠ .comma) (hstart : start ≠ []) :
    cut 0 start ps = [⟨start, 0⟩] := by
  induction ps with
  | nil => rw [cut, if_pos (List.length_pos_iff.2 hstart)]
  | cons p ps ih =>
      obtain ⟨hp, hps⟩ := List.forall_mem_cons.1 h
      rw [cut, if_neg (Nat.not_lt_zero _), if_neg hp, ih hps]

theorem cut_comma {start : Place} (h : ∀ p ∈ ps, p.head.kind ≠ .comma) (hc : c.kind = .comma) :
    cut 0 start (ps ++ .token c :: qs) = ⟨start, qs.length + 1⟩ :: cut 0 qs qs := by
  induction ps with
  | nil => rw [List.nil_append, cut, if_neg (Nat.not_lt_zero _), Piece.head, if_pos hc]
  | cons p ps ih =>
      obtain ⟨hp, hps⟩ := List.forall_mem_cons.1 h
      rw [List.cons_append, cut, if_neg (Nat.not_lt_zero _), if_neg hp, ih hps]

theorem parts_last (h : ∀ p ∈ ps, p.head.kind ≠ .comma) (hne : ps ≠ []) : (Range.whole ps).parts = [⟨ps, 0⟩] :=
  cut_last h hne

theorem parts_cons (h : ∀ p ∈ ps, p.head.kind ≠ .comma) (hc : c.kind = .comma) :
    (Range.whole (ps ++ .token c :: qs)).parts =
      ⟨ps ++ .token c :: qs, qs.length + 1⟩ :: (Range.whole qs).parts :=
  cut_comma h hc

theorem Value.no_comma (h : Value e ps) : ∀ p ∈ ps, p.head.kind ≠ .comma := by
  intro p hp hkind
  have := (h.inside p hp).kind
  simp [hkind] at this

theorem Field.no_comma (h : Field e ps) : ∀ p ∈ ps, p.head.kind ≠ .comma := by
  cases h with
  | shorthand ht => simp [Piece.head, ht.kind]
  | pair ht hc h => simpa [Piece.head, ht, hc] using h.no_comma
  | quoted ht hc h => simpa [Piece.head, ht, hc] using h.no_comma
  | spread ht h => simpa [Piece.head, ht] using h.no_comma

theorem Field.ne_nil (h : Field e ps) : ps ≠ [] := by
  cases h <;> exact List.cons_ne_nil _ _

/-! ### Names -/

open Scan.Names in
/-- The names in a stretch up to the end of its level, but for the pieces behind it. -/
abbrev Names (n after : Nat) (place : Place) (names : List String) : Prop := Gives step n (go after place) names

namespace Names

open Scan.Names

variable {names : List String}

theorem empty (h : place.length ≤ after) : Names 1 after place [] := by
  refine Gives.task (n := 0) ?_
  have hempty : Range.isEmpty ⟨place, after⟩ = true := decide_eq_true h
  have hstep : step (.stretch ⟨place, after⟩) = [] := by rw [step, stretchStep, if_pos hempty]
  rw [hstep]
  exact .nil _ _

theorem of_step (hafter : after ≤ rest.length) (parts : Step)
    (hstep : Range.isEmpty ⟨p :: rest, after⟩ = false → stretchStep ⟨p :: rest, after⟩ = parts)
    (h : Gives step n parts names) : Names (n + 1) after (p :: rest) names := by
  refine Gives.task ?_
  rw [step, hstep]
  · exact h
  · simp [Range.isEmpty]
    omega

theorem token (hafter : after ≤ rest.length) (hword : t.kind ≠ .word)
    (hoperator : t.kind = .operator → t.text.startsWith "<" = false) (h : Names n after rest names) :
    Names (n + 1) after (.token t :: rest) names := by
  refine of_step hafter (go after rest) (fun hempty => ?_) h
  have hop : ¬(t.kind = .operator ∧ t.text.startsWith "<" = true) := by
    rintro ⟨hkind, htext⟩
    rw [hoperator hkind] at htext
    cases htext
  simp only [stretchStep, hempty, hword, hop, if_false, Bool.false_eq_true]

theorem word (hafter : after ≤ rest.length) (hkind : t.kind = .word) {found : List String}
    (hof : ofWord after t rest = (found, next)) (h : Names n after next names) :
    Names (n + 1) after (.token t :: rest) (found ++ names) := by
  refine of_step hafter (found.map .inl ++ go after next) (fun hempty => ?_) ?_
  · simp [stretchStep, hempty, hkind, hof]
  · exact (Gives.answers step n found).append h

theorem group (hafter : after ≤ rest.length) (inside : Step) {found : List String}
    (hinside : (match o.kind with
        | .openParen => if afterArrowParameters rest || o.follows "catch" then [] else go 0 inner
        | .openBrace => if o.opensObject then [.inr (.object inner)] else go 0 inner
        | _ => go 0 inner) = inside)
    (hfound : Gives step n inside found) (h : Names n after rest names) :
    Names (n + 1) after (.group o c inner :: rest) (found ++ names) := by
  refine of_step hafter (inside ++ go after rest) (fun hempty => ?_) (hfound.append h)
  rw [stretchStep, hempty, ← hinside]
  rfl

/-- A group whose names count. -/
theorem enclosed (hafter : after ≤ rest.length) {found : List String}
    (hparen : o.kind = .openParen → afterArrowParameters rest = false ∧ o.follows "catch" = false)
    (hbrace : o.kind = .openBrace → o.opensObject = false) (hfound : Names (Piece.sizes inner + 1) 0 inner found)
    (h : Names n after rest names) :
    Names (n + Piece.sizes [.group o c inner]) after (.group o c inner :: rest) (found ++ names) := by
  refine (group (n := n + Piece.sizes inner + 1) hafter (go 0 inner) ?_ (hfound.mono (by omega))
    (h.mono (by omega))).mono (by simp only [Piece.sizes, Piece.size]; omega)
  split
  · rename_i hkind
    simp [hparen hkind]
  · rename_i hkind
    simp [hbrace hkind]
  · rfl

end Names

/-! ### Names in values -/

theorem Continues.not_arrow (h : Continues rest) : afterArrowParameters rest = false := by
  cases rest with
  | nil => rfl
  | cons p rest =>
      cases p with
      | group o c inner => rfl
      | token t =>
          have harrow := h.at_eq_false (k := .arrow) (by decide)
          have hcolon := h.at_eq_false (k := .colon) (by decide)
          rw [at?_token, decide_eq_false_iff_not] at harrow hcolon
          rw [afterArrowParameters]
          split
          · exact absurd ‹_› harrow
          · exact absurd ‹_› hcolon
          · rfl

namespace Names

open Scan.Names

variable {names : List String}

theorem ofWord_name (ht : IsName t) (hcolon : at? .colon rest = false) :
    ofWord after t rest = (if at? .arrow rest then [] else [t.text], rest) := by
  have hvariable : ¬(t.text = "const" ∨ t.text = "let" ∨ t.text = "var") := by
    simp [ht.ne (show "const" ∈ keywords by decide), ht.ne (show "let" ∈ keywords by decide),
      ht.ne (show "var" ∈ keywords by decide)]
  have hcast : ¬((t.text = "as" ∨ t.text = "satisfies") ∧ t.previousKind.any (· ∈ beforeCast)) := by
    simp [ht.ne (show "as" ∈ keywords by decide), ht.ne (show "satisfies" ∈ keywords by decide)]
  have hreserved : t.text ∉ reserved := fun h =>
    ht.text (List.mem_append_left _ (List.mem_append_right _ h))
  rw [ofWord, ht.member, if_neg Bool.false_ne_true, if_neg hvariable, if_neg (ht.ne (by decide)),
    if_neg (ht.ne (by decide)), if_neg hcast, if_neg hreserved, hcolon]
  split <;> simp

theorem name (ht : IsName t) (hrest : Continues rest) (hafter : after ≤ rest.length) (h : Names n after rest names) :
    Names (n + 1) after (.token t :: rest) (t.text :: names) := by
  have hof : ofWord after t rest = ([t.text], rest) := by
    rw [ofWord_name ht (hrest.at_eq_false (by decide)), hrest.at_eq_false (by decide)]
    rfl
  exact word hafter ht.kind hof h

/-- A word that stands for nothing. -/
theorem silent (hafter : after ≤ rest.length) (hkind : t.kind = .word) (hof : ofWord after t rest = ([], next))
    (h : Names n after next names) : Names (n + 1) after (.token t :: rest) names := by
  have hword := word hafter hkind hof h
  rwa [List.nil_append] at hword

theorem member (hafter : after ≤ rest.length) (hkind : t.kind = .word) (hmember : t.isMember = true)
    (h : Names n after rest names) : Names (n + 1) after (.token t :: rest) names :=
  silent hafter hkind (by rw [ofWord, if_pos hmember]) h

theorem reserved (hafter : after ≤ rest.length) (hkind : t.kind = .word)
    (htext : t.text ∈ ["true", "false", "null", "return"]) (h : Names n after rest names) :
    Names (n + 1) after (.token t :: rest) names := by
  refine silent hafter hkind ?_ h
  rw [ofWord]
  generalize t.text = text at htext
  split
  · rfl
  · simp only [List.mem_cons, List.not_mem_nil, or_false] at htext
    rcases htext with rfl | rfl | rfl | rfl <;> simp [Scan.Names.reserved]

theorem literal {node : Node} {text : String} (ht : IsLiteral t node text) (hafter : after ≤ rest.length)
    (h : Names n after rest names) : Names (n + 1) after (.token t :: rest) names := by
  cases ht with
  | quoted hkind => exact token hafter (by simp [hkind]) (by simp [hkind]) h
  | number hkind => exact token hafter (by simp [hkind]) (by simp [hkind]) h
  | template hkind => exact token hafter (by simp [hkind]) (by simp [hkind]) h
  | regex hkind => exact token hafter (by simp [hkind]) (by simp [hkind]) h
  | word hkind htext => exact reserved hafter hkind (List.mem_append_left ["return"] htext) h

/-- A mark between values. -/
theorem mark {k : TokenKind} (hafter : after ≤ rest.length) (hkind : t.kind = k) (hk : k ∉ [.word, .operator])
    (h : Names n after rest names) : Names (n + 1) after (.token t :: rest) names := by
  subst hkind
  simp only [List.mem_cons, List.not_mem_nil, or_false, not_or] at hk
  exact token hafter hk.1 (fun hop => absurd hop hk.2) h

theorem operation (ht : isOperation t = true) (hafter : after ≤ rest.length) (h : Names n after rest names) :
    Names (n + 1) after (.token t :: rest) names := by
  simp only [isOperation, Bool.or_eq_true, Bool.and_eq_true, decide_eq_true_eq, Bool.not_eq_true'] at ht
  rcases ht with ht | ⟨ht, htext⟩
  · exact mark hafter ht (by decide) h
  · exact token hafter (by simp [ht]) (fun _ => htext) h

/-- Parameters before an arrow stand for nothing. -/
theorem parameters (hp : Parameters e p) (ht : t.kind = .arrow) (hafter : after ≤ rest.length)
    (h : Names n after rest names) : Names (n + 2) after (p :: .token t :: rest) names := by
  have harrow : Names (n + 1) after (.token t :: rest) names := mark hafter ht (by decide) h
  have hafter' : after ≤ (Piece.token t :: rest).length := Nat.le_succ_of_le hafter
  cases hp with
  | @group o c text l inner _ _ hl ho hinner =>
      have hskip : afterArrowParameters (.token t :: rest) = true := by simp [afterArrowParameters, ht]
      have hgroup : Names (n + 2) after (.group o c inner :: .token t :: rest) ([] ++ names) :=
        group hafter' [] (by rw [ho, hskip]; rfl) (Gives.nil _ _) harrow
      rwa [List.nil_append] at hgroup
  | single ht' =>
      refine silent hafter' ht'.kind ?_ harrow
      rw [ofWord_name ht' (by simp [ht])]
      simp [ht]

/-- The keyword of a declaration of variables, with what it names. -/
theorem declared {k : Token} {u : Tree} (hk : isWord "const" k = true ∨ isWord "let" k = true ∨ isWord "var" k = true)
    (hu : Target u p) (ht : t.kind = .assign) (hafter : after ≤ rest.length)
    (h : Names n after (.token t :: rest) names) : Names (n + 1) after (.token k :: p :: .token t :: rest) names := by
  have hvariable : k.kind = .word ∧ k.isMember = false ∧ (k.text = "const" ∨ k.text = "let" ∨ k.text = "var") := by
    simp only [isWord, Bool.and_eq_true, decide_eq_true_eq, Bool.not_eq_true'] at hk
    tauto
  obtain ⟨hkind, hmember, htext⟩ := hvariable
  refine silent (by simp; omega) hkind ?_ h
  rw [ofWord, hmember, if_neg Bool.false_ne_true, if_pos htext]
  have hassign : at? .colon (.token t :: rest) = false := by simp [ht]
  cases hu with
  | name hu => simp [afterVariable, skipWord, word?, hu, skipAnnotation, hassign]
  | pattern => simp [afterVariable, skipAnnotation, hassign]

/-- The keyword of a function, with its name and its parameters. -/
theorem function {k : Token} (hk : isWord "function" k = true) (ht : t.kind = .word) (hp : Parameters e p)
    (hparen : p.head.kind = .openParen) (ho : o.kind = .openBrace) (hafter : after ≤ rest.length)
    (h : Names n after (.group o c inner :: rest) names) :
    Names (n + 1) after (.token k :: .token t :: p :: .group o c inner :: rest) names := by
  simp only [isWord, Bool.and_eq_true, decide_eq_true_eq, Bool.not_eq_true'] at hk
  obtain ⟨⟨hkind, htext⟩, hmember⟩ := hk
  refine silent (by simp; omega) hkind ?_ h
  rw [ofWord, hmember, if_neg Bool.false_ne_true, if_neg (by simp [htext]), if_pos htext]
  have hskip := hp.opens.types (.group o c inner :: rest)
  cases hp with
  | single ht' => exact absurd (ht'.kind.symm.trans hparen) (by decide)
  | group _ hparen' _ =>
      simp [afterFunction, skipStar, skipWord, Place.atOperator, word?, ht, hskip, group?, hparen',
        skipAnnotation, ho]

end Names

theorem IsLiteral.names {node : Node} {text : String} {a b : Nat} (h : IsLiteral t node text) :
    Tree.names form (.mk node text a b []) = [] := by
  cases h <;> rfl

theorem Parameters.names (h : Parameters e p) : e.names form = [] := by
  cases h <;> rfl

theorem namesAll_singleton (form : Form) (e : Tree) : Script.namesAll form [e] = e.names form := List.append_nil _

theorem namesAll_pair (form : Form) (e f : Tree) : Script.namesAll form [e, f] = e.names form ++ f.names form := by
  rw [Script.namesAll, namesAll_singleton]

open Scan.Names in
theorem parts_of_object {o : Token} (ho : o.kind = .openBrace) (hobject : o.opensObject = true)
    (hafter : after ≤ rest.length) {found names : List String}
    (hfound : Gives Scan.Names.step (Piece.sizes inner) ((Range.whole inner).parts.flatMap fieldStep) found)
    (h : Names n after rest names) :
    Names (n + Piece.sizes [.group o c inner]) after (.group o c inner :: rest) (found ++ names) := by
  refine (Names.group (n := n + Piece.sizes inner + 1) hafter [.inr (.object inner)] ?_ ?_
    (h.mono (by omega))).mono (by simp only [Piece.sizes, Piece.size]; omega)
  · rw [ho, hobject]
    rfl
  · exact (Gives.task (t := Scan.Names.Task.object inner) hfound).mono (by omega)

mutual

theorem Value.named {e : Tree} {ps : List Piece} (h : Value e ps) {rest : Place} {n after : Nat} {names : List String}
    (hrest : Continues rest) (hafter : after ≤ rest.length) (hnames : Names n after rest names) :
    Names (n + Piece.sizes ps) after (ps ++ rest) (e.names form ++ names) := by
  cases h with
  | name ht => exact .name ht hrest hafter hnames
  | literal ht =>
      rw [ht.names]
      exact .literal ht hafter hnames
  | negative hs htext ht =>
      refine .token (Nat.le_succ_of_le hafter) (by simp [hs]) (fun _ => ?_) (.mark hafter ht (by decide) hnames)
      rw [htext]
      exact startsWith_minus
  | @member d w e ps _ _ h he hd hw hmember =>
      have hlink : Names (n + 1 + 1) after (.token d :: .token w :: rest) names :=
        .mark (Nat.le_succ_of_le hafter) hd (by decide) (.member hafter hw hmember hnames)
      have hvalue := h.named (.of_kind (p := .token d) hd (by decide))
        (Nat.le_succ_of_le (Nat.le_succ_of_le hafter)) hlink
      rw [List.append_assoc, sizes_append]
      rw [show Tree.names form (.mk .member w.text _ _ [e]) = e.names form from namesAll_singleton form e]
      exact hvalue.mono (by simp only [Piece.sizes, Piece.size]; omega)
  | @call o c _ _ f l ps inner _ _ _ h hf hl ho hcatch =>
      have hgroup := Names.enclosed (c := c) hafter (fun _ => ⟨hrest.not_arrow, hcatch⟩) (by simp [ho])
        (hl.named) hnames
      have hvalue := h.named (.of_kind (p := .group o c inner) ho (by decide))
        (Nat.le_succ_of_le hafter) hgroup
      rw [List.append_assoc, sizes_append]
      rw [show Tree.names form (.mk .call _ _ _ [f, .mk .arguments _ _ _ l]) =
        f.names form ++ Script.namesAll form l from namesAll_pair form f _, List.append_assoc]
      exact hvalue.mono (by omega)
  | @paren o c _ e inner _ _ h ho hcatch =>
      have hinner := h.named Continues.nil (Nat.zero_le _) (.empty (Nat.le_refl 0))
      rw [List.append_nil, List.append_nil] at hinner
      rw [show Tree.names form (.mk .paren _ _ _ [e]) = e.names form from namesAll_singleton form e]
      exact .enclosed hafter (fun _ => ⟨hrest.not_arrow, hcatch⟩) (by simp [ho]) (hinner.mono (by omega)) hnames
  | array hl ho => exact .enclosed hafter (by simp [ho]) (by simp [ho]) hl.named hnames
  | object hl ho hobject => exact parts_of_object ho hobject hafter hl.named hnames
  | @spread t _ e ps _ _ ht h =>
      rw [show Tree.names form (.mk .spread _ _ _ [e]) = e.names form from namesAll_singleton form e]
      have hvalue := Names.mark (t := t) (Nat.le_trans hafter (by simp)) ht (by decide) (h.named hrest hafter hnames)
      exact hvalue.mono (by simp only [Piece.sizes, Piece.size]; omega)
  | @operation t _ e f ps qs _ _ h he ht h' hf =>
      have hright := Names.operation ht (Nat.le_trans hafter (by simp)) (h'.named hrest hafter hnames)
      have hvalue := h.named (.of_operation ht) (Nat.le_trans hafter (by simp; omega)) hright
      rw [show Tree.names form (.mk .compound _ _ _ [e, f]) = e.names form ++ f.names form from namesAll_pair form e f,
        List.append_assoc, List.append_assoc, sizes_append]
      exact hvalue.mono (by simp only [Piece.sizes, Piece.size]; omega)
  | @assign t e f ps qs _ _ h he ht h' =>
      have hright := Names.mark (t := t) (Nat.le_trans hafter (by simp)) ht (by decide)
        (h'.named hrest hafter hnames)
      have hvalue := h.named (.of_kind (p := .token t) ht (by decide))
        (Nat.le_trans hafter (by simp; omega)) hright
      rw [show Tree.names form (.mk .assign "=" _ _ [e, f]) = e.names form ++ f.names form from namesAll_pair form e f,
        List.append_assoc, List.append_assoc, sizes_append]
      exact hvalue.mono (by simp only [Piece.sizes, Piece.size]; omega)
  | @arrow t _ u e p ps _ _ hp ht h =>
      have hbody := Names.parameters hp ht (Nat.le_trans hafter (by simp)) (h.named hrest hafter hnames)
      rw [show Tree.names form (.mk .arrow _ _ _ [u, e]) = u.names form ++ e.names form from namesAll_pair form u e,
        hp.names, List.nil_append]
      exact hbody.mono (by cases p <;> simp [Piece.sizes, Piece.size] <;> omega)
  | @arrowBlock t o c _ _ u l p inner _ _ _ _ hp ht hl ho hobject =>
      have hgroup := Names.enclosed (c := c) hafter (by simp [ho]) (fun _ => hobject) (hl.named) hnames
      have hbody := Names.parameters hp ht (Nat.le_succ_of_le hafter) hgroup
      rw [show Tree.names form (.mk .arrow _ _ _ [u, .mk .block _ _ _ l]) = u.names form ++ Script.namesAll form l from
        namesAll_pair form u _, hp.names, List.nil_append]
      exact hbody.mono (by cases p <;> simp [Piece.sizes, Piece.size] <;> omega)

theorem Values.named {l : List Tree} {ps : List Piece} (h : Values l ps) :
    Names (Piece.sizes ps + 1) 0 ps (Script.namesAll form l) := by
  cases h with
  | nil => exact .empty (Nat.le_refl 0)
  | last h =>
      have hvalue := h.named Continues.nil (Nat.zero_le _) (.empty (Nat.le_refl 0))
      rw [List.append_nil, List.append_nil] at hvalue
      rw [namesAll_singleton]
      exact hvalue.mono (by omega)
  | @cons c e l ps qs h hc hl =>
      have hcomma := Names.mark (t := c) (Nat.zero_le _) hc (by decide) hl.named
      have hvalue := h.named (.of_kind (p := .token c) hc (by decide)) (Nat.zero_le _) hcomma
      rw [sizes_append]
      exact hvalue.mono (by simp only [Piece.sizes, Piece.size]; omega)

theorem Field.named {e : Tree} {ps : List Piece} (h : Field e ps) {rest : Place} (hrest : Stops rest) :
    Gives Scan.Names.step (Piece.sizes ps) (Scan.Names.fieldStep ⟨ps ++ rest, rest.length⟩) (e.names form) := by
  cases h with
  | @shorthand t _ _ ht =>
      have hcolon : at? .colon rest = false := hrest.continues.at_eq_false (by decide)
      have hreserved : t.text ∉ Scan.Names.reserved := fun h =>
        ht.text (List.mem_append_left _ (List.mem_append_right _ h))
      have hstep : Scan.Names.fieldStep ⟨[.token t] ++ rest, rest.length⟩ = [.inl t.text] := by
        simp [Scan.Names.fieldStep, ht.kind, hcolon, hreserved]
      rw [hstep]
      exact (Gives.nil _ _).answer
  | @pair t c _ e ps _ _ _ _ ht hc h =>
      have hvalue := h.named hrest.continues (Nat.le_refl _) (.empty (Nat.le_refl _))
      have hstep : Scan.Names.fieldStep ⟨.token t :: .token c :: ps ++ rest, rest.length⟩ =
          Scan.Names.go rest.length (ps ++ rest) := by
        simp [Scan.Names.fieldStep, ht, hc]
      rw [hstep,
        show Tree.names form (.mk .pair _ _ _ [.mk .propertyName t.text _ _ [], e]) = e.names form ++ [] from rfl]
      exact hvalue.mono (by simp [Piece.sizes, Piece.size])
  | @quoted t c _ e ps _ _ _ _ ht hc h =>
      have hvalue := h.named hrest.continues (Nat.le_refl _) (.empty (Nat.le_refl _))
      have hstep : Scan.Names.fieldStep ⟨.token t :: .token c :: ps ++ rest, rest.length⟩ =
          Scan.Names.go rest.length (ps ++ rest) := by
        simp [Scan.Names.fieldStep, ht, hc]
      rw [hstep, show Tree.names form (.mk .pair _ _ _ [.mk .quoted t.text _ _ [], e]) = e.names form ++ [] from rfl]
      exact hvalue.mono (by simp [Piece.sizes, Piece.size])
  | @spread t _ e ps _ _ ht h =>
      have hvalue := h.named hrest.continues (Nat.le_refl _) (.empty (Nat.le_refl _))
      have hstep : Scan.Names.fieldStep ⟨.token t :: ps ++ rest, rest.length⟩ =
          Scan.Names.go rest.length (ps ++ rest) := by
        simp [Scan.Names.fieldStep, ht]
      rw [hstep, show Tree.names form (.mk .spread _ _ _ [e]) = e.names form ++ [] from rfl]
      exact hvalue.mono (by simp [Piece.sizes, Piece.size])

theorem Fields.named {l : List Tree} {ps : List Piece} (h : Fields l ps) :
    Gives Scan.Names.step (Piece.sizes ps) ((Range.whole ps).parts.flatMap Scan.Names.fieldStep)
      (Script.namesAll form l) := by
  cases h with
  | nil => exact .nil _ _
  | last h =>
      have hfield := h.named .nil
      rw [parts_last h.no_comma h.ne_nil, namesAll_singleton, List.flatMap_singleton]
      rwa [List.append_nil] at hfield
  | @cons c e l ps qs h hc hl =>
      rw [parts_cons h.no_comma hc, List.flatMap_cons, Script.namesAll, sizes_append]
      have hend : Stops (.token c :: qs) := .comma hc
      have hfield := h.named hend
      exact (hfield.mono (by omega)).append (hl.named.mono (by simp only [Piece.sizes, Piece.size]; omega))

theorem Statement.named {e : Tree} {ps : List Piece} (h : Statement e ps) {rest : Place} {n after : Nat}
    {names : List String} (hafter : after ≤ rest.length) (hnames : Names n after rest names) :
    Names (n + Piece.sizes ps) after (ps ++ rest) (e.names form ++ names) := by
  cases h with
  | @binding k t s _ _ u e p ps _ _ _ _ hk hu ht h hs =>
      have hvalue := h.named (.of_kind (p := .token s) hs (by decide)) (Nat.le_succ_of_le hafter)
        (.mark hafter hs (by decide) hnames)
      have hassign := Names.mark (t := t) (Nat.le_trans hafter (by simp; omega)) ht (by decide) hvalue
      rw [show Tree.names form (.mk .variableList _ _ _ [.mk .declarator _ _ _ [u, e]]) =
        e.names form ++ [] ++ [] from rfl,
        List.append_nil, List.append_nil, List.cons_append, List.cons_append, List.cons_append, List.append_assoc]
      have hdeclared := Names.declared hk hu ht (Nat.le_trans hafter (by simp; omega)) hassign
      exact hdeclared.mono (by cases p <;> simp [Piece.sizes, sizes_append, Piece.size] <;> omega)
  | @function k t o c _ u l p inner _ _ _ _ hk ht _ hp hparen hl ho hobject =>
      have hgroup := Names.enclosed (c := c) hafter (by simp [ho]) (fun _ => hobject) hl.named hnames
      rw [show Tree.names form (.mk .function t.text _ _ [u, .mk .block _ _ _ l]) =
        u.names form ++ (Script.namesAll form l ++ [])
        from rfl, hp.names, List.nil_append, List.append_nil]
      exact (Names.function hk ht hp hparen ho hafter hgroup).mono (by simp only [Piece.sizes, Piece.size]; omega)
  | @expression s _ e ps _ _ h hbrace hs =>
      rw [show Tree.names form (.mk .statement _ _ _ [e]) = e.names form ++ [] from rfl, List.append_nil,
        List.append_assoc]
      have hvalue := h.named (.of_kind (p := .token s) hs (by decide)) (Nat.le_succ_of_le hafter)
        (.mark hafter hs (by decide) hnames)
      exact hvalue.mono (by simp only [Piece.sizes, sizes_append, Piece.size]; omega)
  | @result k s _ e ps _ _ hk h hs =>
      have hvalue := h.named (.of_kind (p := .token s) hs (by decide)) (Nat.le_succ_of_le hafter)
        (.mark hafter hs (by decide) hnames)
      rw [show Tree.names form (.mk .result _ _ _ [e]) = e.names form ++ [] from rfl, List.append_nil, List.cons_append,
        List.append_assoc]
      simp only [isWord, Bool.and_eq_true, decide_eq_true_eq] at hk
      exact (Names.reserved (t := k) (Nat.le_trans hafter (by simp; omega)) hk.1.1 (by simp [hk.1.2]) hvalue).mono
        (by simp only [Piece.sizes, sizes_append, Piece.size]; omega)

theorem Statements.named {l : List Tree} {ps : List Piece} (h : Statements l ps) :
    Names (Piece.sizes ps + 1) 0 ps (Script.namesAll form l) := by
  cases h with
  | nil => exact .empty (Nat.le_refl 0)
  | @cons e ps l qs h hl =>
      rw [sizes_append, Script.namesAll]
      exact (h.named (Nat.zero_le _) hl.named).mono (by omega)

end

/-! ### Literal values -/

open Scan (Item)

theorem items_eq_map (ps : List Piece) : Piece.items ps = ps.map Piece.item := by
  induction ps with
  | nil => rfl
  | cons p ps ih => rw [Piece.items, ih, List.map_cons]

theorem items_no_comma (h : ∀ p ∈ ps, p.head.kind ≠ .comma) : ∀ i ∈ Piece.items ps, i.isComma = false := by
  rw [items_eq_map]
  intro i hi
  obtain ⟨p, hp, rfl⟩ := List.mem_map.1 hi
  cases p with
  | token t => exact Scan.isComma_eq_false (h _ hp)
  | group o c inner =>
      rw [Piece.item]
      split <;> rfl

theorem items_ne_nil (h : ps ≠ []) : Piece.items ps ≠ [] := by
  rw [items_eq_map]
  simpa using h

theorem value?_long {items : List Item} (h : 3 ≤ items.length) : Item.value? items = none := by
  rcases items with _ | ⟨i, _ | ⟨j, _ | ⟨k, items⟩⟩⟩
  · cases h
  · exact absurd h (by simp)
  · exact absurd h (by simp)
  · cases i with
    | token t => cases j <;> rfl
    | _ => rfl

theorem value?_concat_other (items : List Item) : Item.value? (items ++ [.other]) = none := by
  rcases items with _ | ⟨i, _ | ⟨j, items⟩⟩
  · rfl
  · cases i <;> rfl
  · exact value?_long (by simp)

theorem tokenValue?_literal {node : Node} {text : String} {a b : Nat} (h : IsLiteral t node text) :
    Item.tokenValue? t = Tree.value? (.mk node text a b []) := by
  cases h with
  | quoted hkind => simp [Item.tokenValue?, hkind, Tree.value?]
  | number hkind => simp [Item.tokenValue?, hkind, Tree.value?]
  | template hkind => simp [Item.tokenValue?, hkind, Tree.value?]
  | regex hkind htext =>
      simp only [List.mem_cons, List.not_mem_nil, or_false, not_or] at htext
      simp [Item.tokenValue?, hkind, Tree.value?, Tree.atomValue?, htext]
  | word hkind => simp [Item.tokenValue?, hkind, Tree.value?, Tree.atomValue?]

theorem tokenValue?_name (h : IsName t) : Item.tokenValue? t = none := by
  simp [Item.tokenValue?, h.kind, h.ne (show "true" ∈ keywords by decide), h.ne (show "false" ∈ keywords by decide),
    h.ne (show "null" ∈ keywords by decide)]

theorem value?_eq_none {node : Node} {text : String} {a b : Nat}
    (h : node ∉ [.quoted, .number, .atom, .unary, .object, .array]) : Tree.value? (.mk node text a b l) = none := by
  cases node <;> first
    | exact absurd (by decide) h
    | rw [Tree.value?] <;> simp

theorem value?_spread {items : List Item} (ht : t.kind = .ellipsis) : Item.value? (.token t :: items) = none := by
  rcases items with _ | ⟨i, _ | ⟨j, items⟩⟩
  · simp [Item.value?, Item.tokenValue?, ht]
  · cases i <;> simp [Item.value?, ht]
  · exact value?_long (by simp)

theorem item_paren (ho : o.kind = .openParen) : Piece.item (.group o c inner) = .other := by
  rw [Piece.item, ho]

mutual

theorem Value.captured {e : Tree} {ps : List Piece} (h : Value e ps) : Item.value? (Piece.items ps) = e.value? := by
  cases h with
  | name ht => rw [Piece.items, Piece.items, Piece.item, Item.value?, tokenValue?_name ht, value?_eq_none (by decide)]
  | literal ht => rw [Piece.items, Piece.items, Piece.item, Item.value?, tokenValue?_literal ht]
  | negative hs htext ht => simp [Piece.items, Piece.item, Item.value?, hs, htext, ht, Tree.value?]
  | member h he hd hw hmember =>
      have hlength := List.length_pos_iff.2 h.ne_nil
      rw [value?_long (by simp [items_eq_map]; omega), value?_eq_none (by decide)]
  | call h hf hl ho hcatch =>
      rw [Scan.Piece.items_append, Piece.items, Piece.items, item_paren ho, value?_concat_other,
        value?_eq_none (by decide)]
  | paren h ho hcatch =>
      rw [Piece.items, Piece.items, item_paren ho, value?_eq_none (by decide)]
      rfl
  | array hl ho =>
      simp only [Piece.items, Piece.item, ho, Item.value?, Tree.value?]
      rw [hl.captured]
  | object hl ho hobject =>
      simp only [Piece.items, Piece.item, ho, Item.value?, Tree.value?, Item.fields, Tree.fields]
      rw [hl.captured]
  | spread ht h => rw [Piece.items, Piece.item, value?_spread ht, value?_eq_none (by decide)]
  | operation h he ht h' hf =>
      have hlength := List.length_pos_iff.2 h.ne_nil
      have hlength' := List.length_pos_iff.2 h'.ne_nil
      rw [value?_long (by simp [items_eq_map]; omega), value?_eq_none (by decide)]
  | assign h he ht h' =>
      have hlength := List.length_pos_iff.2 h.ne_nil
      have hlength' := List.length_pos_iff.2 h'.ne_nil
      rw [value?_long (by simp [items_eq_map]; omega), value?_eq_none (by decide)]
  | arrow hp ht h =>
      have hlength := List.length_pos_iff.2 h.ne_nil
      rw [value?_long (by simp [items_eq_map]; omega), value?_eq_none (by decide)]
  | arrowBlock hp ht hl ho hobject =>
      rw [value?_long (by simp [items_eq_map]), value?_eq_none (by decide)]

theorem Values.captured {l : List Tree} {ps : List Piece} (h : Values l ps) :
    (Item.cut (Piece.items ps)).mapM Item.value? = Tree.values? l := by
  cases h with
  | nil => simp [Piece.items, Item.cut, Tree.values?]
  | last h =>
      rw [Item.cut_part (items_no_comma h.no_comma) (items_ne_nil h.ne_nil), List.mapM_cons, h.captured,
        Tree.values?, Tree.values?]
      rfl
  | @cons c e l ps qs h hc hl =>
      have hcomma : (Item.token c).isComma = true := by simp [Item.isComma, hc]
      rw [Scan.Piece.items_append, Piece.items, Piece.item, Item.cut_comma (items_no_comma h.no_comma) hcomma,
        List.mapM_cons, h.captured, hl.captured, Tree.values?]

theorem Field.captured {e : Tree} {ps : List Piece} (h : Field e ps) : Item.field? (Piece.items ps) = e.field? := by
  cases h with
  | shorthand ht => rw [Tree.field?] <;> simp [Piece.items, Item.field?]
  | pair ht hc h =>
      simp only [Piece.items, Piece.item, Item.field?, hc, Item.key?, ht, h.captured]
      rw [Tree.field?]
      rfl
  | quoted ht hc h =>
      simp only [Piece.items, Piece.item, Item.field?, hc, Item.key?, ht, h.captured]
      rw [Tree.field?]
      rfl
  | @spread t text e ps a b ht h =>
      have hnone : Tree.field? (.mk .spread text a b [e]) = none := by
        rw [Tree.field?]
        simp
      obtain ⟨p, qs, rfl, -⟩ := h.exists_opens
      have hcolon := (h.inside p List.mem_cons_self).kind
      rw [Piece.items, Piece.item, Piece.items, hnone]
      cases p with
      | token u =>
          have hu : u.kind ≠ .colon := by
            intro hu
            simp [Piece.head, hu] at hcolon
          simp [Piece.item, Item.field?, hu]
      | group o c inner =>
          rw [Piece.item]
          split <;> rfl

theorem Fields.captured {l : List Tree} {ps : List Piece} (h : Fields l ps) :
    (Item.cut (Piece.items ps)).filterMap Item.field? = (Tree.fieldList l).reduceOption := by
  cases h with
  | nil =>
      rw [Tree.fieldList]
      rfl
  | @last e ps h =>
      rw [Item.cut_part (items_no_comma h.no_comma) (items_ne_nil h.ne_nil), List.filterMap_cons, h.captured,
        Tree.fieldList, Tree.fieldList]
      cases e.field? <;> rfl
  | @cons c e l ps qs h hc hl =>
      have hcomma : (Item.token c).isComma = true := by simp [Item.isComma, hc]
      rw [Scan.Piece.items_append, Piece.items, Piece.item, Item.cut_comma (items_no_comma h.no_comma) hcomma,
        List.filterMap_cons, h.captured, hl.captured, Tree.fieldList]
      cases e.field? <;> rfl

end

/-! ### What functions yield -/

theorem lt_of_group {k : TokenKind} (hps : 2 ≤ ps.length) (h : group? k (ps ++ rest) = some (inner, next)) :
    rest.length < next.length := by
  rcases ps with _ | ⟨p, _ | ⟨q, ps⟩⟩
  · exact absurd hps (by simp)
  · exact absurd hps (by simp)
  · cases p with
    | token t => cases h
    | group o c _ =>
        have hnext : q :: ps ++ rest = next := by
          rw [List.cons_append, group?] at h
          split at h
          · exact (Prod.mk.inj (Option.some.inj h)).2
          · cases h
        rw [← hnext, List.length_append, List.length_cons]
        omega

/-- What a group is that is a value by itself. -/
def enclosed? : TokenKind → Option Node
  | .openBrace => some .object
  | .openBracket => some .array
  | .openParen => some .paren
  | _ => none

/-- A value in brackets from end to end is no other than those brackets make. -/
theorem Value.length_ne_of_group {k : TokenKind} (h : Value e ps) (he : enclosed? k ≠ some e.node)
    (hgroup : group? k (ps ++ rest) = some (inner, next)) : next.length ≠ rest.length := by
  have hlong : 2 ≤ ps.length → next.length ≠ rest.length := fun hps => Nat.ne_of_gt (lt_of_group hps hgroup)
  have hone : ∀ {o c : Token} {qs : List Piece}, group? k ([.group o c qs] ++ rest) = some (inner, next) →
      o.kind = k := by
    intro o c qs h
    by_contra hne
    simp [group?, hne] at h
  cases h with
  | name ht => cases hgroup
  | literal ht => cases hgroup
  | negative hs htext ht => cases hgroup
  | member h => exact hlong (by simp)
  | call h =>
      have := List.length_pos_iff.2 h.ne_nil
      exact hlong (by simp; omega)
  | paren h ho => exact absurd (hone hgroup ▸ congrArg enclosed? ho) he
  | array hl ho => exact absurd (hone hgroup ▸ congrArg enclosed? ho) he
  | object hl ho => exact absurd (hone hgroup ▸ congrArg enclosed? ho) he
  | spread ht h => cases hgroup
  | operation h he ht h' hf =>
      have := List.length_pos_iff.2 h.ne_nil
      exact hlong (by simp; omega)
  | assign h he ht h' =>
      have := List.length_pos_iff.2 h.ne_nil
      exact hlong (by simp; omega)
  | arrow => exact hlong (by simp)
  | arrowBlock => exact hlong (by simp)

theorem Value.options_eq (h : Value e ps) (rest : Place) (l : List Tree) :
    (match group? .openBrace (ps ++ rest) with
      | some (inner, next) => if next.length = rest.length then Piece.objectFields inner else []
      | none => []) = Tree.options (e :: l) := by
  by_cases he : e.node = .object
  · cases h with
    | object hl ho hobject =>
        simp [group?, ho, Piece.objectFields, Item.fields, Tree.options, Tree.fields, hl.captured]
    | literal ht => cases ht <;> cases he
    | _ => cases he
  · have hnone : Tree.options (e :: l) = [] := by
      obtain ⟨node, text, start, stop, children⟩ := e
      cases node with
      | object => exact absurd rfl he
      | _ => rfl
    rw [hnone]
    split
    · rw [if_neg (h.length_ne_of_group (k := .openBrace) (fun h => he (Option.some.inj h.symm)) ‹_›)]
    · rfl

theorem Values.options_eq (hl : Values l inner) : Scan.Call.options inner = Tree.options l := by
  cases hl with
  | nil => rfl
  | @last e ps h =>
      have hoptions := h.options_eq [] []
      rw [List.append_nil] at hoptions
      rw [← hoptions, Scan.Call.options, parts_last h.no_comma h.ne_nil]
      rfl
  | @cons c e l ps qs h hc hl =>
      rw [← h.options_eq (.token c :: qs) l, Scan.Call.options, parts_cons h.no_comma hc]
      rfl

/-- The builder call that begins at a word, in a stretch without parentheses around it. -/
def builderCall (r : Range) : CallShape :=
  match r.place with
  | .token t :: rest =>
    if t.kind = .word ∧ t.text ≠ "this" ∧ t.text ≠ "super" ∧ t.text ≠ "new" then
      match group? .openParen (skipTypeArguments (chain rest).2) with
      | some (arguments, next) =>
        if next.length = r.after then .builder (some (t.text :: (chain rest).1)) (Scan.Call.options arguments)
        else Scan.Call.noChain
      | none => Scan.Call.noChain
    else Scan.Call.noChain
  | _ => Scan.Call.noChain

theorem builder_eq (r : Range) : Scan.Call.builder r = builderCall (Scan.Call.unwrap (Piece.sizes r.place + 1) r) := rfl

theorem builderCall_of_kind {r : Range} (h : ∀ p ∈ r.place.head?, p.head.kind ≠ .word) :
    builderCall r = Scan.Call.noChain := by
  obtain ⟨place, after⟩ := r
  rcases place with _ | ⟨_ | _, rest⟩
  · rfl
  · have hword := h _ rfl
    rw [Piece.head] at hword
    simp [builderCall, hword]
  · rfl

/-- A chain of names is the callee if its arguments follow and nothing else. -/
theorem Value.builderCall_chain {names : List String} (h : Value e ps) (hchain : e.chain? = some names)
    (hdot : at? .dot rest = false) : builderCall ⟨ps ++ rest, after⟩ =
      match group? .openParen (skipTypeArguments rest) with
      | some (arguments, next) =>
        if next.length = after then .builder (some names) (Scan.Call.options arguments) else Scan.Call.noChain
      | none => Scan.Call.noChain := by
  obtain ⟨t, l, ht, hl, rfl, rfl⟩ := h.exists_links hchain
  have hword : t.kind = .word ∧ t.text ≠ "this" ∧ t.text ≠ "super" ∧ t.text ≠ "new" :=
    ⟨ht.kind, ht.ne (by decide), ht.ne (by decide), ht.ne (by decide)⟩
  rw [builderCall, List.cons_append]
  simp only [if_pos hword, chain_links hl hdot]

theorem noChain_eq_ite {b : Prop} [Decidable b] {shape : CallShape} (h : b → shape = Scan.Call.noChain) :
    Scan.Call.noChain = if b then shape else Scan.Call.noChain := by
  split
  · exact (h ‹_›).symm
  · rfl

theorem builderCall_parameters (hp : Parameters e p) (ht : t.kind = .arrow) :
    builderCall ⟨p :: .token t :: rest, after⟩ = Scan.Call.noChain := by
  cases hp with
  | group => rfl
  | single ht' =>
      have hchain : chain (.token t :: rest) = ([], .token t :: rest) :=
        chain_links (l := []) (by simp) (by simp [ht])
      have hskip : skipTypeArguments (.token t :: rest) = .token t :: rest :=
        skipTypeArguments_eq_self (by simp [Piece.head, ht])
      rw [builderCall]
      simp only [hchain, hskip, group?, ite_self]

/-- Up to where a value ends it is the builder call that the tree is, and further on it is none. -/
theorem Value.builderCall_eq {e : Tree} {ps : List Piece} {rest : Place} {after : Nat} (h : Value e ps)
    (hafter : after ≤ rest.length) (hrest : Follows e rest) : builderCall ⟨ps ++ rest, after⟩ =
      if after = rest.length ∧ e.node ≠ .paren then e.builder form else Scan.Call.noChain := by
  cases h with
  | @name t a b ht =>
      have hmore : at? .dot rest = false ∧ at? .openParen rest = false := by
        simpa [Tree.chain?] using hrest.more
      rw [(Value.name (a := a) (b := b) ht).builderCall_chain rfl hmore.1, hrest.continues.skip, group?_eq_none hmore.2]
      exact noChain_eq_ite fun _ => rfl
  | @literal t node text a b ht =>
      cases ht with
      | word hkind htext hmember =>
          have hmore : at? .dot rest = false ∧ at? .openParen rest = false := by
            simpa [isHead, Script.Tree.node] using hrest.more
          have hchain : chain rest = ([], rest) := chain_links (l := []) (by simp) hmore.1
          rw [builderCall, List.singleton_append]
          simp only [hchain, hrest.continues.skip, group?_eq_none hmore.2, ite_self]
          exact noChain_eq_ite fun _ => rfl
      | _ hkind =>
          rw [builderCall_of_kind (by simp [Piece.head, hkind])]
          exact noChain_eq_ite fun _ => rfl
  | negative hs htext ht =>
      rw [builderCall_of_kind (by simp [Piece.head, hs])]
      exact noChain_eq_ite fun _ => rfl
  | @member d w e ps a b h he hd hw hmember =>
      cases hchain : e.chain? with
      | some names =>
          have hnames : (Tree.mk .member w.text a b [e]).chain? = some (names ++ [w.text]) := congrArg _ hchain
          have hmore : at? .dot rest = false ∧ at? .openParen rest = false := by
            simpa [hnames] using hrest.more
          rw [(Value.member h he hd hw hmember).builderCall_chain hnames hmore.1, hrest.continues.skip,
            group?_eq_none hmore.2]
          exact noChain_eq_ite fun _ => rfl
      | none =>
          have hdot : Continues (.token d :: .token w :: rest) := .of_kind (k := .dot) hd (by decide)
          rw [List.append_assoc, List.cons_append, List.singleton_append,
            h.builderCall_eq (by simp; omega) ⟨hdot, fun _ => ⟨he, hchain⟩⟩, if_neg (by simp; omega)]
          exact noChain_eq_ite fun _ => rfl
  | @call o c text text' f l ps inner start a b h hf hl ho hcatch hstart =>
      rw [List.append_assoc, List.singleton_append]
      have hgroup : Continues (.group o c inner :: rest) := .of_kind (k := .openParen) ho (by decide)
      cases hchain : f.chain? with
      | some names =>
          have htree : Tree.builder form (.mk .call text start c.stop [f, .mk .arguments text' a b l]) =
              .builder (some names) (Tree.options l) := by
            simp [Tree.builder, hchain, Tree.children]
          rw [h.builderCall_chain hchain (by simp [ho]), hgroup.skip, htree]
          simp [group?, ho, hl.options_eq, eq_comm, Script.Tree.node]
      | none =>
          rw [h.builderCall_eq (by simp; omega) ⟨hgroup, fun _ => ⟨hf, hchain⟩⟩, if_neg (by simp; omega)]
          refine noChain_eq_ite fun _ => ?_
          simp [Tree.builder, hchain, Scan.Call.noChain]
  | paren h ho hcatch => exact noChain_eq_ite fun h => absurd rfl h.2
  | array hl ho => exact noChain_eq_ite fun _ => rfl
  | object hl ho hobject => exact noChain_eq_ite fun _ => rfl
  | spread ht h =>
      rw [builderCall_of_kind (by simp [Piece.head, ht])]
      exact noChain_eq_ite fun _ => rfl
  | @operation t _ e f ps qs _ _ h he ht h' hf =>
      have hkind : t.kind ≠ .dot ∧ t.kind ≠ .openParen := by
        rcases isOperation_kind ht with ht | ht <;> simp [ht]
      have hrest' : Follows e (.token t :: (qs ++ rest)) :=
        .of_at (.of_operation ht) (by simp [hkind]) (by simp [hkind])
      rw [List.append_assoc, List.cons_append, h.builderCall_eq (by simp; omega) hrest', if_neg (by simp; omega)]
      exact noChain_eq_ite fun _ => rfl
  | @assign t e f ps qs _ _ h he ht h' =>
      have hrest' : Follows e (.token t :: (qs ++ rest)) :=
        .of_at (.of_kind (p := .token t) ht (by decide)) (by simp [ht])
          (by simp [ht])
      rw [List.append_assoc, List.cons_append, h.builderCall_eq (by simp; omega) hrest', if_neg (by simp; omega)]
      exact noChain_eq_ite fun _ => rfl
  | arrow hp ht h =>
      rw [List.cons_append, List.cons_append, builderCall_parameters hp ht]
      exact noChain_eq_ite fun _ => rfl
  | arrowBlock hp ht hl ho hobject =>
      rw [List.cons_append, List.cons_append, builderCall_parameters hp ht]
      exact noChain_eq_ite fun _ => rfl

theorem Value.unwrap_eq (h : Value e ps) (he : e.node ≠ .paren) (n : Nat) :
    Scan.Call.unwrap n ⟨ps ++ rest, rest.length⟩ = ⟨ps ++ rest, rest.length⟩ := by
  cases n with
  | zero => rfl
  | succ n =>
      rw [Scan.Call.unwrap]
      split
      · rename_i hgroup
        rw [if_neg (h.length_ne_of_group (k := .openParen) (fun h => he (Option.some.inj h.symm)) hgroup)]
      · rfl

theorem Value.builder_unwrap {e : Tree} {ps : List Piece} {rest : Place} {n : Nat} (h : Value e ps)
    (hrest : Follows e rest) (hn : Piece.sizes ps ≤ n) :
    builderCall (Scan.Call.unwrap n ⟨ps ++ rest, rest.length⟩) = e.builder form := by
  by_cases he : e.node = .paren
  · cases h with
    | @paren o c text e inner a b h ho hcatch =>
        cases n with
        | zero => simp [Piece.sizes, Piece.size] at hn
        | succ n =>
            have hinner : Piece.sizes inner ≤ n := by
              simp only [Piece.sizes, Piece.size] at hn
              omega
            have hbuilder := h.builder_unwrap Stops.nil.follows hinner
            rw [List.append_nil] at hbuilder
            rw [Tree.builder, ← hbuilder, List.singleton_append, Scan.Call.unwrap, group?, if_pos ho]
            simp only [if_true, Range.whole, List.length_nil]
    | literal ht => cases ht <;> cases he
    | _ => cases he
  · rw [h.unwrap_eq he, h.builderCall_eq (Nat.le_refl _) hrest, if_pos ⟨rfl, he⟩]

/-- A value that ends where the stretch ends is the builder call that the tree is. -/
theorem Value.builder_eq (h : Value e ps) (hrest : Follows e rest) :
    Scan.Call.builder ⟨ps ++ rest, rest.length⟩ = e.builder form := by
  rw [Plain.builder_eq]
  exact h.builder_unwrap hrest (by simp [sizes_append]; omega)

theorem Opens.not_at (h : Opens p) {w : String} (hw : w ∈ ["async", "function", "class"]) :
    atWord w (p :: rest) = false := by
  have hwords : ∀ w ∈ ["async", "function", "class"], w ∈ keywords ∧ w ∉ ["true", "false", "null"] := by decide
  cases p with
  | group o c inner => rfl
  | token t =>
      simp only [atWord, word?]
      split
      · rename_i hkind
        simp only [Option.some.injEq, decide_eq_false_iff_not]
        rintro rfl
        rcases h.word t rfl hkind with ht | ht
        · exact ht.text (hwords _ hw).1
        · exact (hwords _ hw).2 ht
      · rfl

/-- Behind the words that a function may begin with. -/
theorem body?_opens (h : Opens p) : Scan.Call.body? ⟨p :: rest, after⟩ =
    match p with
    | .token t => if t.kind = .word ∧ at? .arrow rest then Scan.Call.arrowBody? ⟨rest.tail, after⟩ else none
    | .group o _ _ =>
      if o.kind = .openParen ∧ afterArrowParameters rest then
        Scan.Call.arrowBody? ⟨(Place.find after (at? .arrow) rest).tail, after⟩
      else none := by
  rw [Scan.Call.body?]
  simp only [h.not_at (w := "async") (by decide), Bool.false_and, Bool.false_eq_true, if_false,
    h.not_at (w := "function") (by decide), h.types]
  cases p <;> rfl

/-- A value other than an arrow function is no function. -/
theorem Value.body?_eq_none (h : Value e ps) (he : e.node ≠ .arrow) (hrest : Continues rest) :
    Scan.Call.body? ⟨ps ++ rest, after⟩ = none := by
  obtain ⟨p, qs, rfl, hp, hqs⟩ := h.exists_opens
  rw [List.cons_append, body?_opens hp]
  have hcontinues := hqs he
  cases p with
  | token t =>
      refine if_neg ?_
      rintro ⟨hkind, harrow⟩
      rw [(hcontinues (.inl hkind) rest hrest).at_eq_false (by decide)] at harrow
      cases harrow
  | group o c inner =>
      refine if_neg ?_
      rintro ⟨hkind, harrow⟩
      rw [(hcontinues (.inr hkind) rest hrest).not_arrow] at harrow
      cases harrow

theorem body?_parameters (hp : Parameters e p) (ht : t.kind = .arrow) (hafter : after ≤ rest.length) :
    Scan.Call.body? ⟨p :: .token t :: rest, after⟩ = Scan.Call.arrowBody? ⟨rest, after⟩ := by
  have harrow : at? .arrow (.token t :: rest) = true := by simp [ht]
  rw [body?_opens hp.opens]
  cases hp with
  | group hl ho hinner =>
      have hskip : afterArrowParameters (.token t :: rest) = true := by simp [afterArrowParameters, ht]
      simp only [ho, hskip, and_self, if_true]
      rw [Place.find, if_neg (by omega), if_pos harrow, List.tail_cons]
  | single ht' => simp only [ht'.kind, harrow, and_self, if_true, List.tail_cons]

theorem Value.arrowBody?_eq (h : Value e ps) (he : e.node ≠ .object) :
    Scan.Call.arrowBody? ⟨ps ++ rest, rest.length⟩ = some (.value ⟨ps ++ rest, rest.length⟩) := by
  have hlength := List.length_pos_iff.2 h.ne_nil
  have hlong : ¬(ps ++ rest).length ≤ rest.length := by
    rw [List.length_append]
    omega
  have hempty : Range.isEmpty ⟨ps ++ rest, rest.length⟩ = false := decide_eq_false hlong
  rw [Scan.Call.arrowBody?, hempty]
  simp only [Bool.false_eq_true, if_false]
  split
  · rename_i hgroup
    rw [if_neg (h.length_ne_of_group (k := .openBrace) (fun h => he (Option.some.inj h.symm)) hgroup)]
  · rfl

/-! ### What a block returns -/

theorem firstReturn?_append (h : ∀ p ∈ ps, isWordPiece "return" p = false) :
    Scan.Call.firstReturn? (ps ++ rest) = Scan.Call.firstReturn? rest := by
  induction ps with
  | nil => rfl
  | cons p ps ih =>
      obtain ⟨hp, hps⟩ := List.forall_mem_cons.1 h
      rw [List.cons_append]
      cases p with
      | group o c inner => exact ih hps
      | token t =>
          rw [Scan.Call.firstReturn?, if_neg, ih hps]
          simpa [isWordPiece, isWord, and_assoc] using hp

/-- What the first return statement of a block returns is what the block yields. -/
theorem Statements.firstReturn?_eq (h : Statements l inner) :
    (match Scan.Call.firstReturn? inner with
      | some r => Scan.Call.builder r
      | none => Scan.Call.noChain) =
    match (l.find? (·.node = .result)).bind (·.children.head?) with
    | some e => e.builder form
    | none => Scan.Call.noChain := by
  induction l generalizing inner with
  | nil =>
      cases h
      rfl
  | cons e l ih =>
      cases h with
      | @cons e l ps qs h hl =>
          by_cases hnode : e.node = .result
          · cases h with
            | @result k s text e ps a b hk h hs =>
                simp only [isWord, Bool.and_eq_true, decide_eq_true_eq, Bool.not_eq_true'] at hk
                have hfollows : Follows e (.token s :: qs) := (Stops.semicolon (p := .token s) hs).follows
                rw [List.cons_append, List.append_assoc, List.singleton_append, Scan.Call.firstReturn?,
                  if_pos (by simp [hk]), h.statementEnd_semicolon hs]
                exact h.builder_eq hfollows
            | _ => cases hnode
          · have hskip := h.isWordPiece (v := "return") (by decide) fun hresult => absurd hresult hnode
            rw [firstReturn?_append hskip, ih hl, List.find?_cons_of_neg (by simpa using hnode)]

/-! ### What is passed -/

theorem Values.parts_eq_nil (h : Values l ps) (hparts : (Range.whole ps).parts = []) : l = [] := by
  cases h with
  | nil => rfl
  | last h =>
      rw [parts_last h.no_comma h.ne_nil] at hparts
      cases hparts
  | cons h hc hl =>
      rw [parts_cons h.no_comma hc] at hparts
      cases hparts

/-- What a call of the marker is passed. -/
def partsShape (parts : List Range) : CallShape :=
  match parts with
  | [r] =>
    match Scan.Call.body? r with
    | some (.block inner) =>
      match Scan.Call.firstReturn? inner with
      | some r => Scan.Call.builder r
      | none => Scan.Call.noChain
    | some (.value r) => Scan.Call.builder r
    | none => .notAFunction
  | _ => .notAFunction

theorem shape_parts (inner : List Piece) : Scan.Call.shape inner = partsShape (Range.whole inner).parts := rfl

theorem Value.yielded?_eq (h : Value e ps) : e.yielded? = some e := by
  cases h with
  | literal ht => cases ht <;> rfl
  | _ => rfl

theorem Value.shape_of_ne (h : Value e ps) (he : e.node ≠ .arrow) : Tree.shape form [e] = .notAFunction := by
  cases h with
  | literal ht => cases ht <;> rfl
  | arrow => exact absurd rfl he
  | arrowBlock => exact absurd rfl he
  | _ => rfl

theorem Value.shape_eq (h : Value e ps) (hrest : Stops rest) :
    partsShape [⟨ps ++ rest, rest.length⟩] = Tree.shape form [e] := by
  by_cases he : e.node = .arrow
  · cases h with
    | @arrow t text u e p ps a b hp ht h hobject =>
        have htree : Tree.shape form [.mk .arrow text a b [u, e]] = e.builder form := by
          simp [Tree.shape, h.yielded?_eq]
        rw [partsShape, List.cons_append, List.cons_append, body?_parameters hp ht (by simp), h.arrowBody?_eq hobject,
          htree]
        exact h.builder_eq hrest.follows
    | @arrowBlock t o c text text' u l p inner a b a' b' hp ht hl ho hobject =>
        have hbody : Scan.Call.arrowBody? ⟨.group o c inner :: rest, rest.length⟩ = some (.block inner) := by
          simp [Scan.Call.arrowBody?, Range.isEmpty, group?, ho]
        rw [partsShape, List.cons_append, List.cons_append, List.singleton_append, body?_parameters hp ht (by simp),
          hbody]
        exact hl.firstReturn?_eq
    | literal ht => cases ht <;> cases he
    | _ => cases he
  · rw [partsShape, h.body?_eq_none he hrest.continues, h.shape_of_ne he]

/-- What a call is passed is what the tree shows. -/
theorem Values.shape_eq (h : Values l inner) (form : Form) : Scan.Call.shape inner = Tree.shape form l := by
  rw [shape_parts]
  cases h with
  | nil => rfl
  | @last e _ h =>
      have hshape : partsShape [⟨inner ++ [], 0⟩] = Tree.shape form [e] := h.shape_eq .nil
      rw [List.append_nil] at hshape
      rw [parts_last h.no_comma h.ne_nil, ← hshape]
  | @cons c e l ps qs h hc hl =>
      rw [parts_cons h.no_comma hc]
      cases l with
      | nil =>
          rw [← h.shape_eq (.comma (p := .token c) hc)]
          cases hl with
          | nil => rfl
      | cons e' l =>
          have hshape : Tree.shape form (e :: e' :: l) = .notAFunction := by simp [Tree.shape]
          rw [hshape]
          cases hparts : (Range.whole qs).parts with
          | nil => exact absurd (hl.parts_eq_nil hparts) (List.cons_ne_nil _ _)
          | cons r parts => rfl

end Plain
end StaticGql
