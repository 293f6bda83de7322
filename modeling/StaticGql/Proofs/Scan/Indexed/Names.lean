import StaticGql.Proofs.Scan.Indexed.Clauses
import StaticGql.Proofs.Unfold

/-!
The names of a stretch by numbers. What one step leads to is told by numbers as it is by places, and so is all that
is found in the end.
-/

namespace StaticGql.Scan.Indexed

open Place

/-- What is found step by step is the same if each step leads to the same. -/
theorem unfold_eq {ε τ τ' : Type} {step : τ → Checked (List (ε ⊕ τ))} {step' : τ' → List (ε ⊕ τ')}
    {R : Nat → τ → τ' → Prop}
    (hstep : ∀ n j t, R (n + 1) j t → Yields (List.Forall₂ (Sum.LiftRel Eq (R n))) (step j) (step' t))
    (hzero : ∀ j t, ¬R 0 j t) {n m : Nat} {j : τ} {t : τ'} (h : R n j t) (hm : n ≤ m) :
    unfold step m j = .ok (StaticGql.unfold step' n t) := by
  induction n generalizing m j t with
  | zero => exact absurd h (hzero j t)
  | succ n ih =>
      obtain ⟨m, rfl⟩ := Nat.exists_eq_add_one.2 (Nat.zero_lt_of_lt hm)
      obtain ⟨parts, hparts, hsame⟩ := hstep n j t h
      have hanswers {ps : List (ε ⊕ τ')} (hps : List.Forall₂ (Sum.LiftRel Eq (R n)) parts ps) :
          parts.mapM (Sum.elim (fun answer => .ok [answer]) (unfold step m)) = .ok (ps.map (answers step' n)) := by
        clear hparts hsame
        induction hps with
        | nil => rfl
        | cons hpart _ ih' =>
            rw [List.mapM_cons, ih']
            cases hpart with
            | inl h => rw [h]; rfl
            | inr h => rw [Sum.elim_inr, ih h (Nat.le_of_succ_le_succ hm)]; rfl
      rw [unfold, hparts, ok_bind, hanswers hsame, ok_bind, unfold_succ, List.flatMap_def]
      rfl

variable {s : Table} {ts : List Token} {place rest inner : Place} {o c t : Token} {p : Piece} {r : Range}
  {i e j after stop n : Nat}

namespace Table.Names

/-! ### Ways over names and types -/

theorem skipStar_yields (h : At s ts i place stop) :
    Yields (At s ts · · stop) (skipStar s i) (Scan.Names.skipStar place) :=
  .bind_ok (h.isOperator _) (.ok (h.over fun hstar => h.tail (k := .operator) rfl (Bool.and_eq_true_iff.1 hstar).1))

theorem at_skipWord (h : At s ts i place stop) : At s ts (skipWord s i) (Scan.Names.skipWord place) stop := by
  rw [skipWord, Scan.Names.skipWord, h.isSome_word?]
  exact h.overToken rfl rfl

theorem skipAnnotation_yields (stops : List TokenKind) (h : At s ts i place stop) (hstop : StopsAt s ts place stop e after)
    (hstops : ∀ k ∈ stops, k.isClose = false) :
    Yields (At s ts · · stop) ( skipAnnotation s e stops i) (Scan.Names.skipAnnotation after stops place) := by
  rw [ skipAnnotation, Scan.Names.skipAnnotation, h.is .colon rfl]
  exact .ite Iff.rfl (fun _ => findKind_yields h hstop hstops fun _ => rfl) fun _ => .ok h

theorem skipAnnotation_suffix (after : Nat) (stops : List TokenKind) (place : Place) :
    Scan.Names.skipAnnotation after stops place <:+ place :=
  ite_suffix (find_suffix ..) List.suffix_rfl

theorem afterVariable_suffix (after : Nat) (place : Place) : Scan.Names.afterVariable after place <:+ place := by
  refine (skipAnnotation_suffix ..).trans ?_
  split
  · exact List.suffix_cons ..
  · exact Scan.Names.skipWord_suffix _

theorem afterVariable_yields (h : At s ts i place stop) (hstop : StopsAt s ts place stop e after) :
    Yields (At s ts · · stop) (afterVariable s e i) (Scan.Names.afterVariable after place) := by
  have hstops : ∀ k ∈ [TokenKind.assign, .semicolon, .comma], k.isClose = false := by decide
  cases place with
  | nil =>
      have hopen : s.isOpen i = false := by
        rw [Table.isOpen, h.told.kind?_eq, h.eq_stop]
        cases ht : ts[stop]? with
        | none => rfl
        | some t => exact isOpen_of_isClose (h.closes t ht)
      rw [afterVariable, hopen]
      exact skipAnnotation_yields _ (at_skipWord h) hstop hstops
  | cons p rest =>
      rw [afterVariable, h.told.isOpen_eq h.head]
      cases p with
      | group o c inner =>
          rw [Piece.head, h.isOpen_group]
          exact .bind_ok h.past (skipAnnotation_yields _ h.group (hstop.of_suffix (List.suffix_cons ..)) hstops)
      | token t =>
          rw [Piece.head, h.isOpen_token]
          exact skipAnnotation_yields _ (at_skipWord h) (hstop.of_suffix (Scan.Names.skipWord_suffix _)) hstops

theorem past_yields (h : At s ts i place stop) : Yields (At s ts · · stop) (given (s.is .openParen i) (s.past i) i)
    (match group? .openParen place with
      | some (_, rest) => rest
      | none => place) := by
  rw [h.is .openParen rfl]
  cases hat : at? .openParen place with
  | false =>
      rw [group?_eq_none hat]
      exact .ok h
  | true =>
      obtain ⟨o, c, inner, rest, rfl, hkind⟩ := h.exists_group rfl hat
      rw [group?, if_pos hkind]
      exact ⟨_, h.past, h.group⟩

theorem behindParens_suffix (place : Place) : (match group? .openParen place with
      | some (_, rest) => rest
      | none => place) <:+ place := by
  split
  · exact suffix_of_group ‹_›
  · exact List.suffix_rfl

theorem afterFunction_suffix (after : Nat) (place : Place) : Scan.Names.afterFunction after place <:+ place :=
  (skipAnnotation_suffix ..).trans ((behindParens_suffix _).trans ((skipTypeArguments_suffix _).trans
    ((Scan.Names.skipWord_suffix _).trans (Scan.Names.skipStar_suffix place))))

theorem afterFunction_yields (h : At s ts i place stop) (hstop : StopsAt s ts place stop e after) :
    Yields (At s ts · · stop) (afterFunction s e i) (Scan.Names.afterFunction after place) := by
  refine (skipStar_yields h).bind fun j hj => (skipTypeArguments_yields (at_skipWord hj)).bind fun j hj => ?_
  refine (past_yields hj).bind fun j hj => skipAnnotation_yields _ hj (hstop.of_suffix ?_) (by decide)
  exact (behindParens_suffix _).trans ((skipTypeArguments_suffix _).trans
    ((Scan.Names.skipWord_suffix _).trans (Scan.Names.skipStar_suffix place)))

theorem afterCast_suffix (after : Nat) (place : Place) : Scan.Names.afterCast after place <:+ place :=
  (skipTypeArguments_suffix _).trans (find_suffix ..)

theorem afterCast_yields (h : At s ts i place stop) (hstop : StopsAt s ts place stop e after) :
    Yields (At s ts · · stop) (afterCast s e i) (Scan.Names.afterCast after place) := by
  refine (find_yields h hstop fun j q rest _ hj => ?_).bind fun j hj => skipTypeArguments_yields hj
  rw [hj.is .word rfl, hj.is .dot rfl, hj.word?_eq]
  cases at? .word (q :: rest) <;> rfl

/-! ### Steps -/

theorem ofWord_yields (h : At s ts i (.token t :: rest) stop) (hstop : StopsAt s ts (.token t :: rest) stop e after) :
    Yields (fun a b => a.1 = b.1 ∧ At s ts a.2 b.2 stop ∧ b.2 <:+ rest) (ofWord s e i) (Scan.Names.ofWord after t rest) := by
  have hrest := hstop.of_suffix (List.suffix_cons (.token t) rest)
  have hnone {next : Place} {m : Checked Nat} (hm : Yields (At s ts · · stop) m next) (hnext : next <:+ rest) :
      Yields (fun a b => a.1 = b.1 ∧ At s ts a.2 b.2 stop ∧ b.2 <:+ rest)
        (do return (([] : List String), ← m)) (([] : List String), next) :=
    hm.bind fun j hj => .ok ⟨rfl, hj, hnext⟩
  have hskip : Yields (fun a b => a.1 = b.1 ∧ At s ts a.2 b.2 stop ∧ b.2 <:+ rest)
      (.ok (([] : List String), i + 1)) (([] : List String), rest) := .ok ⟨rfl, h.token, List.suffix_rfl⟩
  have hclass : Yields (fun a b => a.1 = b.1 ∧ At s ts a.2 b.2 stop ∧ b.2 <:+ rest)
      (do return (([] : List String), if s.is .word (i + 1) && !(← s.isWord "extends" (i + 1)) then i + 2 else i + 1))
      (([] : List String), if (Place.word? rest).isSome ∧ !atWord "extends" rest then rest.tail else rest) := by
    refine .bind_ok (h.token.isWord _) (.ok ⟨rfl, ?_, tail_or_self_suffix _ rest⟩)
    rw [h.token.is .word rfl]
    simp only [h.token.isSome_word?, ← Bool.and_eq_true]
    exact h.token.over fun hword => h.token.tail rfl (Bool.and_eq_true_iff.1 hword).1
  rw [ofWord, Scan.Names.ofWord, h.told.isMember_eq h.head, h.told.previous?_eq h.head]
  refine .ite Iff.rfl (fun _ => hskip) fun _ => .bind_ok h.textAt ?_
  refine .ite Iff.rfl (fun _ => hnone (afterVariable_yields h.token hrest) (afterVariable_suffix after rest)) fun _ => ?_
  refine .ite Iff.rfl (fun _ => hnone (afterFunction_yields h.token hrest) (afterFunction_suffix after rest)) fun _ => ?_
  refine .ite Iff.rfl (fun _ => hclass) fun _ => ?_
  refine .ite Iff.rfl (fun _ => hnone (afterCast_yields h.token hrest) (afterCast_suffix after rest)) fun _ => ?_
  refine .ite Iff.rfl (fun _ => hskip) fun _ => ?_
  rw [h.token.is .arrow rfl, h.token.is .colon rfl]
  refine .ite Iff.rfl (fun _ => hskip) fun _ => .ite Iff.rfl (fun hlabel => ?label) fun _ => ?word
  case label => exact .ok ⟨rfl, h.token.tail rfl hlabel.1, List.tail_suffix rest⟩
  case word => exact .ok ⟨rfl, h.token, List.suffix_rfl⟩

/-- A task by numbers and the same task by places, small enough for `n` more steps. -/
inductive Fits (s : Table) (ts : List Token) (n : Nat) : Job → Scan.Names.Task → Prop
  | stretch {i e stop : Nat} {r : Range} (first : At s ts i r.place stop) (stops : StopsAt s ts r.place stop e r.after)
      (small : Piece.sizes r.place < n) : Fits s ts n (.stretch i e) (.stretch r)
  | object {i close : Nat} {inner : List Piece} (inside : At s ts (i + 1) inner close)
      (small : Piece.sizes inner + 1 < n) : Fits s ts n (.object i close) (.object inner)

/-- What a step leads to. -/
def Leads (s : Table) (ts : List Token) (n : Nat) : List Part → Scan.Names.Step → Prop :=
  List.Forall₂ (Sum.LiftRel Eq (Fits s ts n))

namespace Leads

theorem names (s : Table) (ts : List Token) (n : Nat) (names : List String) :
    Leads s ts n (names.map .inl) (names.map .inl) := by
  induction names with
  | nil => exact List.Forall₂.nil
  | cons name names ih => exact List.Forall₂.cons (.inl rfl) ih

theorem go (h : At s ts i place stop) (hstop : StopsAt s ts place stop e after) (hn : Piece.sizes place < n) :
    Leads s ts n [stretch i e] (Scan.Names.go after place) :=
  List.Forall₂.cons (.inr (.stretch h hstop hn)) .nil

theorem inside (h : At s ts i inner stop) (hn : Piece.sizes inner < n) :
    Leads s ts n [stretch i stop] (Scan.Names.go 0 inner) := go h (.level h) hn

theorem append {parts parts' : List Part} {step step' : Scan.Names.Step} (h : Leads s ts n parts step)
    (h' : Leads s ts n parts' step') : Leads s ts n (parts ++ parts') (step ++ step') := List.rel_append h h'

end Leads

theorem isEmpty_eq_false (h : At s ts i place stop) (hstop : StopsAt s ts place stop e after) (hi : i < e) :
    (Range.mk place after).isEmpty = false := decide_eq_false (Nat.not_le.2 ((hstop.lt_iff h).1 hi))

theorem stretchStep_token (h : At s ts i (.token t :: rest) stop) (hstop : StopsAt s ts (.token t :: rest) stop e after)
    (hi : i < e) (hn : Piece.sizes rest < n) :
    Yields (Leads s ts n) (stretchStep s i e) (Scan.Names.stretchStep ⟨.token t :: rest, after⟩) := by
  have hlevel := isEmpty_eq_false h hstop hi
  have hgo {j : Nat} {next : Place} (hj : At s ts j next stop) (hnext : next <:+ rest) :
      Leads s ts n [stretch j e] (Scan.Names.go after next) :=
    .go hj (hstop.of_suffix (hnext.trans (List.suffix_cons ..))) ((sizes_le_of_suffix hnext).trans_lt hn)
  rw [stretchStep, Scan.Names.stretchStep, if_pos hi, hlevel, if_neg Bool.false_ne_true,
    h.is_opening (k := .openParen) rfl, h.is_opening (k := .openBrace) rfl, h.is_opening (k := .openBracket) rfl,
    h.is .word rfl, h.is .operator rfl, at?_token, at?_token]
  refine .ite decide_eq_true_iff (fun _ => ?word) fun _ => ?other
  case word =>
    refine (ofWord_yields h hstop).bind fun a ha => ?_
    obtain ⟨hnames, hat, hnext⟩ := ha
    obtain ⟨names, j⟩ := a
    obtain rfl : names = _ := hnames
    exact .ok (.append (.names ..) (hgo hat hnext))
  case other =>
    simp only [Bool.false_eq_true, if_false]
    by_cases hoperator : t.kind = .operator
    · rw [if_pos (decide_eq_true hoperator), h.textAt, ok_bind, Piece.head]
      refine .ite (and_iff_right hoperator).symm (fun _ => ?_) fun _ => .ok (hgo h.token List.suffix_rfl)
      refine (typeArguments_yields h).bind fun a ha => ?_
      generalize htypes : Place.typeArguments? (.token t :: rest) = types at ha
      cases ha with
      | none => exact .ok (hgo h.token List.suffix_rfl)
      | @some j next hj =>
          have hthen := hj.is .openParen rfl
          simp only [hthen]
          cases hparen : at? .openParen next with
          | false => exact .ok (hgo h.token List.suffix_rfl)
          | true =>
              have hnext : next <:+ .token t :: rest := by
                rw [Place.typeArguments?] at htypes
                split at htypes
                · exact suffix_of_typeArgumentsFrom htypes
                · cases htypes
              rcases List.suffix_cons_iff.1 hnext with rfl | hnext
              · rw [at?_token, decide_eq_true_iff] at hparen
                rw [hparen] at hoperator
                cases hoperator
              · exact .ok (hgo hj hnext)
    · rw [if_neg (by simpa using hoperator), if_neg fun h => hoperator h.1]
      exact .ok (hgo h.token List.suffix_rfl)

theorem opening_cases {k : TokenKind} (h : k.isOpen = true) : k = .openParen ∨ k = .openBrace ∨ k = .openBracket := by
  cases k <;> simp_all [TokenKind.isOpen, TokenKind.closer?]

theorem stretchStep_group (h : At s ts i (.group o c inner :: rest) stop)
    (hstop : StopsAt s ts (.group o c inner :: rest) stop e after) (hi : i < e)
    (hn : Piece.sizes inner + 1 < n ∧ Piece.sizes rest < n) :
    Yields (Leads s ts n) (stretchStep s i e) (Scan.Names.stretchStep ⟨.group o c inner :: rest, after⟩) := by
  have hlevel := isEmpty_eq_false h hstop hi
  have hinside : Leads s ts n [stretch (i + 1) (i + Piece.sizes inner + 1)] (Scan.Names.go 0 inner) :=
    .inside h.inside (by omega)
  have hbehind : Leads s ts n [stretch (i + Piece.sizes inner + 2) e] (Scan.Names.go after rest) :=
    .go h.group (hstop.of_suffix (List.suffix_cons ..)) hn.2
  have hparameters := closesArrowParameters_eq (i := i + Piece.sizes inner + 1) h.group
  have hcatch : s.follows "catch" i = .ok (o.follows "catch") := h.told.follows_eq _ h.head
  have hobject : s.opensObject i = .ok o.opensObject := h.told.opensObject_eq h.head
  rw [stretchStep, Scan.Names.stretchStep, if_pos hi, hlevel, if_neg Bool.false_ne_true,
    h.is .word rfl, h.is .openParen rfl, h.is .openBrace rfl, h.is .openBracket rfl, h.partner, ok_bind,
    hparameters, ok_bind, hcatch, ok_bind, ok_bind, hobject, ok_bind, ok_bind]
  simp only [at?_group]
  rcases opening_cases h.isOpen_group with hkind | hkind | hkind <;> simp only [hkind]
  · refine .ok (.append ?_ hbehind)
    generalize (afterArrowParameters rest || o.follows "catch") = parameters
    cases parameters with
    | true => exact List.Forall₂.nil
    | false => exact hinside
  · refine .ok (@Leads.append _ _ _ [_] _ _ _ ?_ hbehind)
    generalize o.opensObject = object
    cases object with
    | true => exact List.Forall₂.cons (.inr (.object h.inside hn.1)) .nil
    | false => exact hinside
  · exact .ok (.append hinside hbehind)

theorem stretchStep_yields (h : At s ts i r.place stop) (hstop : StopsAt s ts r.place stop e r.after)
    (hn : Piece.sizes r.place < n + 1) : Yields (Leads s ts n) (stretchStep s i e) (Scan.Names.stretchStep r) := by
  obtain ⟨place, after⟩ := r
  by_cases hi : i < e
  · cases place with
    | nil => exact absurd ((hstop.lt_iff h).1 hi) (Nat.not_lt_zero after)
    | cons p rest =>
        rw [Piece.sizes] at hn
        cases p with
        | token t => exact stretchStep_token h hstop hi (by rw [Piece.size] at hn; omega)
        | group o c inner => exact stretchStep_group h hstop hi (by rw [Piece.size] at hn; omega)
  · have hempty : (Range.mk place after).isEmpty = true :=
      decide_eq_true (Nat.not_lt.1 ((hstop.lt_iff h).not.1 hi))
    rw [stretchStep, if_neg hi, Scan.Names.stretchStep, hempty]
    exact .ok List.Forall₂.nil

/-! ### Fields -/

theorem pastFound_yields (h : At s ts j (Place.find after (at? .openParen) place) stop)
    (hstop : StopsAt s ts place stop e after) : Yields (At s ts · · stop) (given (j < e) (s.past j) j)
      (if (Place.find after (at? .openParen) place).length ≤ after then Place.find after (at? .openParen) place
        else (Place.find after (at? .openParen) place).tail) := by
  have hlt := (hstop.of_suffix (find_suffix ..)).lt_iff h
  by_cases hnone : (Place.find after (at? .openParen) place).length ≤ after
  · rw [if_pos hnone, decide_eq_false (hlt.not.2 (Nat.not_lt.2 hnone))]
    exact .ok h
  · obtain ⟨o, c, inner, rest, hfound, -⟩ := exists_found h rfl (Nat.not_le.1 hnone)
    rw [if_neg hnone, decide_eq_true (hlt.2 (Nat.not_le.1 hnone)), hfound]
    rw [hfound] at h
    exact ⟨_, h.past, h.group⟩

theorem methodStep_yields (h : At s ts i r.place stop) (hstop : StopsAt s ts r.place stop e r.after)
    (hn : Piece.sizes r.place ≤ n) : Yields (Leads s ts n) (methodStep s i e) (Scan.Names.methodStep r) := by
  have hplace := ite_suffix (p := (Place.find r.after (at? .openParen) r.place).length ≤ r.after) List.suffix_rfl
    (List.tail_suffix (Place.find r.after (at? .openParen) r.place)) |>.trans (find_suffix r.after (at? .openParen) r.place)
  refine (findOne_yields h hstop rfl).bind fun j hj => (pastFound_yields hj hstop).bind fun j hj => ?_
  rw [Scan.Names.methodStep]
  generalize (if (Place.find r.after (at? .openParen) r.place).length ≤ r.after then
    Place.find r.after (at? .openParen) r.place else (Place.find r.after (at? .openParen) r.place).tail) = place at hj hplace ⊢
  have hrest := hstop.of_suffix hplace
  refine (findOne_yields hj hrest rfl).bind fun body hbody => ?_
  have hlt := (hrest.of_suffix (find_suffix r.after (at? .openBrace) place)).lt_iff hbody
  by_cases hnone : (Place.find r.after (at? .openBrace) place).length ≤ r.after
  · rw [if_pos hnone, if_neg (hlt.not.2 (Nat.not_lt.2 hnone))]
    exact .ok .nil
  · obtain ⟨o, c, inner, rest, hfound, hkind⟩ := exists_found hbody rfl (Nat.not_le.1 hnone)
    have hsize := sizes_le_of_suffix ((find_suffix r.after (at? .openBrace) place).trans hplace)
    rw [if_neg hnone, if_pos (hlt.2 (Nat.not_le.1 hnone)), hfound, group?, if_pos hkind]
    rw [hfound] at hbody hsize
    rw [Piece.sizes, Piece.size] at hsize
    exact .bind_ok hbody.partner (.ok (.inside hbody.inside (by omega)))

theorem fieldStep_yields (h : At s ts i r.place stop) (hstop : StopsAt s ts r.place stop e r.after)
    (hn : Piece.sizes r.place ≤ n) : Yields (Leads s ts n) (fieldStep s i e) (Scan.Names.fieldStep r) := by
  have hmethod := methodStep_yields h hstop hn
  obtain ⟨place, after⟩ := r
  have hgo {j : Nat} {next : Place} (hj : At s ts j next stop) (hnext : next <:+ place)
      (hsize : Piece.sizes next < Piece.sizes place) : Leads s ts n [stretch j e] (Scan.Names.go after next) :=
    .go hj (hstop.of_suffix hnext) (hsize.trans_le hn)
  rw [fieldStep, Scan.Names.fieldStep, h.is .ellipsis rfl, h.is .word rfl, h.is .str rfl, h.is .number rfl,
    h.is .openBracket rfl]
  cases place with
  | nil => exact hmethod
  | cons p rest =>
      have hsuffix := List.suffix_cons p rest
      cases p with
      | group o c inner => 
          have hcolon : given (at? .openBracket (.group o c inner :: rest)) (do return s.is .colon (← s.past i)) false =
              .ok (decide (o.kind = .openBracket) && at? .colon rest) := by
            rw [at?_group, h.past, ok_bind, h.group.is .colon rfl, pure_eq, given_ok _ fun _ => rfl]
            cases decide (o.kind = .openBracket) <;> rfl
          rw [h.at?_group (k := .ellipsis) rfl, h.at?_group (k := .word) rfl, h.at?_group (k := .str) rfl,
            h.at?_group (k := .number) rfl, hcolon]
          refine .bind_ok rfl (.ite (by simp) (fun hcomputed => ?_) fun _ => hmethod)
          obtain ⟨hkind, hcolon⟩ := hcomputed
          simp only [Piece.sizes, Piece.size] at hn hgo
          refine .bind_ok h.partner (.ok (@Leads.append _ _ _ [_] _ _ _ (.inside h.inside (by omega)) ?_))
          have hvalue := sizes_le_of_suffix (List.tail_suffix rest)
          exact hgo (h.group.tail (k := .colon) rfl hcolon) ((List.tail_suffix rest).trans hsuffix) (by omega)
      | token t =>
          have hlast : e = i + 1 ↔ rest.length = after := (hstop.of_suffix hsuffix).eq_iff h.token
          have hvalue := sizes_le_of_suffix (List.tail_suffix rest)
          simp only [Piece.sizes, Piece.size] at hn hgo
          rw [h.token.is .colon rfl, at?_token, at?_token, at?_token, at?_token, at?_token, h.textAt]
          refine .ite decide_eq_true_iff (fun _ => .ok (hgo h.token hsuffix (by omega))) fun _ => ?_
          refine .ite (by simp [or_assoc]) (fun hkey => ?_) fun _ => ?_
          · exact .ok (hgo (h.token.tail (k := .colon) rfl hkey.2) ((List.tail_suffix rest).trans hsuffix) (by omega))
          · have hopening : decide (t.kind = .openBracket) = false := by
              have := h.is_opening (k := .openBracket) rfl
              rwa [h.told.is_eq h.head] at this
            rw [hopening]
            refine .bind_ok rfl ?_
            rw [if_neg Bool.false_ne_true]
            refine .ite (by simp [hlast]) (fun _ => .bind_ok rfl ?_) fun _ => hmethod
            by_cases hreserved : t.text ∈ Scan.Names.reserved
            · exact .ok (by rw [Piece.head, if_pos hreserved, if_pos hreserved]; exact .nil)
            · exact .ok (by rw [Piece.head, if_neg hreserved, if_neg hreserved]; exact .names s ts n [t.text])

theorem step_yields {job : Job} {task : Scan.Names.Task} (h : Fits s ts (n + 1) job task) :
    Yields (Leads s ts n) (step s job) (Scan.Names.step task) := by
  cases h with
  | stretch first stops small => exact stretchStep_yields first stops small
  | @object i close inner inside small =>
      refine (split_yields inside).bind fun parts hparts => ?_
      have hfields : Yields (List.Forall₂ (Leads s ts n)) (parts.mapM fun part => fieldStep s part.1 part.2)
          ((Range.whole inner).parts.map Scan.Names.fieldStep) := by
        refine mapM_parts hparts fun part r hr hpart => ?_
        have hsize : Piece.sizes r.place ≤ Piece.sizes inner := sizes_le_of_suffix (suffix_of_parts hr)
        exact fieldStep_yields hpart.first hpart.stops (by omega)
      rw [Scan.Names.step, List.flatMap_def]
      exact hfields.bind fun steps hsteps => .ok (List.rel_flatten hsteps)

theorem not_fits_zero (job : Job) (task : Scan.Names.Task) : ¬Fits s ts 0 job task := by
  rintro (⟨-, -, h⟩ | ⟨-, h⟩) <;> exact Nat.not_lt_zero _ h

theorem between_eq (h : At s ts i r.place stop) (hstop : StopsAt s ts r.place stop e r.after) :
    between s i e = .ok (Scan.Names.ofRange r) :=
  unfold_eq (R := Fits s ts) (fun _ _ _ => step_yields) not_fits_zero (.stretch h hstop (Nat.lt_succ_self _))
    (Nat.succ_le_succ h.sizes_le)

end Table.Names
end StaticGql.Scan.Indexed
