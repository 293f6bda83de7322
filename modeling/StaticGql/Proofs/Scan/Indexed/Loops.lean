import StaticGql.Proofs.Scan.Indexed.Levels

/-!
Going through a level by numbers. Every search comes to the number of the place to which the search among pieces
comes, and a level splits into the same parts.
-/

namespace StaticGql.Scan.Indexed

open Place

variable {α β γ δ : Type} {R : α → β → Prop} {R' : γ → δ → Prop} {s : Table} {ts : List Token}
  {place next start : Place} {i j e after stop fuel : Nat}

/-! ### Answers that stand for others -/

/-- A checked computation comes to an answer that stands for the given one. -/
def Yields (R : α → β → Prop) (m : Checked α) (b : β) : Prop := ∃ a, m = .ok a ∧ R a b

namespace Yields

variable {m m' : Checked α} {a : α} {b b' : β}

theorem ok (h : R a b) : Yields R (.ok a) b := ⟨a, rfl, h⟩

theorem bind {f : α → Checked γ} {d : δ} (h : Yields R m b) (h' : ∀ a, R a b → Yields R' (f a) d) :
    Yields R' (m >>= f) d := by
  obtain ⟨a, rfl, ha⟩ := h
  exact h' a ha

theorem bind_ok {f : α → Checked γ} {d : δ} (h : m = .ok a) (h' : Yields R' (f a) d) : Yields R' (m >>= f) d := by
  rwa [h]

theorem ite {p q : Prop} [Decidable p] [Decidable q] (hpq : p ↔ q) (h : q → Yields R m b)
    (h' : ¬q → Yields R m' b') : Yields R (if p then m else m') (if q then b else b') := by
  by_cases hq : q
  · rw [if_pos hq, if_pos (hpq.2 hq)]
    exact h hq
  · rw [if_neg hq, if_neg (hpq.not.2 hq)]
    exact h' hq

theorem eq (h : Yields Eq m a) : m = .ok a := by
  obtain ⟨a', rfl, rfl⟩ := h
  rfl

theorem mono {R' : α → β → Prop} (h : Yields R m b) (hR : ∀ a, R a b → R' a b) : Yields R' m b := by
  obtain ⟨a, rfl, ha⟩ := h
  exact .ok (hR a ha)

end Yields

/-! ### Searches -/

theorem seek_yields {stops : Nat → Checked Bool} {p : Place → Bool} (h : At s ts i place stop)
    (hstop : StopsAt s ts place stop e after)
    (hstops : ∀ j q rest, q :: rest <:+ place → At s ts j (q :: rest) stop → stops j = .ok (p (q :: rest)))
    (hfuel : place.length < fuel) : Yields (At s ts · · stop) (s.seek stops e fuel i) (find after p place) := by
  induction place generalizing i fuel with
  | nil =>
      obtain ⟨fuel, rfl⟩ := Nat.exists_eq_add_one.2 hfuel
      have hi : ¬i < e := (hstop.lt_iff h).not.2 (Nat.not_lt_zero _)
      rw [Table.seek, if_neg hi]
      exact .ok h
  | cons q rest ih =>
      obtain ⟨fuel, rfl⟩ := Nat.exists_eq_add_one.2 (Nat.zero_lt_of_lt hfuel)
      rw [Table.seek, find]
      by_cases hi : i < e
      · have hrest := (hstop.lt_iff h).1 hi
        have hsuffix := List.suffix_cons q rest
        rw [if_pos hi, if_neg (by simp only [List.length_cons] at hrest; omega)]
        refine .bind_ok (hstops i q rest List.suffix_rfl h) (.ite Iff.rfl (fun _ => .ok h) fun _ => ?_)
        refine .bind_ok h.skip (ih h.behind (hstop.of_suffix hsuffix) (fun j q' rest' hq' => ?_) ?_)
        · exact hstops j q' rest' (hq'.trans hsuffix)
        · simpa using hfuel
      · have hrest := (hstop.lt_iff h).not.1 hi
        rw [if_neg hi, if_pos (by simp only [List.length_cons] at hrest; omega)]
        exact .ok h

theorem find_yields {stops : Nat → Checked Bool} {p : Place → Bool} (h : At s ts i place stop)
    (hstop : StopsAt s ts place stop e after)
    (hstops : ∀ j q rest, q :: rest <:+ place → At s ts j (q :: rest) stop → stops j = .ok (p (q :: rest))) :
    Yields (At s ts · · stop) (s.find stops e i) (find after p place) :=
  seek_yields h hstop hstops h.length_lt_fuel

theorem any_at?_eq (kinds : List TokenKind) (place : Place) :
    kinds.any (at? · place) = (kind? place).any (· ∈ kinds) := by
  cases hkind : kind? place with
  | none => simp [at?, hkind]
  | some k =>
      rw [Bool.eq_iff_iff]
      simp [at?, hkind]

theorem findKind_yields {kinds : List TokenKind} {p : Place → Bool} (h : At s ts i place stop)
    (hstop : StopsAt s ts place stop e after) (hkinds : ∀ k ∈ kinds, k.isClose = false)
    (hp : ∀ place, p place = (kind? place).any (· ∈ kinds)) :
    Yields (At s ts · · stop) (s.findKind kinds e i) (find after p place) := by
  refine find_yields h hstop fun j q rest _ hj => ?_
  rw [hp, ← any_at?_eq]
  congr 1
  rw [Bool.eq_iff_iff, List.any_eq_true, List.any_eq_true]
  refine exists_congr fun k => and_congr_right fun hk => ?_
  rw [hj.is k (hkinds k hk)]

theorem findOne_yields {k : TokenKind} (h : At s ts i place stop) (hstop : StopsAt s ts place stop e after)
    (hk : k.isClose = false) : Yields (At s ts · · stop) (s.findKind [k] e i) (find after (at? k) place) :=
  findKind_yields h hstop (by simpa using hk) fun place => by rw [← any_at?_eq]; simp

theorem holds_of_find {p : Place → Bool} (h : after < (find after p place).length) : p (find after p place) = true := by
  induction place with
  | nil => exact absurd h (Nat.not_lt_zero after)
  | cons q rest ih =>
      rw [find] at h ⊢
      split at h
      · rw [List.length_cons] at h
        omega
      · rw [if_neg ‹_›]
        split at h
        · rwa [if_pos ‹_›]
        · rw [if_neg ‹_›]
          exact ih h

theorem exists_found {k : TokenKind} (hj : At s ts j (find after (at? k) place) stop) (hk : k.isOpen = true)
    (hlevel : after < (find after (at? k) place).length) :
    ∃ o c inner rest, find after (at? k) place = .group o c inner :: rest ∧ o.kind = k :=
  hj.exists_group hk (holds_of_find hlevel)

/-! ### The end of a statement -/

theorem endsStatement_eq (stopAtComma : Bool) {p : Piece} {ps : Place} {j : Nat} (h : At s ts j (p :: ps) stop) (i : Nat) :
    s.endsStatement stopAtComma i j = .ok (at? .semicolon (p :: ps) || (stopAtComma && at? .comma (p :: ps)) ||
      (decide (i < j) && startsStatement (p :: ps))) := by
  rw [Table.endsStatement, h.is .semicolon rfl, h.is .comma rfl, h.is .word rfl, h.told.startsLine_eq h.head, h.textAt,
    h.told.isMember_eq h.head, startsStatement, h.word?_eq]
  cases at? .semicolon (p :: ps) || (stopAtComma && at? .comma (p :: ps))
  · cases at? .word (p :: ps)
    · simp
    · by_cases hij : i < j
      · cases hline : p.head.startsLine <;> simp [hij, hline, ok_bind, pure_eq, text, startsLine, isMember]
      · simp [hij]
  · rfl

/-- Behind a place that is no later than the end, a number; or the end itself. -/
theorem statementEnd_yields (stopAtComma : Bool) (h : At s ts i place stop) (hstop : StopsAt s ts place stop e after) :
    Yields (fun j next => At s ts j next stop ∨ j = e ∧ next.length ≤ after) (s.statementEnd stopAtComma e i)
      (statementEnd after stopAtComma place) := by
  have hfound : Yields (At s ts · · stop) (s.find (s.endsStatement stopAtComma i) e i)
      (statementEnd after stopAtComma place) := by
    have hfuel := h.length_lt_fuel
    cases place with
    | nil =>
        have hnone : Yields (At s ts · · stop) (s.find (s.endsStatement stopAtComma i) e i)
            (find after (fun _ => false) []) := find_yields h hstop fun _ _ _ hsuffix => by simp at hsuffix
        exact hnone
    | cons p ps =>
        obtain ⟨fuel, hfuel'⟩ := Nat.exists_eq_add_one.2 (Nat.zero_lt_of_lt hfuel)
        rw [Table.find, hfuel', Table.seek, statementEnd]
        rw [hfuel'] at hfuel
        by_cases hi : i < e
        · have hrest := (hstop.lt_iff h).1 hi
          rw [if_pos hi, if_neg (by simp only [List.length_cons] at hrest; omega)]
          refine .bind_ok (endsStatement_eq stopAtComma h i) (.ite ?_ (fun _ => .ok h) fun _ => .bind_ok h.skip ?_)
          · simp [at?, Place.kind?]
          · refine seek_yields h.behind (hstop.of_suffix (List.suffix_cons p ps)) (fun j q rest hsuffix hj => ?_) (by simpa using hfuel)
            obtain ⟨k, hk, hat⟩ := h.behind.of_suffix hsuffix
            have hkj : k = j := by
              have := hat.stop_eq
              have := hj.stop_eq
              omega
            have hpos := size_pos p
            rw [endsStatement_eq stopAtComma hj, decide_eq_true (show i < j by omega), Bool.true_and]
        · have hrest := (hstop.lt_iff h).not.1 hi
          rw [if_neg hi, if_pos (by simp only [List.length_cons] at hrest; omega)]
          exact .ok h
  obtain ⟨j, hj, hat⟩ := hfound
  refine ⟨min j e, by rw [Table.statementEnd, hj]; rfl, ?_⟩
  by_cases hje : j ≤ e
  · rw [Nat.min_eq_left hje]
    exact .inl hat
  · have hlength := ((hstop.of_suffix (statementEnd_suffix after stopAtComma place)).lt_iff hat).not.1 (by omega)
    exact .inr ⟨Nat.min_eq_right (by omega), by omega⟩

theorem statementEnd_level (stopAtComma : Bool) (h : At s ts i place stop) :
    Yields (At s ts · · stop) (s.statementEnd stopAtComma stop i) (statementEnd 0 stopAtComma place) := by
  refine (statementEnd_yields stopAtComma h (.level h)).mono fun j hj => ?_
  rcases hj with hj | ⟨rfl, hnext⟩
  · exact hj
  · rw [List.length_eq_zero_iff.1 (Nat.le_zero.1 hnext)]
    exact h.atStop

/-! ### Parts of a level -/

/-- A part of a level, by its numbers and by its pieces. -/
structure IsPart (s : Table) (ts : List Token) (stop : Nat) (part : Nat × Nat) (r : Range) : Prop where
  first : At s ts part.1 r.place stop
  stops : StopsAt s ts r.place stop part.2 r.after
  covers : Covers s ts part.1 r.pieces part.2

theorem isPart_of_append {used tail : Place} (h : At s ts i (used ++ tail) stop) (hj : At s ts j tail stop)
    (htail : ∀ t ∈ ts[j]?, t.kind.ends = true) : IsPart s ts stop (i, j) ⟨used ++ tail, tail.length⟩ := by
  refine ⟨h, .upTo hj (List.suffix_append used tail), ?_⟩
  rw [Range.pieces_between]
  have hi := h.stop_eq
  have hj' := hj.stop_eq
  rw [sizes_append] at hi
  refine ⟨h.told, ?_, by omega, fun p hp => h.entire p (List.mem_append_left tail hp), htail⟩
  rw [h.tokens, hj.tokens, Piece.allTokens_append, List.append_assoc]

theorem lastPart_yields {first : Nat} (h : At s ts first start stop) :
    Yields (List.Forall₂ (IsPart s ts stop)) (.ok (if first < stop then [(first, stop)] else []))
      (if 0 < start.length then [⟨start, 0⟩] else []) := by
  have hiff := (StopsAt.level h).lt_iff h
  by_cases hlt : 0 < start.length
  · have hpart : IsPart s ts stop (first, stop) ⟨start ++ [], List.length []⟩ :=
      isPart_of_append (by rwa [List.append_nil]) h.atStop h.ended
    rw [List.append_nil] at hpart
    rw [if_pos hlt, if_pos (hiff.2 hlt)]
    exact .ok (.cons hpart .nil)
  · rw [if_neg hlt, if_neg (hiff.not.2 hlt)]
    exact .ok .nil

theorem splitFrom_yields {first : Nat} (hfirst : At s ts first start stop) (h : At s ts i place stop)
    (hplace : place <:+ start) (hfuel : place.length < fuel) :
    Yields (List.Forall₂ (IsPart s ts stop)) (s.splitFrom stop fuel first i) (cut 0 start place) := by
  induction place generalizing first start i fuel with
  | nil =>
      obtain ⟨fuel, rfl⟩ := Nat.exists_eq_add_one.2 hfuel
      rw [Table.splitFrom, if_neg (by rw [h.eq_stop]; omega), cut]
      exact lastPart_yields hfirst
  | cons p rest ih =>
      obtain ⟨fuel, rfl⟩ := Nat.exists_eq_add_one.2 (Nat.zero_lt_of_lt hfuel)
      have hi : i < stop := ((StopsAt.level h).lt_iff h).2 (Nat.zero_lt_succ _)
      have hless : rest.length < fuel := by simpa using hfuel
      rw [Table.splitFrom, if_pos hi, cut, if_neg (Nat.not_lt_zero _), h.is .comma rfl]
      by_cases hcomma : p.head.kind = .comma
      · have hat : at? .comma (p :: rest) = true := by simpa [at?, Place.kind?] using hcomma
        obtain ⟨t, ps, hp, -⟩ := h.exists_token rfl hat
        cases hp
        obtain ⟨used, rfl⟩ := hplace
        have hpart : IsPart s ts stop (first, i) ⟨used ++ .token t :: rest, rest.length + 1⟩ := by
          refine isPart_of_append hfirst h fun u hu => ?_
          rw [h.head] at hu
          rw [← Option.some.inj hu, show (Piece.token t).head.kind = .comma from hcomma]
          rfl
        obtain ⟨parts, hparts, hrest⟩ := ih h.token h.token List.suffix_rfl hless
        rw [if_pos hat, if_pos hcomma, hparts]
        exact .ok (.cons hpart hrest)
      · have hat : ¬at? .comma (p :: rest) = true := by simpa [at?, Place.kind?] using hcomma
        rw [if_neg hat, if_neg hcomma]
        exact .bind_ok h.skip (ih hfirst h.behind ((List.suffix_cons p rest).trans hplace) hless)

theorem split_yields (h : At s ts i place stop) :
    Yields (List.Forall₂ (IsPart s ts stop)) (s.split i stop) (Range.whole place).parts :=
  splitFrom_yields h h List.suffix_rfl h.length_lt_fuel

/-! ### Types -/

def kindsInTypes : List TokenKind := [.word, .dot, .comma, .str, .number, .colon, .question]

theorem typeArgumentsFrom_token (depth : Int) (t : Token) (rest : Place) :
    typeArgumentsFrom depth (.token t :: rest) =
      if t.kind = .operator ∨ t.kind = .arrow then
        if depth + angles t.text ≤ 0 then (if depth + angles t.text = 0 then some rest else none)
        else typeArgumentsFrom (depth + angles t.text) rest
      else if t.kind ∈ kindsInTypes then typeArgumentsFrom depth rest
      else none := by
  rw [typeArgumentsFrom]
  cases t.kind <;> simp [kindsInTypes]

theorem isOpen_of_isClose {k : TokenKind} (h : k.isClose = true) : k.isOpen = false := by
  cases k <;> first | rfl | cases h

theorem not_mem_of_all {f : TokenKind → Bool} {k : TokenKind} {ks : List TokenKind} (h : f k = true)
    (hks : ks.all (!f ·) = true) : k ∉ ks := by
  intro hmem
  simpa [h] using List.all_eq_true.1 hks k hmem

theorem typeArgumentsFrom_yields (h : At s ts i place stop) (hfuel : place.length < fuel) (depth : Int) :
    Yields (Option.Rel (At s ts · · stop)) (s.typeArgumentsFrom fuel depth i) (typeArgumentsFrom depth place) := by
  induction place generalizing i fuel depth with
  | nil =>
      obtain ⟨fuel, rfl⟩ := Nat.exists_eq_add_one.2 hfuel
      rw [Table.typeArgumentsFrom, h.told.kind?_eq, h.eq_stop]
      cases ht : ts[stop]? with
      | none => exact .ok .none
      | some t =>
          have hclose := h.closes t ht
          have hoperator : ¬(t.kind = .operator ∨ t.kind = .arrow) := by
            rintro (hkind | hkind) <;> rw [hkind] at hclose <;> cases hclose
          rw [Option.map_some]
          simp only [hoperator, isOpen_of_isClose hclose, Bool.false_eq_true, if_false]
          rw [if_neg (not_mem_of_all hclose rfl)]
          exact .ok .none
  | cons p rest ih =>
      obtain ⟨fuel, rfl⟩ := Nat.exists_eq_add_one.2 (Nat.zero_lt_of_lt hfuel)
      have hless : rest.length < fuel := by simpa using hfuel
      rw [Table.typeArgumentsFrom, h.told.kind?_eq, h.head, Option.map_some]
      cases p with
      | group o c inner =>
          have hopen := h.isOpen_group
          have hoperator : ¬(o.kind = .operator ∨ o.kind = .arrow) := by
            rintro (hkind | hkind) <;> rw [hkind] at hopen <;> cases hopen
          simp only [Piece.head, hoperator, hopen, if_false, if_true]
          exact .bind_ok h.past (ih h.group hless depth)
      | token t =>
          simp only [Piece.head, h.isOpen_token, Bool.false_eq_true, if_false]
          rw [typeArgumentsFrom_token]
          refine .ite Iff.rfl (fun _ => ?_) fun _ => .ite Iff.rfl (fun _ => ih h.token hless depth) fun _ => .ok .none
          refine .bind_ok h.textAt (.ite Iff.rfl (fun _ => .ok ?_) fun _ => ih h.token hless _)
          by_cases hdepth : depth + angles t.text = 0
          · simpa only [Piece.head, hdepth, if_true] using .some h.token
          · simpa only [Piece.head, hdepth, if_false] using .none

theorem typeArguments_yields (h : At s ts i place stop) :
    Yields (Option.Rel (At s ts · · stop)) (s.typeArguments? i) (typeArguments? place) := by
  refine .bind_ok (h.given_is rfl _) (.ite Iff.rfl (fun _ => ?_) fun _ => .ok .none)
  exact typeArgumentsFrom_yields h h.length_lt_fuel 0

theorem skipTypeArguments_yields (h : At s ts i place stop) :
    Yields (At s ts · · stop) (s.skipTypeArguments i) (skipTypeArguments place) := by
  refine (typeArguments_yields h).bind fun a ha => ?_
  rw [skipTypeArguments]
  generalize typeArguments? place = o at ha
  cases ha with
  | none => exact .ok h
  | some hnext => exact .ok hnext

def kindsInReturnTypes : List TokenKind := [.word, .dot, .operator, .str, .number]

theorem arrowAfterType_token (t : Token) (rest : Place) : arrowAfterType (.token t :: rest) =
    if t.kind = .arrow then true else if t.kind ∈ kindsInReturnTypes then arrowAfterType rest else false := by
  rw [arrowAfterType]
  cases t.kind <;> simp [kindsInReturnTypes]

theorem arrowAfterType_yields (h : At s ts i place stop) (hfuel : place.length < fuel) :
    Yields Eq (s.arrowAfterType fuel i) (arrowAfterType place) := by
  induction place generalizing i fuel with
  | nil =>
      obtain ⟨fuel, rfl⟩ := Nat.exists_eq_add_one.2 hfuel
      rw [Table.arrowAfterType, h.told.kind?_eq, h.eq_stop]
      cases ht : ts[stop]? with
      | none => exact .ok rfl
      | some t =>
          have hclose := h.closes t ht
          have harrow : t.kind ≠ .arrow := fun hkind => by rw [hkind] at hclose; cases hclose
          rw [Option.map_some]
          simp only [harrow, isOpen_of_isClose hclose, Bool.false_eq_true, if_false]
          rw [if_neg (not_mem_of_all hclose rfl)]
          exact .ok rfl
  | cons p rest ih =>
      obtain ⟨fuel, rfl⟩ := Nat.exists_eq_add_one.2 (Nat.zero_lt_of_lt hfuel)
      have hless : rest.length < fuel := by simpa using hfuel
      rw [Table.arrowAfterType, h.told.kind?_eq, h.head, Option.map_some]
      cases p with
      | group o c inner =>
          have hopen := h.isOpen_group
          have harrow : o.kind ≠ .arrow := fun hkind => by rw [hkind] at hopen; cases hopen
          simp only [Piece.head, harrow, hopen, if_false, if_true]
          rw [if_neg (not_mem_of_all hopen rfl)]
          exact .bind_ok h.past (ih h.group hless)
      | token t =>
          simp only [Piece.head, h.isOpen_token, Bool.false_eq_true, if_false]
          rw [arrowAfterType_token]
          exact .ite Iff.rfl (fun _ => .ok rfl) fun _ => .ite Iff.rfl (fun _ => ih h.token hless) fun _ => .ok rfl

theorem closesArrowParameters_eq (h : At s ts (i + 1) place stop) :
    s.closesArrowParameters i = .ok (afterArrowParameters place) := by
  rw [Table.closesArrowParameters, h.is .arrow rfl, h.is .colon rfl]
  cases place with
  | nil => rfl
  | cons p rest =>
      cases p with
      | group o c inner =>
          rw [h.at?_group rfl, h.at?_group rfl]
          rfl
      | token t =>
          have harrow := (arrowAfterType_yields h.token h.token.length_lt_fuel).eq
          rw [afterArrowParameters, at?, at?, Place.kind?, Piece.head]
          cases t.kind <;> first | rfl | exact harrow

/-! ### Chains of names -/

theorem chainFrom_yields (h : At s ts i place stop) (hfuel : place.length < fuel) :
    Yields (fun a b => a.1 = b.1 ∧ At s ts a.2 b.2 stop) (s.chainFrom fuel i) (chain place) := by
  fun_induction chain place generalizing i fuel with
  | case1 d w rest hkinds names next hnext ih =>
      obtain ⟨fuel, rfl⟩ := Nat.exists_eq_add_one.2 (Nat.zero_lt_of_lt hfuel)
      have hless : rest.length < fuel := by
        simp only [List.length_cons] at hfuel
        omega
      obtain ⟨a, ha, hnames, hat⟩ := ih h.token.token hless
      rw [Table.chainFrom, h.is .dot rfl, h.token.is .word rfl, if_pos (by simp [at?, Place.kind?, Piece.head, hkinds])]
      rw [hnext] at hnames hat
      refine .bind_ok h.token.textAt ?_
      rw [ha]
      exact .ok ⟨congrArg _ hnames, hat⟩
  | case2 d w rest hkinds =>
      obtain ⟨fuel, rfl⟩ := Nat.exists_eq_add_one.2 (Nat.zero_lt_of_lt hfuel)
      rw [Table.chainFrom, h.is .dot rfl, h.token.is .word rfl, if_neg (by simpa [at?, Place.kind?, Piece.head] using hkinds)]
      exact .ok ⟨rfl, h⟩
  | case3 place hplace =>
      obtain ⟨fuel, rfl⟩ := Nat.exists_eq_add_one.2 (Nat.zero_lt_of_lt hfuel)
      rw [Table.chainFrom, if_neg]
      · exact .ok ⟨rfl, h⟩
      rw [Bool.and_eq_true, h.is .dot rfl]
      rintro ⟨hdot, hword⟩
      obtain ⟨d, ps, rfl, -⟩ := h.exists_token rfl hdot
      rw [h.token.is .word rfl] at hword
      obtain ⟨w, rest, rfl, -⟩ := h.token.exists_token rfl hword
      exact hplace d w rest rfl

theorem chain_yields {t : Token} {rest : Place} (h : At s ts i (.token t :: rest) stop) :
    Yields (fun a b => a.1 = t.text :: b.1 ∧ At s ts a.2 b.2 stop) (s.chain i) (chain rest) := by
  obtain ⟨a, ha, hnames, hat⟩ := chainFrom_yields h.token h.token.length_lt_fuel
  refine .bind_ok h.textAt ?_
  rw [ha]
  exact .ok ⟨congrArg _ hnames, hat⟩

end StaticGql.Scan.Indexed
