import StaticGql.Json.Printer
import StaticGql.Json.Reader

/-!
The text of a number is read as a whole, whatever follows it. An integer of sixty-four bits comes back
as it was; of any other number it is only said that no such integer comes of it.
-/

namespace StaticGql.Json

/-- A text that a number does not go on into. -/
def Stops (cs : List Char) : Prop :=
  ∀ c rest, cs = c :: rest → c.isDigit = false ∧ c ≠ '.' ∧ c ≠ 'e' ∧ c ≠ 'E'

theorem stops_nil : Stops [] := by
  intro c rest h
  cases h

theorem stops_cons {c : Char} {rest : List Char}
    (h : c.isDigit = false ∧ c ≠ '.' ∧ c ≠ 'e' ∧ c ≠ 'E') : Stops (c :: rest) := by
  intro c' rest' he
  cases he
  exact h

namespace Number

/-- The number is a fraction, or there is none. -/
def IsReal (o : Option Number) : Prop := ∀ n, o = some n → ∃ x, n = .real x

theorem isReal_none : IsReal none := by
  intro n h
  cases h

end Number

/-! ### Digits -/

theorem takeWhile_digits {ds rest : List Char} (h : ∀ c ∈ ds, c.isDigit = true)
    (hrest : ∀ c cs, rest = c :: cs → c.isDigit = false) :
    (ds ++ rest).takeWhile Char.isDigit = ds ∧ (ds ++ rest).dropWhile Char.isDigit = rest := by
  rw [List.takeWhile_append_of_pos h, List.dropWhile_append_of_pos h]
  cases rest with
  | nil => simp
  | cons c cs => simp [hrest c cs rfl]

theorem isDigit_of_stops {rest : List Char} (h : Stops rest) :
    ∀ c cs, rest = c :: cs → c.isDigit = false :=
  fun c cs he => (h c cs he).1

/-- Digits that make a number that fits a word are all taken in. -/
theorem appendDigits_eq (ds : List Char) (acc : Nat) (hacc : acc ≤ maxWord) :
    (Nat.ofDigitChars 10 ds acc ≤ maxWord → appendDigits ds acc = (Nat.ofDigitChars 10 ds acc, 0)) ∧
      (maxWord < Nat.ofDigitChars 10 ds acc → (appendDigits ds acc).2 ≠ 0) := by
  induction ds generalizing acc with
  | nil => exact ⟨fun _ => rfl, fun h => absurd h (Nat.not_lt.2 hacc)⟩
  | cons c cs ih =>
      have hnext : acc * 10 + digitValue c = 10 * acc + (c.toNat - '0'.toNat) := by
        rw [Nat.mul_comm]
        rfl
      have hmono : ∀ (cs : List Char) (a : Nat), a ≤ Nat.ofDigitChars 10 cs a := by
        intro cs a
        rw [Nat.ofDigitChars_eq_ofDigitChars_zero]
        have := Nat.le_mul_of_pos_left a (Nat.pow_pos (n := cs.length) (by decide : 0 < 10))
        omega
      rw [Nat.ofDigitChars_cons, ← hnext, appendDigits]
      by_cases hle : acc * 10 + digitValue c ≤ maxWord
      · rw [if_pos hle]
        exact ih _ hle
      · rw [if_neg hle]
        have := hmono cs (acc * 10 + digitValue c)
        refine ⟨fun h => absurd (Nat.le_trans this h) hle, fun _ => by simp⟩

/-! ### Fractions and exponents -/

theorem realOf_isReal (negative : Bool) (significand : Nat) (exponent : Int) :
    Number.IsReal (realOf negative significand exponent) := by
  intro n h
  obtain ⟨f, -, rfl⟩ := Option.map_eq_some_iff.1 h
  exact ⟨_, rfl⟩

/-- What may follow the digits of a number: nothing, or an exponent with its sign. -/
inductive IsExponent : List Char → Prop
  | none : IsExponent []
  | some {sign : Char} {ds : List Char} (hsign : sign = '+' ∨ sign = '-') (hne : ds ≠ [])
      (hds : ∀ c ∈ ds, c.isDigit = true) : IsExponent ('e' :: sign :: ds)

theorem withExponent_stops {rest : List Char} (h : Stops rest) (negative : Bool) (significand : Nat)
    (exponent : Int) : withExponent negative significand exponent rest =
      (realOf negative significand exponent).map (·, rest) := by
  cases rest with
  | nil => rfl
  | cons c cs =>
      have := h c cs rfl
      rw [withExponent, if_neg (by simp [this])]

theorem exponentPart_digits {sign : Char} {ds rest : List Char} (hsign : sign = '+' ∨ sign = '-')
    (hne : ds ≠ []) (hds : ∀ c ∈ ds, c.isDigit = true) (hrest : Stops rest) :
    exponentPart (sign :: ds ++ rest) =
      some (decide (sign = '-'), ds.foldl (fun n c => n * 10 + digitValue c) 0, rest) := by
  obtain ⟨htake, hdrop⟩ := takeWhile_digits hds (isDigit_of_stops hrest)
  have hempty : ds.isEmpty = false := by simpa using hne
  rcases hsign with rfl | rfl
  · simp [exponentPart, htake, hdrop, hempty]
  · simp [exponentPart, htake, hdrop, hempty]

theorem withExponent_spec {tail : List Char} (h : IsExponent tail) (negative : Bool)
    (significand : Nat) (exponent : Int) : ∃ o, Number.IsReal o ∧ ∀ rest, Stops rest →
      withExponent negative significand exponent (tail ++ rest) = o.map (·, rest) := by
  cases h with
  | none => exact ⟨_, realOf_isReal _ _ _, fun rest hrest => withExponent_stops hrest _ _ _⟩
  | @some sign ds hsign hne hds =>
      let e := ds.foldl (fun n c => n * 10 + digitValue c) 0
      refine ⟨if maxExponent < e then
          if significand ≠ 0 ∧ !decide (sign = '-') then none else some (.real ⟨negative, 0⟩)
        else realOf negative significand
          (if decide (sign = '-') then exponent - e else exponent + e), ?_, fun rest hrest => ?_⟩
      · split
        · split
          · exact fun n h => by cases h
          · exact fun n h => by cases h; exact ⟨_, rfl⟩
        · exact realOf_isReal _ _ _
      · rw [List.cons_append, withExponent, if_pos (.inl rfl)]
        rw [exponentPart_digits hsign hne hds hrest]
        simp only [Option.bind_eq_bind, Option.bind_some]
        by_cases hmax : maxExponent < e
        · rw [if_pos hmax, if_pos hmax]
          split <;> rfl
        · rw [if_neg hmax, if_neg hmax]
          generalize realOf _ _ _ = o
          cases o <;> rfl

/-- What follows the point of a number, with the point; it may be absent. -/
inductive IsFraction : List Char → Prop
  | none : IsFraction []
  | some {ds : List Char} (hne : ds ≠ []) (hds : ∀ c ∈ ds, c.isDigit = true) :
      IsFraction ('.' :: ds)

/-- A number with a fraction or an exponent is read up to its end, and as a fraction. -/
theorem number_spec (negative : Bool) {ds fraction tail : List Char}
    (hds : ∀ c ∈ ds, c.isDigit = true) (hfraction : IsFraction fraction) (htail : IsExponent tail)
    (hne : fraction ≠ [] ∨ tail ≠ []) : ∃ o, Number.IsReal o ∧ ∀ rest, Stops rest →
      number negative (ds ++ fraction ++ tail ++ rest) = o.map (·, rest) := by
  by_cases hbad : ds.isEmpty ∨ (ds.head? = some '0' ∧ 1 < ds.length)
  · refine ⟨none, Number.isReal_none, fun rest hrest => ?_⟩
    have hhead : ∀ c cs, fraction ++ tail ++ rest = c :: cs → c.isDigit = false := by
      cases hfraction with
      | some => exact fun c cs h => by cases h; rfl
      | none =>
          cases htail with
          | none => simp at hne
          | some => exact fun c cs h => by cases h; rfl
    rw [List.append_assoc, List.append_assoc, ← List.append_assoc fraction]
    rw [number, (takeWhile_digits hds hhead).1, if_pos hbad]
    rfl
  · cases hfraction with
    | @some fs hfne hfs =>
        have hempty : fs.isEmpty = false := by simpa using hfne
        obtain ⟨o, ho, hread⟩ := withExponent_spec htail negative
          (appendDigits fs (appendDigits ds 0).1).1
          (((appendDigits ds 0).2 : Int) -
            (fs.length - (appendDigits fs (appendDigits ds 0).1).2 : Nat))
        refine ⟨o, ho, fun rest hrest => ?_⟩
        have hcut := @takeWhile_digits ds ('.' :: fs ++ tail ++ rest) hds
          fun c cs h => by cases h; rfl
        have hstop : ∀ c cs, tail ++ rest = c :: cs → c.isDigit = false := by
          cases htail with
          | none => exact isDigit_of_stops hrest
          | some => exact fun c cs h => by cases h; rfl
        have hcut' := takeWhile_digits hfs hstop
        rw [List.append_assoc, List.append_assoc, ← List.append_assoc ('.' :: fs)]
        simp only [number, hcut.1, hcut.2, if_neg hbad]
        simp only [List.cons_append, List.append_assoc, hcut'.1, hcut'.2, hempty]
        exact hread rest hrest
    | none =>
        cases htail with
        | none => simp at hne
        | @some sign es hsign hene hes =>
            obtain ⟨o, ho, hread⟩ := withExponent_spec (.some hsign hene hes) negative
              (appendDigits ds 0).1 (appendDigits ds 0).2
            refine ⟨o, ho, fun rest hrest => ?_⟩
            have hcut := @takeWhile_digits ds ('e' :: sign :: es ++ rest) hds
              fun c cs h => by cases h; rfl
            rw [List.append_nil, List.append_assoc]
            simp only [number, hcut.1, hcut.2, if_neg hbad]
            have := hread rest hrest
            simp only [List.cons_append] at this ⊢
            simpa using this

/-! ### Texts of numbers -/

theorem isDigit_toDigits (n : Nat) : ∀ c ∈ Nat.toDigits 10 n, c.isDigit = true :=
  fun _ h => Nat.isDigit_of_mem_toDigits (by decide) (by decide) h

theorem isDigit_zeros (n : Nat) : ∀ c ∈ Binary64.zeros n, c.isDigit = true := by
  intro c hc
  rw [List.eq_of_mem_replicate hc]
  rfl

/-- Digits, then a fraction or an exponent or both. -/
structure IsDecimal (cs ds fraction tail : List Char) : Prop where
  eq : cs = ds ++ fraction ++ tail
  ne : ds ≠ []
  digits : ∀ c ∈ ds, c.isDigit = true
  isFraction : IsFraction fraction
  isExponent : IsExponent tail
  some : fraction ≠ [] ∨ tail ≠ []

theorem isDecimal_positional {digits : List Char} (hne : digits ≠ [])
    (h : ∀ c ∈ digits, c.isDigit = true) (point : Int) :
    ∃ ds fraction, IsDecimal (Binary64.positional digits point) ds fraction [] := by
  unfold Binary64.positional
  split
  · refine ⟨['0'], '.' :: (Binary64.zeros point.natAbs ++ digits), by simp, by simp, ?_,
      .some (by simp [hne]) ?_, .none, by simp⟩
    · intro c hc
      rw [List.mem_singleton.1 hc]
      rfl
    · intro c hc
      rcases List.mem_append.1 hc with hc | hc
      · exact isDigit_zeros _ c hc
      · exact h c hc
  · rename_i hpoint
    refine ⟨_, _, (List.append_nil _).symm.trans (by rw [List.append_nil]), ?_, ?_, .some ?_ ?_, .none,
      by simp⟩
    · have : (digits.take point.toNat) ≠ [] := by
        intro hnil
        rcases List.take_eq_nil_iff.1 hnil with hz | hz
        · omega
        · exact hne hz
      simp [this]
    · intro c hc
      rcases List.mem_append.1 hc with hc | hc
      · exact h c (List.mem_of_mem_take hc)
      · exact isDigit_zeros _ c hc
    · split
      · simp
      · rename_i hrest
        exact fun hnil => hrest (List.isEmpty_iff.2 hnil)
    · intro c hc
      split at hc
      · rw [List.mem_singleton.1 hc]
        rfl
      · exact h c (List.mem_of_mem_drop hc)

theorem isDecimal_scientific {digits : List Char} (hne : digits ≠ [])
    (h : ∀ c ∈ digits, c.isDigit = true) (point : Int) :
    ∃ ds fraction tail, IsDecimal (Binary64.scientific digits point) ds fraction tail := by
  have hsign : ∀ p : Prop, [Decidable p] → (if p then '-' else '+') = '+' ∨
      (if p then '-' else '+') = '-' := by
    intro p _
    split <;> simp
  have htail := IsExponent.some (hsign (point - 1 < 0)) Nat.toDigits_ne_nil
    (isDigit_toDigits (point - 1).natAbs)
  match digits, hne, h with
  | [d], _, h => exact ⟨[d], [], _, by simp [Binary64.scientific], by simp, h, .none, htail, by simp⟩
  | d :: d' :: rest, _, h =>
    refine ⟨[d], '.' :: d' :: rest, _, by simp [Binary64.scientific], by simp, ?_, .some (by simp) ?_,
      htail, by simp⟩
    · exact fun c hc => h c (by simp_all)
    · exact fun c hc => h c (List.mem_cons_of_mem d hc)

theorem exists_isDecimal (x : Binary64) : ∃ body ds fraction tail,
    x.text.toList = (if x.negative then '-' :: body else body) ∧ IsDecimal body ds fraction tail := by
  have hbody : ∀ d : Decimal, ∃ ds fraction tail, IsDecimal
      (if x.magnitude = 0 then ['0', '.', '0']
      else if Binary64.layout.low < d.point ∧ d.point ≤ Binary64.layout.high then
        Binary64.positional (Nat.toDigits 10 d.digits) d.point
      else Binary64.scientific (Nat.toDigits 10 d.digits) d.point) ds fraction tail := by
    intro d
    split
    · exact ⟨['0'], ['.', '0'], [], rfl, by simp, by simp, .some (by simp) (by simp), .none, by simp⟩
    · have hdigits := isDigit_toDigits d.digits
      split
      · obtain ⟨ds, fraction, h⟩ := isDecimal_positional Nat.toDigits_ne_nil hdigits d.point
        exact ⟨ds, fraction, [], h⟩
      · exact isDecimal_scientific Nat.toDigits_ne_nil hdigits d.point
  obtain ⟨ds, fraction, tail, h⟩ := hbody (Binary64.shortest x.magnitude)
  exact ⟨_, ds, fraction, tail, by rw [Binary64.text, String.toList_ofList], h⟩

theorem scalar_digit {c : Char} (h : c.isDigit = true) (cs : List Char) :
    scalar (c :: cs) = (number false (c :: cs)).map fun (n, cs) => (.num n, cs) := by
  unfold scalar
  split <;> first | rfl | (rename_i he; cases he; cases h)

/-! ### Reading what was written -/

/-- An integer of sixty-four bits, signed or not. -/
def fitsWord (i : Int) : Bool := -(twoTo 63 : Int) ≤ i && i ≤ maxWord

/-- A number as far as its text keeps it: integers of sixty-four bits, and no others. -/
def Number.plain : Number → Number
  | .int i => if fitsWord i then .int i else .real .zero
  | .real _ => .real .zero

theorem Number.plain_of_isReal {o : Option Number} {m n : Number} (h : IsReal o) (hm : o = some m)
    (hn : n.plain = .real .zero) : m.plain = n.plain := by
  obtain ⟨x, rfl⟩ := h m hm
  rw [hn]
  rfl

theorem eq_zero_of_head_toDigits {n : Nat} (h : (Nat.toDigits 10 n).head? = some '0') : n = 0 := by
  induction n using Nat.strongRecOn with
  | ind n ih =>
      by_cases hn : n < 10
      · rw [Nat.toDigits_of_lt_base hn, List.head?_cons, Option.some.injEq] at h
        have hdigit : ∀ m < 10, Nat.digitChar m = '0' → m = 0 := by decide
        exact hdigit n hn h
      · obtain ⟨c, cs, hcs⟩ :=
          List.exists_cons_of_ne_nil (Nat.toDigits_ne_nil (n := n / 10) (b := 10))
        rw [Nat.toDigits_of_base_le (by decide) (by omega), hcs] at h
        have := ih (n / 10) (by omega) (by simpa [hcs] using h)
        omega

theorem number_toDigits (negative : Bool) (n : Nat) :
    (n ≤ maxWord → ∀ rest, Stops rest →
      number negative (Nat.toDigits 10 n ++ rest) = some (integer negative n, rest)) ∧
    (maxWord < n → ∃ o, Number.IsReal o ∧ ∀ rest, Stops rest →
      number negative (Nat.toDigits 10 n ++ rest) = o.map (·, rest)) := by
  have hdigits := isDigit_toDigits n
  have hvalue := appendDigits_eq (Nat.toDigits 10 n) 0 (Nat.zero_le _)
  rw [Nat.ofDigitChars_ten_toDigits] at hvalue
  have hempty : (Nat.toDigits 10 n).isEmpty = false := by simp [Nat.toDigits_ne_nil]
  have hlead : ¬((Nat.toDigits 10 n).head? = some '0' ∧ 1 < (Nat.toDigits 10 n).length) := by
    rintro ⟨hhead, hlength⟩
    obtain rfl := eq_zero_of_head_toDigits hhead
    simp at hlength
  have hbad : ¬((Nat.toDigits 10 n).isEmpty ∨
      ((Nat.toDigits 10 n).head? = some '0' ∧ 1 < (Nat.toDigits 10 n).length)) := by
    rw [hempty]
    simpa using hlead
  constructor
  · intro hle rest hrest
    obtain ⟨htake, hdrop⟩ := takeWhile_digits hdigits (isDigit_of_stops hrest)
    simp only [number, htake, hdrop, if_neg hbad, hvalue.1 hle]
    cases rest with
    | nil => rfl
    | cons c cs =>
        obtain ⟨-, hpoint, he, hE⟩ := hrest c cs rfl
        split
        · rename_i heq
          cases heq
          exact absurd rfl hpoint
        · rename_i heq
          cases heq
          simp [he, hE]
        · rename_i heq
          cases heq
  · intro hlt
    refine ⟨_, realOf_isReal negative (appendDigits (Nat.toDigits 10 n) 0).1
      (appendDigits (Nat.toDigits 10 n) 0).2, fun rest hrest => ?_⟩
    obtain ⟨htake, hdrop⟩ := takeWhile_digits hdigits (isDigit_of_stops hrest)
    have hread := withExponent_stops hrest negative (appendDigits (Nat.toDigits 10 n) 0).1
      (appendDigits (Nat.toDigits 10 n) 0).2
    simp only [number, htake, hdrop, if_neg hbad]
    cases rest with
    | nil => simp only [if_pos (hvalue.2 hlt), hread]
    | cons c cs =>
        obtain ⟨-, hpoint, he, hE⟩ := hrest c cs rfl
        split
        · rename_i heq
          cases heq
          exact absurd rfl hpoint
        · rename_i heq
          cases heq
          simp only [he, hE, false_or, if_pos (hvalue.2 hlt), hread]
        · rename_i heq
          cases heq

theorem fitsWord_iff {i : Int} : fitsWord i = true ↔ -(twoTo 63 : Int) ≤ i ∧ i ≤ maxWord := by
  simp [fitsWord]

theorem integer_spec {i : Int} (hle : i.natAbs ≤ maxWord) :
    (fitsWord i = true → integer (i < 0) i.natAbs = .int i) ∧
      (fitsWord i = false → ∃ x, integer (i < 0) i.natAbs = .real x) := by
  rw [← Bool.not_eq_true, fitsWord_iff]
  by_cases hi : i < 0
  · by_cases hbig : twoTo 63 < i.natAbs
    · refine ⟨fun h => by omega, fun _ => ⟨(Binary64.ofNat i.natAbs).neg, ?_⟩⟩
      simp [integer, hi, hbig]
    · have hne : ¬(i.natAbs = 0 ∨ twoTo 63 < i.natAbs) := by omega
      refine ⟨fun _ => ?_, fun h => absurd ⟨by omega, by omega⟩ h⟩
      simp only [integer, hi, decide_true, Bool.not_true, Bool.false_eq_true, if_false, if_neg hne,
        Number.int.injEq]
      omega
  · refine ⟨fun _ => ?_, fun h => absurd ⟨by omega, by omega⟩ h⟩
    simp only [integer, hi, decide_false, Bool.not_false, if_true, Number.int.injEq]
    omega

/-- What is read of the text of a number. -/
structure Rereads (n : Number) (o : Option Number) : Prop where
  scalar : ∀ rest, Stops rest → Json.scalar (n.text ++ rest) = o.map fun m => (.num m, rest)
  plain : ∀ m, o = some m → m.plain = n.plain
  word : ∀ i, n = .int i → fitsWord i = true → o = some n

theorem exists_rereads (n : Number) : ∃ o, Rereads n o := by
  cases n with
  | real x =>
      obtain ⟨body, ds, fraction, tail, htext, h⟩ := exists_isDecimal x
      obtain ⟨o, ho, hread⟩ :=
        number_spec x.negative h.digits h.isFraction h.isExponent h.some
      refine ⟨o, fun rest hrest => ?_, fun m hm => Number.plain_of_isReal ho hm rfl, nofun⟩
      have hread := hread rest hrest
      rw [← h.eq] at hread
      rw [Number.text, htext]
      cases hneg : x.negative with
      | true =>
          rw [hneg] at hread
          simp only [if_true, List.cons_append, Json.scalar, hread, Option.map_map]
          rfl
      | false =>
          rw [hneg] at hread
          obtain ⟨c, cs, hds⟩ := List.exists_cons_of_ne_nil h.ne
          have hc : c.isDigit = true := h.digits c (by simp [hds])
          have hbody : body ++ rest = c :: (cs ++ fraction ++ tail ++ rest) := by
            rw [h.eq, hds]
            simp
          simp only [Bool.false_eq_true, if_false, hbody, scalar_digit hc]
          rw [← hbody, hread, Option.map_map]
          rfl
  | int i =>
      have hdigits := number_toDigits (i < 0) i.natAbs
      have hplain : fitsWord i = false → (Number.int i).plain = .real .zero := by
        intro h
        rw [Number.plain, h]
        rfl
      have hscalar : ∀ (o : Option Number) (rest : List Char),
          number (i < 0) (Nat.toDigits 10 i.natAbs ++ rest) = o.map (·, rest) →
          Json.scalar ((Number.int i).text ++ rest) = o.map fun m => (.num m, rest) := by
        intro o rest hread
        rw [Number.text]
        by_cases hi : i < 0
        · simp only [hi, decide_true] at hread
          simp only [hi, if_true, List.cons_append, List.nil_append, Json.scalar, hread, Option.map_map]
          rfl
        · simp only [hi, decide_false] at hread
          obtain ⟨c, cs, hds⟩ := List.exists_cons_of_ne_nil (Nat.toDigits_ne_nil (n := i.natAbs) (b := 10))
          have hc : c.isDigit = true := isDigit_toDigits i.natAbs c (by simp [hds])
          simp only [hi, if_false, List.nil_append]
          rw [hds, List.cons_append, scalar_digit hc, ← List.cons_append, ← hds, hread, Option.map_map]
          rfl
      by_cases hle : i.natAbs ≤ maxWord
      · obtain ⟨hint, hreal⟩ := integer_spec hle
        refine ⟨some (integer (i < 0) i.natAbs), fun rest hrest => hscalar _ rest ?_, ?_, ?_⟩
        · exact hdigits.1 hle rest hrest
        · intro m hm
          cases hfits : fitsWord i with
          | true => rw [← Option.some.inj hm, hint hfits]
          | false =>
              obtain ⟨x, hx⟩ := hreal hfits
              rw [← Option.some.inj hm, hx, hplain hfits]
              rfl
        · intro j hj hfits
          cases hj
          rw [hint hfits]
      · have hfits : fitsWord i = false := by
          have hbounds : twoTo 63 ≤ maxWord := by decide
          rw [← Bool.not_eq_true, fitsWord_iff]
          omega
        obtain ⟨o, ho, hread⟩ := hdigits.2 (Nat.lt_of_not_le hle)
        refine ⟨o, fun rest hrest => hscalar o rest (hread rest hrest), fun m hm => ?_, ?_⟩
        · exact Number.plain_of_isReal ho hm (hplain hfits)
        · intro j hj hfits'
          cases hj
          simp [hfits] at hfits'

end StaticGql.Json
