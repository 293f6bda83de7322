import StaticGql.Json.Printer
import StaticGql.Literal

/-!
What a quoted text denotes: its body as it stands, where there is no backslash in it, and whatever was quoted as a
string of a value.

Text as UTF-16. The points of a string join to their units decoded, where a surrogate without its partner is replaced.
-/

namespace StaticGql.Literal

variable {cs : List Char} {raw s : String}

theorem isHigh_toNat (c : Char) : isHigh c.toNat = false := by
  have h : c.toNat < 0xD800 ∨ 0xDFFF < c.toNat ∧ c.toNat < 0x110000 := c.valid
  simp only [isHigh, Bool.and_eq_false_imp, decide_eq_true_eq, decide_eq_false_iff_not]
  omega

theorem isLow_toNat (c : Char) : isLow c.toNat = false := by
  have h : c.toNat < 0xD800 ∨ 0xDFFF < c.toNat ∧ c.toNat < 0x110000 := c.valid
  simp only [isLow, Bool.and_eq_false_imp, decide_eq_true_eq, decide_eq_false_iff_not]
  omega

theorem toNat_le_maxPoint (c : Char) : c.toNat ≤ maxPoint := by
  have h : c.toNat < 0xD800 ∨ 0xDFFF < c.toNat ∧ c.toNat < 0x110000 := c.valid
  rw [maxPoint]
  omega

theorem points_plain (h : '\\' ∉ cs) : points cs = some (cs.map Char.toNat) := by
  induction cs with
  | nil => simp [points]
  | cons c cs ih =>
      rw [List.mem_cons, not_or] at h
      rw [points, if_neg (Ne.symm h.1), ih h.2]
      rfl

theorem join_map_toNat (cs : List Char) : join (cs.map Char.toNat) = some cs := by
  induction cs with
  | nil => rfl
  | cons c cs ih =>
      have hpoint : ¬maxPoint < c.toNat := Nat.not_lt.2 (toNat_le_maxPoint c)
      cases cs with
      | nil => simp [join, isHigh_toNat, isLow_toNat, hpoint]
      | cons d cs =>
          rw [List.map_cons, List.map_cons, join]
          rw [List.map_cons] at ih
          simp [isHigh_toNat, isLow_toNat, hpoint, ih]

/-- Without a backslash a literal stands for a part of itself. -/
theorem infix_of_string (h : string? raw = some s) (hplain : '\\' ∉ raw.toList) :
    s.toList <:+: raw.toList := by
  obtain ⟨body, hbody, h⟩ := Option.bind_eq_some_iff.1 h
  have hamong : body <:+: raw.toList := by
    rw [body?.eq_def] at hbody
    split at hbody
    · rename_i q cs hraw
      split at hbody
      · cases hbody
        rw [hraw]
        exact (List.dropLast_prefix cs).isInfix.trans (List.suffix_cons q cs).isInfix
      · cases hbody
    · cases hbody
  rw [points_plain fun hmem => hplain (hamong.subset hmem)] at h
  obtain ⟨ps, hps, h⟩ := Option.bind_eq_some_iff.1 h
  cases hps
  rw [join_map_toNat, Option.map_some, Option.some.injEq] at h
  rw [← h, String.toList_ofList]
  exact hamong

/-! ### Strings of values -/

theorem points_of_escape {rest : List Char} {ps : List Nat} (h : escape cs = some (ps, rest)) :
    points ('\\' :: cs) = (points rest).map (ps ++ ·) := by
  rw [points, if_pos rfl]
  split
  · rename_i hnone
    cases hnone.symm.trans h
  · rename_i hsome
    cases hsome.symm.trans h
    rfl

theorem points_backslash {rest : List Char} {n : Nat} (h : escape cs = some ([n], rest)) :
    points ('\\' :: cs) = (points rest).map (n :: ·) :=
  points_of_escape h

theorem hex?_control : ∀ n < 32, hex? ['0', '0', Json.hexDigit (n / 16), Json.hexDigit (n % 16)] = some n := by
  decide

/-- Each escape of a string stands for the one character that it was put for. -/
theorem points_escape (c : Char) (cs : List Char) :
    points (Json.escape c ++ cs) = (points cs).map (c.toNat :: ·) := by
  by_cases h : c ∈ ['"', '\\', '\x08', '\t', '\n', '\x0c', '\r']
  · simp only [List.mem_cons, List.not_mem_nil, or_false] at h
    rcases h with rfl | rfl | rfl | rfl | rfl | rfl | rfl
    all_goals
      refine points_backslash ?_
      rfl
  · simp only [List.mem_cons, List.not_mem_nil, or_false, not_or] at h
    obtain ⟨h₁, h₂, h₃, h₄, h₅, h₆, h₇⟩ := h
    rw [Json.escape, if_neg h₁, if_neg h₂, if_neg h₃, if_neg h₄, if_neg h₅, if_neg h₆, if_neg h₇]
    by_cases hlow : c.toNat < 32
    · rw [if_pos hlow]
      refine points_backslash ?_
      show (hex? _).map _ = _
      rw [hex?_control c.toNat hlow]
      rfl
    · rw [if_neg hlow, List.singleton_append, points, if_neg h₂]

theorem points_escape_all (cs : List Char) : points (cs.flatMap Json.escape) = some (cs.map Char.toNat) := by
  induction cs with
  | nil => simp [points]
  | cons c cs ih => rw [List.flatMap_cons, points_escape, ih, Option.map_some, List.map_cons]

/-- A string that was quoted as part of a value is read back as a literal. -/
theorem string?_quote (s : String) : string? (String.ofList (Json.quote s)) = some s := by
  have hbody : body? (Json.quote s) = some (s.toList.flatMap Json.escape) := by
    rw [Json.quote, List.cons_append, body?, if_pos ⟨.inl rfl, List.getLast?_concat⟩, List.dropLast_concat]
  rw [string?, String.toList_ofList, hbody]
  simp [points_escape_all, join_map_toNat]

end StaticGql.Literal

namespace StaticGql.Literal

variable {p u h l : Nat} {us ps : List Nat} {cs : List Char}

/-- The UTF-16 units of a code point. -/
def units (p : Nat) : List Nat :=
  if p < 0x10000 then [p] else [0xD800 + (p - 0x10000) / 0x400, 0xDC00 + (p - 0x10000) % 0x400]

/-- The character of a unit by itself. -/
def unitChar (u : Nat) : Char := if isHigh u || isLow u then replacement else Char.ofNat u

/-- The text that UTF-16 units stand for. -/
def decode : List Nat → List Char
  | h :: l :: us =>
    if isHigh h && isLow l then Char.ofNat (0x10000 + (h - 0xD800) * 0x400 + (l - 0xDC00)) :: decode us
    else unitChar h :: decode (l :: us)
  | [u] => [unitChar u]
  | [] => []

theorem units_of_lt (h : p < 0x10000) : units p = [p] := if_pos h

theorem decode_pair (h : (isHigh u && isLow l) = true) (us : List Nat) :
    decode (u :: l :: us) = Char.ofNat (0x10000 + (u - 0xD800) * 0x400 + (l - 0xDC00)) :: decode us := by
  rw [decode, if_pos h]

theorem decode_alone (h : ∀ l ∈ us.head?, (isHigh u && isLow l) = false) :
    decode (u :: us) = unitChar u :: decode us := by
  cases us with
  | nil => rfl
  | cons l us => rw [decode, h l rfl, if_neg Bool.false_ne_true]

theorem isHigh_iff : isHigh p = true ↔ 0xD800 ≤ p ∧ p < 0xDC00 := by simp [isHigh]

theorem isLow_iff : isLow p = true ↔ 0xDC00 ≤ p ∧ p < 0xE000 := by simp [isLow]

theorem le_of_pair (hpair : (isHigh h && isLow l) = true) : h < 0x10000 ∧ l < 0x10000 := by
  rw [Bool.and_eq_true, isHigh_iff, isLow_iff] at hpair
  omega

/-- The first unit of a code point pairs up with what is before it only if the code point does. -/
theorem isLow_head_units (hp : p ≤ maxPoint) : ∀ l ∈ (units p ++ us).head?, isLow l = isLow p := by
  intro l hl
  rw [maxPoint] at hp
  rw [units] at hl
  split at hl
  · cases hl
    rfl
  · cases hl
    rw [Bool.eq_iff_iff, isLow_iff, isLow_iff]
    omega

/-- Beside a point with which it makes no pair, a point is decoded by itself. -/
theorem decode_units (hp : p ≤ maxPoint) (hfront : ∀ l ∈ us.head?, (isHigh p && isLow l) = false) :
    decode (units p ++ us) = unitChar p :: decode us := by
  rw [maxPoint] at hp
  rw [units]
  split
  · rw [List.singleton_append, decode_alone hfront]
  · have hpair : (isHigh (0xD800 + (p - 0x10000) / 0x400) && isLow (0xDC00 + (p - 0x10000) % 0x400)) = true := by
      rw [Bool.and_eq_true, isHigh_iff, isLow_iff]
      omega
    have hplain : ¬(isHigh p || isLow p) = true := by
      rw [Bool.or_eq_true, isHigh_iff, isLow_iff]
      omega
    have hpoint : 0x10000 + (0xD800 + (p - 0x10000) / 0x400 - 0xD800) * 0x400 +
        (0xDC00 + (p - 0x10000) % 0x400 - 0xDC00) = p := by
      omega
    rw [List.cons_append, List.singleton_append, decode_pair hpair, hpoint, unitChar, if_neg hplain]

theorem join_alone (hfront : ∀ l ∈ ps.head?, (isHigh p && isLow l) = false) :
    join (p :: ps) = if maxPoint < p then none else (join ps).map (unitChar p :: ·) := by
  have hsurrogate : (isHigh p || isLow p) = true → ¬maxPoint < p := by
    rw [Bool.or_eq_true, isHigh_iff, isLow_iff, maxPoint]
    omega
  by_cases hs : (isHigh p || isLow p) = true
  · cases ps with
    | nil => simp [join, unitChar, hs, hsurrogate hs]
    | cons l ps => simp [join, hfront l rfl, unitChar, hs, hsurrogate hs]
  · cases ps with
    | nil => simp [join, unitChar, hs]
    | cons l ps => simp [join, hfront l rfl, unitChar, hs]

theorem join_pair (hpair : (isHigh h && isLow l) = true) (ps : List Nat) :
    join (h :: l :: ps) = (join ps).map (Char.ofNat (0x10000 + (h - 0xD800) * 0x400 + (l - 0xDC00)) :: ·) := by
  rw [join, if_pos hpair]

theorem head_flatMap_units (hps : ∀ p ∈ ps, p ≤ maxPoint) (hfront : ∀ l ∈ ps.head?, (isHigh p && isLow l) = false) :
    ∀ l ∈ (ps.flatMap units).head?, (isHigh p && isLow l) = false := by
  cases ps with
  | nil => simp
  | cons q ps =>
      intro l hl
      rw [List.flatMap_cons] at hl
      rw [isLow_head_units (hps q (by simp)) l hl]
      exact hfront q rfl

/-- Points join where all of them are code points, to the text that their units stand for. -/
theorem join_eq_some_iff (ps : List Nat) (cs : List Char) :
    join ps = some cs ↔ (∀ p ∈ ps, p ≤ maxPoint) ∧ decode (ps.flatMap units) = cs := by
  match ps with
  | [] => simp [join, decode]
  | p :: ps =>
      by_cases hfront : ∀ l ∈ ps.head?, (isHigh p && isLow l) = false
      · rw [join_alone hfront, List.forall_mem_cons, and_assoc, List.flatMap_cons]
        split
        · simp; omega
        · rename_i hp
          rw [Option.map_eq_some_iff]
          simp only [join_eq_some_iff ps]
          constructor
          · rintro ⟨ds, ⟨hps, rfl⟩, rfl⟩
            exact ⟨by omega, hps, decode_units (by omega) (head_flatMap_units hps hfront)⟩
          · rintro ⟨hp, hps, rfl⟩
            exact ⟨_, ⟨hps, rfl⟩, (decode_units hp (head_flatMap_units hps hfront)).symm⟩
      · cases ps with
        | nil => simp at hfront
        | cons l ps =>
            have hpair : (isHigh p && isLow l) = true := by simpa using hfront
            obtain ⟨hp, hl⟩ := le_of_pair hpair
            rw [join_pair hpair, Option.map_eq_some_iff, List.forall_mem_cons, List.forall_mem_cons, List.flatMap_cons,
              List.flatMap_cons, units_of_lt hp, units_of_lt hl, List.singleton_append, List.singleton_append,
              decode_pair hpair]
            simp only [join_eq_some_iff ps, maxPoint]
            constructor
            · rintro ⟨ds, ⟨hps, rfl⟩, rfl⟩
              exact ⟨⟨by omega, by omega, hps⟩, rfl⟩
            · rintro ⟨⟨-, -, hps⟩, rfl⟩
              exact ⟨_, ⟨hps, rfl⟩, rfl⟩

end StaticGql.Literal
