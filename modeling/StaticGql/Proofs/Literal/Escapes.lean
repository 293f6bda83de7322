import Mathlib.Data.Nat.Digits.Defs
import Mathlib.Tactic.Ring
import StaticGql.Json.Reader
import StaticGql.Proofs.Except
import StaticGql.Proofs.Literal

/-!
What the body of a string literal denotes, said by the escapes in it, and that literals are read so: always where the
escapes are well formed, and nothing else as long as no digits have a sign and no brace is left open.
-/

namespace StaticGql.Literal

variable {c q : Char} {cs ds rest text body : List Char} {n : Nat} {ps us vs : List Nat}

/-! ### Escapes -/

/-- Hexadecimal digits with their number. -/
def IsHex (ds : List Char) (n : Nat) : Prop :=
  ∃ ns, List.Forall₂ (fun d m => Json.hexValue? d = some m) ds ns ∧ n = Nat.ofDigits 16 ns.reverse

def control? : Char → Option Nat
  | 'n' => some 10
  | 't' => some 9
  | 'r' => some 13
  | 'b' => some 8
  | 'f' => some 12
  | 'v' => some 11
  | _ => none

def isLineEnd (c : Char) : Bool := c ∈ ['\n', '\r', '\u2028', '\u2029']

/-- What may stand behind a backslash and in front of `rest`, with its units. -/
inductive Escape (rest : List Char) : List Char → List Nat → Prop
  | control {c : Char} {n : Nat} (h : control? c = some n) : Escape rest [c] [n]
  | null (h : startsWithDigit rest = false) : Escape rest ['0'] [0]
  | zero (h : startsWithDigit rest = true) : Escape rest ['0'] (units '0'.toNat)
  | two {ds : List Char} {n : Nat} (hds : ds.length = 2) (h : IsHex ds n) : Escape rest ('x' :: ds) [n]
  | four {ds : List Char} {n : Nat} (hds : ds.length = 4) (h : IsHex ds n) : Escape rest ('u' :: ds) [n]
  | braced {ds : List Char} {n : Nat} (hds : ds ≠ []) (h : IsHex ds n) (hn : n ≤ maxPoint) :
      Escape rest ('u' :: '{' :: ds ++ ['}']) (units n)
  | line {c : Char} (h : isLineEnd c = true) (hr : c = '\r' → rest.head? ≠ some '\n') : Escape rest [c] []
  | crlf : Escape rest ['\r', '\n'] []
  | itself {c : Char} (hcontrol : control? c = none) (hline : isLineEnd c = false) (hc : c ∉ ['0', 'x', 'u']) :
      Escape rest [c] (units c.toNat)

/-- The UTF-16 units that the body of a literal denotes, read from left to right. -/
inductive Denotes : List Char → List Nat → Prop
  | nil : Denotes [] []
  | plain {c : Char} {cs : List Char} {us : List Nat} (hc : c ≠ '\\') (h : Denotes cs us) :
      Denotes (c :: cs) (units c.toNat ++ us)
  | escape {text rest : List Char} {us vs : List Nat} (he : Escape rest text us) (h : Denotes rest vs) :
      Denotes ('\\' :: (text ++ rest)) (us ++ vs)

/-! ### Digits -/

theorem digitIn?_eq (c : Char) : digitIn? 16 c = Json.hexValue? c := by
  by_cases hlow : c.toNat < 128
  · have hall : ∀ n < 128, digitIn? 16 (Char.ofNat n) = Json.hexValue? (Char.ofNat n) := by decide
    rw [← Char.ofNat_toNat c]
    exact hall c.toNat hlow
  · have hnot : ∀ d : Char, d.toNat < 128 → ¬c ≤ d := by
      intro d hd hle
      have hle : c.toNat ≤ d.toNat := UInt32.le_iff_toNat_le.1 hle
      omega
    have hdigit : c.isDigit = false := by
      have hnine : ¬c.val ≤ '9'.val := hnot '9' (by decide)
      rw [Char.isDigit, Bool.and_eq_false_imp]
      exact fun _ => decide_eq_false hnine
    have hz := hnot 'z' (by decide)
    have hZ := hnot 'Z' (by decide)
    have hf := hnot 'f' (by decide)
    have hF := hnot 'F' (by decide)
    simp [digitIn?, Json.hexValue?, hdigit, hz, hZ, hf, hF]

theorem digitsIn?_eq_some_iff {acc : Nat} : digitsIn? 16 ds acc = some n ↔
    ∃ m, IsHex ds m ∧ n = acc * 16 ^ ds.length + m := by
  induction ds generalizing acc with
  | nil => simp [digitsIn?, IsHex, List.forall₂_nil_left_iff, eq_comm]
  | cons d ds ih =>
      simp only [digitsIn?, digitIn?_eq, Option.bind_eq_some_iff, ih]
      constructor
      · rintro ⟨a, ha, m, ⟨ns, hns, rfl⟩, rfl⟩
        refine ⟨_, ⟨a :: ns, .cons ha hns, rfl⟩, ?_⟩
        rw [List.reverse_cons, Nat.ofDigits_append, List.length_reverse, ← hns.length_eq, Nat.ofDigits_singleton,
          List.length_cons]
        ring
      · rintro ⟨m, ⟨ns, hns, rfl⟩, rfl⟩
        cases hns with
        | @cons _ a _ ns ha hns =>
            refine ⟨a, ha, _, ⟨ns, hns, rfl⟩, ?_⟩
            rw [List.reverse_cons, Nat.ofDigits_append, List.length_reverse, ← hns.length_eq, Nat.ofDigits_singleton,
              List.length_cons]
            ring

theorem hexValue?_lt {m : Nat} (h : Json.hexValue? c = some m) : m < 16 := by
  rw [← digitIn?_eq, digitIn?, Option.filter_eq_some_iff] at h
  simpa using h.2

theorem IsHex.lt (h : IsHex ds n) : n < 16 ^ ds.length := by
  obtain ⟨ns, hns, rfl⟩ := h
  have hdigits : ∀ m ∈ ns.reverse, m < 16 := by
    intro m hm
    obtain ⟨d, -, hd⟩ := exists_of_forall₂ hns.flip (List.mem_reverse.1 hm)
    exact hexValue?_lt hd
  rw [hns.length_eq, ← List.length_reverse]
  exact Nat.ofDigits_lt_base_pow_length (by decide) hdigits

theorem hex?_eq_some_iff (h : ds.head? ≠ some '+') : hex? ds = some n ↔ ds ≠ [] ∧ IsHex ds n ∧ n < 2 ^ 32 := by
  have hnumber : hex? ds = if ds.isEmpty then none else (digitsIn? 16 ds 0).filter (· < twoTo 32) := by
    cases ds with
    | nil => rfl
    | cons d ds =>
        rw [hex?, radixNumber?.eq_def]
        split
        · rename_i heq
          cases heq
          exact absurd rfl h
        · rfl
  have hlimit : twoTo 32 = 2 ^ 32 := rfl
  rw [hnumber, hlimit]
  cases ds with
  | nil => simp
  | cons d ds => simp only [List.isEmpty_cons, Bool.false_eq_true, if_false, Option.filter_eq_some_iff,
      digitsIn?_eq_some_iff, decide_eq_true_eq]; simp

theorem IsHex.forall_mem (h : IsHex ds n) : ∀ d ∈ ds, (Json.hexValue? d).isSome = true := by
  obtain ⟨ns, hns, -⟩ := h
  intro d hd
  obtain ⟨m, -, hm⟩ := exists_of_forall₂ hns hd
  simp [hm]

theorem IsHex.not_mem (h : IsHex ds n) (hc : Json.hexValue? c = none) : c ∉ ds := by
  intro hmem
  simpa [hc] using h.forall_mem c hmem

theorem IsHex.hex? (h : IsHex ds n) (hds : ds ≠ []) (hn : n < 2 ^ 32) : hex? ds = some n := by
  refine (hex?_eq_some_iff fun hplus => ?_).2 ⟨hds, h, hn⟩
  exact h.not_mem (show Json.hexValue? '+' = none from rfl) (List.mem_of_mem_head? hplus)

/-! ### Escapes that are read -/

/-- The points of an escape of one character. -/
def single (c : Char) (rest : List Char) : List Nat :=
  if isLineEnd c then []
  else
    match control? c with
    | some n => [n]
    | none => if c = '0' ∧ !startsWithDigit rest then [0] else [c.toNat]

theorem control?_eq_none (hc : c ∉ ['n', 't', 'r', 'b', 'f', 'v']) : control? c = none := by
  rw [control?.eq_def]
  split
  all_goals first
    | rfl
    | simp at hc

theorem control_spec (h : control? c = some n) : n < 0x10000 ∧ isLineEnd c = false ∧ c ∉ ['0', 'x', 'u'] := by
  rw [control?.eq_def] at h
  split at h
  all_goals
    cases h
    try decide

theorem escape_single (hc : c ∉ ['x', 'u']) (hr : c = '\r' → cs.head? ≠ some '\n') :
    escape (c :: cs) = some (single c cs, cs) := by
  rw [escape.eq_def]
  split
  case h_8 =>
    rename_i heq
    cases heq
    by_cases hlisted : c ∈ ['\r', '\n', '\u2028', '\u2029', 'n', 't', 'r', 'b', 'f', 'v']
    · simp only [List.mem_cons, List.not_mem_nil, or_false] at hlisted
      rcases hlisted with rfl | rfl | rfl | rfl | rfl | rfl | rfl | rfl | rfl | rfl <;> rfl
    · have hcontrol : control? c = none := control?_eq_none fun h => hlisted (by simp at h ⊢; tauto)
      simp only [List.mem_cons, List.not_mem_nil, or_false, not_or] at hlisted
      obtain ⟨h₁, h₂, h₃, h₄, h₅, h₆, h₇, h₈, h₉, h₁₀⟩ := hlisted
      simp only [single, hcontrol, isLineEnd, List.mem_cons, List.not_mem_nil, h₁, h₂, h₃, h₄, h₅, h₆, h₇, h₈, h₉,
        h₁₀, or_self, if_false, decide_false, Bool.false_eq_true]
      split <;> rfl
  case h_7 =>
    rename_i heq
    cases heq
    exact absurd rfl (hr rfl)
  all_goals
    rename_i heq
    cases heq
    try simp at hc

theorem single_le (c : Char) (rest : List Char) : ∀ p ∈ single c rest, p ≤ maxPoint := by
  rw [single]
  split
  · simp
  · split
    · rename_i n hn
      have := (control_spec hn).1
      simp only [List.mem_singleton, forall_eq, maxPoint]
      omega
    · split
      · simp
      · simp [toNat_le_maxPoint]

/-- An escape of one character denotes the units of its points. -/
theorem Escape.of_single (hc : c ∉ ['x', 'u']) (hr : c = '\r' → rest.head? ≠ some '\n') :
    Escape rest [c] ((single c rest).flatMap units) := by
  rw [single]
  split
  · exact .line ‹_› hr
  · rename_i hline
    split
    · rename_i n hn
      rw [List.flatMap_singleton, units_of_lt (control_spec hn).1]
      exact .control hn
    · rename_i hcontrol
      split
      · rename_i hzero
        obtain ⟨rfl, hdigit⟩ := hzero
        exact .null (by simpa using hdigit)
      · rename_i hzero
        rw [List.flatMap_singleton]
        by_cases h0 : c = '0'
        · subst h0
          exact .zero (by simpa using hzero)
        · exact .itself hcontrol (by simpa using hline) (by simp at hc ⊢; tauto)

theorem flatMap_single (h : Escape rest [c] us) : c ∉ ['x', 'u'] ∧ (c = '\r' → rest.head? ≠ some '\n') ∧
    (single c rest).flatMap units = us := by
  generalize htext : [c] = text at h
  cases h with
  | control h =>
      cases htext
      obtain ⟨hn, hline, hc⟩ := control_spec h
      have hreturn : c ≠ '\r' := by
        rintro rfl
        cases hline
      simp only [List.mem_cons, List.not_mem_nil, or_false, not_or] at hc
      simp [single, hline, h, units_of_lt hn, hc, hreturn]
  | null h =>
      cases htext
      simp [single, isLineEnd, control?, h, units]
  | zero h =>
      cases htext
      simp [single, isLineEnd, control?, h]
  | two hds | four hds =>
      cases htext
      cases hds
  | braced => cases htext
  | line h hr =>
      cases htext
      have hc : c ∉ ['x', 'u'] := by
        intro hc
        simp only [List.mem_cons, List.not_mem_nil, or_false] at hc
        rcases hc with rfl | rfl <;> cases h
      simp only [single, h, if_true, List.flatMap_nil]
      exact ⟨hc, hr, trivial⟩
  | crlf => cases htext
  | itself hcontrol hline hc =>
      cases htext
      have hreturn : c ≠ '\r' := by
        rintro rfl
        cases hline
      simp only [List.mem_cons, List.not_mem_nil, or_false, not_or] at hc
      simp [single, hline, hcontrol, hc, hreturn]

theorem escape_four {a b c d : Char} (ha : a ≠ '{') :
    escape ('u' :: a :: b :: c :: d :: rest) = (hex? [a, b, c, d]).map fun n => ([n], rest) := by
  rw [escape.eq_def]
  split
  case h_4 heq =>
    cases heq
    exact absurd rfl ha
  case h_5 heq =>
    cases heq
    rfl
  case h_6 hnone heq =>
    cases heq
    exact absurd rfl (hnone a b c d rest)
  case h_8 hnone _ heq =>
    cases heq
    exact absurd rfl hnone
  all_goals
    rename_i heq
    cases heq

theorem escape_braced (hclose : '}' ∉ ds) :
    escape ('u' :: '{' :: (ds ++ '}' :: rest)) = (hex? ds).map fun n => ([n], rest) := by
  have hds : ∀ d ∈ ds, decide (d ≠ '}') = true := by simpa using fun d hd => ne_of_mem_of_not_mem hd hclose
  have htake : (ds ++ '}' :: rest).takeWhile (· ≠ '}') = ds := by
    rw [List.takeWhile_append_of_pos hds]
    simp
  have hdrop : (ds ++ '}' :: rest).dropWhile (· ≠ '}') = '}' :: rest := by
    rw [List.dropWhile_append_of_pos hds]
    simp
  show (hex? ((ds ++ '}' :: rest).takeWhile _)).map (fun n => ([n], ((ds ++ '}' :: rest).dropWhile _).drop 1)) = _
  rw [htake, hdrop]
  rfl

/-- Every well-formed escape is read, and what follows it is left over. -/
theorem Escape.escape_eq (h : Escape rest text us) :
    ∃ ps, escape (text ++ rest) = some (ps, rest) ∧ (∀ p ∈ ps, p ≤ maxPoint) ∧ ps.flatMap units = us := by
  have hsingle : ∀ c, text = [c] →
      ∃ ps, escape (text ++ rest) = some (ps, rest) ∧ (∀ p ∈ ps, p ≤ maxPoint) ∧ ps.flatMap units = us := by
    rintro c rfl
    obtain ⟨hc, hr, hus⟩ := flatMap_single h
    exact ⟨single c rest, escape_single hc hr, single_le c rest, hus⟩
  cases h with
  | control | null | zero | line | itself => exact hsingle _ rfl
  | @two ds n hds h =>
      have hlt := h.lt
      rw [hds] at hlt
      have hread : escape ('x' :: ds ++ rest) = some ([n], rest) := by
        obtain ⟨a, b, rfl⟩ := List.length_eq_two.1 hds
        show (hex? [a, b]).map _ = _
        rw [h.hex? (by simp) (by omega)]
        rfl
      refine ⟨[n], hread, ?_, by simp [units_of_lt (show n < 0x10000 by omega)]⟩
      simp only [List.mem_singleton, forall_eq, maxPoint]
      omega
  | @four ds n hds h =>
      have hlt := h.lt
      rw [hds] at hlt
      have hread : escape ('u' :: ds ++ rest) = some ([n], rest) := by
        obtain ⟨a, ds, rfl⟩ := List.exists_cons_of_length_eq_add_one hds
        obtain ⟨b, c, d, rfl⟩ := List.length_eq_three.1 (Nat.succ.inj hds)
        have ha : a ≠ '{' := by
          rintro rfl
          exact h.not_mem (show Json.hexValue? '{' = none from rfl) (by simp)
        rw [List.cons_append]
        exact (escape_four ha).trans (by rw [h.hex? (by simp) (by omega)]; rfl)
      refine ⟨[n], hread, ?_, by simp [units_of_lt (show n < 0x10000 by omega)]⟩
      simp only [List.mem_singleton, forall_eq, maxPoint]
      omega
  | @braced ds n hds h hn =>
      have hread : escape ('u' :: '{' :: ds ++ ['}'] ++ rest) = some ([n], rest) := by
        rw [List.append_assoc, List.singleton_append, List.cons_append, List.cons_append,
          escape_braced (h.not_mem rfl), h.hex? hds (by rw [maxPoint] at hn; omega)]
        rfl
      exact ⟨[n], hread, by simpa using hn, by simp⟩
  | crlf => exact ⟨[], rfl, by simp, rfl⟩

/-- Escapes that are read although they are not well formed: those with a sign before the digits, and those with a
brace that is not closed. -/
def lax (c : Char) (cs : List Char) : Bool :=
  (c = 'x' || c = 'u') && cs.head? = some '+' ||
    c = 'u' && cs.head? = some '{' && (cs.tail.head? = some '+' || '}' ∉ cs)

/-- No escape, read from left to right, is a lax one. -/
def tidy : List Char → Bool
  | '\\' :: c :: cs => !lax c cs && tidy cs
  | _ :: cs => tidy cs
  | [] => true

/-- The number of hexadecimal digits that have no sign before them. -/
theorem isHex_of_map (h : (hex? ds).map (fun n => ([n], cs)) = some (ps, rest)) (hplus : ds.head? ≠ some '+') :
    ∃ n, ps = [n] ∧ cs = rest ∧ ds ≠ [] ∧ IsHex ds n := by
  obtain ⟨n, hn, heq⟩ := Option.map_eq_some_iff.1 h
  cases heq
  obtain ⟨hds, hhex, -⟩ := (hex?_eq_some_iff hplus).1 hn
  exact ⟨n, rfl, rfl, hds, hhex⟩

theorem IsHex.backslash (h : IsHex ds n) : '\\' ∉ ds := h.not_mem rfl

theorem ne_plus_of_lax {d : Char} (hc : c = 'x' ∨ c = 'u') (h : lax c (d :: cs) = false) : d ≠ '+' := by
  rcases hc with rfl | rfl <;> simp_all [lax]

theorem closed_of_lax (h : lax 'u' ('{' :: cs) = false) : cs.head? ≠ some '+' ∧ '}' ∈ cs := by
  have h : (decide (cs.head? = some '+') || decide ('}' ∉ '{' :: cs)) = false := (Bool.or_eq_false_iff.1 h).2
  simpa using h

/-- Nothing but a well-formed escape is read where there is no lax one. -/
theorem exists_escape (h : escape (c :: cs) = some (ps, rest)) (hlax : lax c cs = false)
    (hps : ∀ p ∈ ps, p ≤ maxPoint) :
    ∃ ds, cs = ds ++ rest ∧ '\\' ∉ ds ∧ Escape rest (c :: ds) (ps.flatMap units) := by
  by_cases hsingle : c ∉ ['x', 'u'] ∧ (c = '\r' → cs.head? ≠ some '\n')
  · rw [escape_single hsingle.1 hsingle.2] at h
    cases h
    exact ⟨[], rfl, by simp, .of_single hsingle.1 hsingle.2⟩
  have hread := h
  rw [escape.eq_def] at h
  split at h
  case h_2 heq =>
    cases heq
    rename_i a b cs
    obtain ⟨n, rfl, rfl, -, hhex⟩ := isHex_of_map h (by simpa using ne_plus_of_lax (.inl rfl) hlax)
    rw [List.flatMap_singleton, units_of_lt (Nat.lt_of_lt_of_le hhex.lt (by simp))]
    exact ⟨[a, b], rfl, hhex.backslash, .two rfl hhex⟩
  case h_4 heq =>
    cases heq
    rename_i cs
    obtain ⟨hplus, hclose⟩ := closed_of_lax hlax
    obtain ⟨ds, cs, rfl, hds⟩ := List.eq_append_cons_of_mem hclose
    rw [escape_braced hds] at hread
    have hplus : ds.head? ≠ some '+' := by
      intro hd
      simp [List.head?_append, hd] at hplus
    obtain ⟨n, rfl, rfl, hne, hhex⟩ := isHex_of_map hread hplus
    refine ⟨'{' :: ds ++ ['}'], by simp, by simpa using hhex.backslash, ?_⟩
    rw [List.flatMap_singleton]
    exact .braced hne hhex (by simpa using hps)
  case h_5 heq =>
    cases heq
    rename_i a b c d cs hbrace
    obtain ⟨n, rfl, rfl, -, hhex⟩ := isHex_of_map h (by simpa using ne_plus_of_lax (.inr rfl) hlax)
    rw [List.flatMap_singleton, units_of_lt (Nat.lt_of_lt_of_le hhex.lt (by simp))]
    exact ⟨[a, b, c, d], rfl, hhex.backslash, .four rfl hhex⟩
  case h_7 heq =>
    cases heq
    cases h
    exact ⟨['\n'], rfl, by decide, .crlf⟩
  case h_8 hx _ _ hu hline heq =>
    cases heq
    refine absurd ⟨?_, fun hr hn => ?_⟩ hsingle
    · simpa using ⟨hx, hu⟩
    · obtain ⟨cs, rfl⟩ := List.head?_eq_some_iff.1 hn
      exact hline cs hr rfl
  all_goals cases h

/-! ### Bodies -/

/-- A well-formed body has points, and these are code points. -/
theorem Denotes.points_eq (h : Denotes cs us) :
    ∃ ps, points cs = some ps ∧ (∀ p ∈ ps, p ≤ maxPoint) ∧ ps.flatMap units = us := by
  induction h with
  | nil => exact ⟨[], by rw [points], by simp, rfl⟩
  | @plain c cs us hc _ ih =>
      obtain ⟨ps, hps, hle, rfl⟩ := ih
      refine ⟨c.toNat :: ps, ?_, List.forall_mem_cons.2 ⟨toNat_le_maxPoint c, hle⟩, rfl⟩
      rw [points, if_neg hc, hps]
      rfl
  | escape he _ ih =>
      obtain ⟨ps, hps, hle, rfl⟩ := ih
      obtain ⟨qs, hqs, hle', rfl⟩ := he.escape_eq
      refine ⟨qs ++ ps, ?_, List.forall_mem_append.2 ⟨hle', hle⟩, List.flatMap_append⟩
      rw [points_of_escape hqs, hps]
      rfl

theorem tidy_cons (hc : c ≠ '\\') (cs : List Char) : tidy (c :: cs) = tidy cs := by
  rw [tidy.eq_def]
  split
  · rename_i heq
    cases heq
    exact absurd rfl hc
  · rename_i heq
    cases heq
    rfl
  · rename_i heq
    cases heq

theorem tidy_append (hds : '\\' ∉ ds) (cs : List Char) : tidy (ds ++ cs) = tidy cs := by
  induction ds with
  | nil => rfl
  | cons d ds ih =>
      rw [List.mem_cons, not_or] at hds
      rw [List.cons_append, tidy_cons (Ne.symm hds.1), ih hds.2]

/-- A body without lax escapes has code points for its points only if it is well formed. -/
theorem denotes_of_points (h : points cs = some ps) (htidy : tidy cs = true) (hps : ∀ p ∈ ps, p ≤ maxPoint) :
    Denotes cs (ps.flatMap units) := by
  fun_induction points cs generalizing ps with
  | case1 =>
      cases h
      exact .nil
  | case2 => cases h
  | case3 cs qs rest hescape hlength ih =>
      obtain ⟨ps, hpoints, rfl⟩ := Option.map_eq_some_iff.1 h
      obtain ⟨hqs, hps⟩ := List.forall_mem_append.1 hps
      cases cs with
      | nil => cases hescape
      | cons c cs =>
          have hboth : (!lax c cs && tidy cs) = true := htidy
          rw [Bool.and_eq_true, Bool.not_eq_true'] at hboth
          obtain ⟨ds, rfl, hds, he⟩ := exists_escape hescape hboth.1 hqs
          rw [tidy_append hds] at hboth
          rw [List.flatMap_append]
          exact .escape he (ih hpoints hboth.2 hps)
  | case4 c cs hc ih =>
      obtain ⟨ps, hpoints, rfl⟩ := Option.map_eq_some_iff.1 h
      rw [tidy_cons hc] at htidy
      exact .plain hc (ih hpoints htidy (List.forall_mem_cons.1 hps).2)

/-- The literal with this body between two quotes. -/
def literal (q : Char) (body : List Char) : String := String.ofList (q :: body ++ [q])

theorem string?_literal {s : String} (hq : q = '"' ∨ q = '\'') : string? (literal q body) = some s ↔
    ∃ ps, points body = some ps ∧ (∀ p ∈ ps, p ≤ maxPoint) ∧ String.ofList (decode (ps.flatMap units)) = s := by
  have hbody : body? (literal q body).toList = some body := by
    rw [literal, String.toList_ofList, List.cons_append, body?, if_pos ⟨hq, List.getLast?_concat⟩, List.dropLast_concat]
  simp only [string?, hbody, Option.bind_eq_bind, Option.bind_some, Option.bind_eq_some_iff, Option.map_eq_some_iff,
    join_eq_some_iff]
  simp

theorem lax_eq_false (hc : c ∉ ['x', 'u']) (cs : List Char) : lax c cs = false := by
  simp only [List.mem_cons, List.not_mem_nil, or_false, not_or] at hc
  simp [lax, hc]

/-- A well-formed escape is no lax one, and no other escape begins in it. -/
theorem Escape.exists_not_lax (h : Escape rest text us) :
    ∃ c ds, text = c :: ds ∧ '\\' ∉ ds ∧ lax c (ds ++ rest) = false := by
  have hsingle : ∀ c, text = [c] → ∃ c ds, text = c :: ds ∧ '\\' ∉ ds ∧ lax c (ds ++ rest) = false := by
    rintro c rfl
    exact ⟨c, [], rfl, by simp, lax_eq_false (flatMap_single h).1 rest⟩
  have hplus : Json.hexValue? '+' = none := rfl
  have hbrace : Json.hexValue? '{' = none := rfl
  cases h with
  | control | null | zero | line | itself => exact hsingle _ rfl
  | @two ds n hds h =>
      obtain ⟨a, b, rfl⟩ := List.length_eq_two.1 hds
      have ha : a ≠ '+' := fun ha => h.not_mem hplus (by simp [ha])
      exact ⟨'x', [a, b], rfl, h.backslash, by simp [lax, ha]⟩
  | @four ds n hds h =>
      cases ds with
      | nil => cases hds
      | cons a ds =>
          have ha : a ≠ '+' := fun ha => h.not_mem hplus (by simp [ha])
          have ha' : a ≠ '{' := fun ha => h.not_mem hbrace (by simp [ha])
          exact ⟨'u', a :: ds, rfl, h.backslash, by simp [lax, ha, ha']⟩
  | @braced ds n hds h =>
      cases ds with
      | nil => exact absurd rfl hds
      | cons a ds =>
          have ha : a ≠ '+' := fun ha => h.not_mem hplus (by simp [ha])
          exact ⟨'u', '{' :: a :: ds ++ ['}'], rfl, by simpa using h.backslash, by simp [lax, ha]⟩
  | crlf => exact ⟨'\r', ['\n'], rfl, by decide, rfl⟩

theorem Denotes.tidy (h : Denotes body us) : tidy body = true := by
  induction h with
  | nil => rfl
  | plain hc _ ih => rw [tidy_cons hc, ih]
  | @escape text rest us vs he _ ih =>
      obtain ⟨c, ds, rfl, hds, hlax⟩ := he.exists_not_lax
      have hboth : Literal.tidy ('\\' :: (c :: ds ++ rest)) = (!lax c (ds ++ rest) && Literal.tidy (ds ++ rest)) := rfl
      rw [hboth, hlax, tidy_append hds, ih]
      rfl

/-- A literal denotes a text exactly if that text is read and no escape in it is a lax one. -/
theorem denotes_iff_read {s : String} (hq : q = '"' ∨ q = '\'') :
    (∃ us, Denotes body us ∧ String.ofList (decode us) = s) ↔
      tidy body = true ∧ string? (literal q body) = some s := by
  rw [string?_literal hq]
  constructor
  · rintro ⟨us, h, rfl⟩
    obtain ⟨ps, hps, hle, rfl⟩ := h.points_eq
    exact ⟨h.tidy, ps, hps, hle, rfl⟩
  · rintro ⟨htidy, ps, hps, hle, rfl⟩
    exact ⟨_, denotes_of_points hps htidy hle, rfl⟩

/-- Two surrogates that make one character, with a line break between them. -/
def brokenPair : List Char :=
  ['\\', 'u', 'd', '8', '3', 'D', '\\', '\r', '\n', '\\', 'u', '{', '0', 'D', 'E', '0', '0', '}']

theorem denotes_brokenPair : ∃ us, Denotes brokenPair us ∧ String.ofList (decode us) = "😀" :=
  (denotes_iff_read (.inl rfl)).2 ⟨by decide, show string? (literal '"' brokenPair) = some "😀" by decide +kernel⟩

/-- Digits with a sign and digits in a brace that is left open are read, though they denote nothing. -/
theorem lax_read :
    (string? (literal '"' ['\\', 'x', '+', '4']) = some "\x04" ∧ ¬∃ us, Denotes ['\\', 'x', '+', '4'] us) ∧
      string? (literal '\'' ['\\', 'u', '{', '4', '1']) = some "A" ∧ ¬∃ us, Denotes ['\\', 'u', '{', '4', '1'] us := by
  refine ⟨⟨by decide +kernel, ?_⟩, by decide +kernel, ?_⟩
  · rintro ⟨us, h⟩
    cases h.tidy
  · rintro ⟨us, h⟩
    cases h.tidy

end StaticGql.Literal
