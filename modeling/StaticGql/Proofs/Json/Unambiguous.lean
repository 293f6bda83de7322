import Mathlib.Logic.Basic
import StaticGql.Json.Printer
import StaticGql.Json.Reader

/-!
A string that is written is read back, whatever follows it.

What a compact text says: two values with one text are the same, apart perhaps from their numbers,
whose layout does not matter here.
-/

namespace StaticGql.Json

theorem hexValue?_hexDigit : ∀ n < 16, hexValue? (hexDigit n) = some n := by decide

theorem unicodeEscape_control {c : Char} (h : c.toNat < 32) (cs : List Char) :
    unicodeEscape ('0' :: '0' :: hexDigit (c.toNat / 16) :: hexDigit (c.toNat % 16) :: cs) =
      some (c, cs) := by
  have hunit : unit16 ('0' :: '0' :: hexDigit (c.toNat / 16) :: hexDigit (c.toNat % 16) :: cs) =
      some (c.toNat, cs) := by
    have hzero : hexValue? '0' = some 0 := rfl
    simp only [unit16, hzero, hexValue?_hexDigit (c.toNat / 16) (by omega),
      hexValue?_hexDigit (c.toNat % 16) (by omega), Option.bind_eq_bind, Option.bind_some,
      Option.some.injEq, Prod.mk.injEq, and_true]
    omega
  have hhigh : ¬(0xD800 ≤ c.toNat ∧ c.toNat < 0xDC00) := by omega
  have hlow : ¬(0xDC00 ≤ c.toNat ∧ c.toNat < 0xE000) := by omega
  simp only [unicodeEscape, hunit, Option.bind_eq_bind, Option.bind_some, if_neg hhigh, if_neg hlow,
    Char.ofNat_toNat]

/-- Each escape is undone by one step of the reader. -/
theorem stringBody_escape (fuel : Nat) (c : Char) (cs : List Char) :
    stringBody (fuel + 1) (escape c ++ cs) = (stringBody fuel cs).map fun p => (c :: p.1, p.2) := by
  have hbind : ∀ x : Option (List Char × List Char),
      (x.bind fun p => some (c :: p.1, p.2)) = x.map fun p => (c :: p.1, p.2) := fun x => by
    cases x <;> rfl
  by_cases h : c ∈ ['"', '\\', '\x08', '\t', '\n', '\x0c', '\r']
  · simp only [List.mem_cons, List.not_mem_nil, or_false] at h
    rcases h with rfl | rfl | rfl | rfl | rfl | rfl | rfl <;> exact hbind _
  · simp only [List.mem_cons, List.not_mem_nil, or_false, not_or] at h
    obtain ⟨h₁, h₂, h₃, h₄, h₅, h₆, h₇⟩ := h
    rw [escape, if_neg h₁, if_neg h₂, if_neg h₃, if_neg h₄, if_neg h₅, if_neg h₆, if_neg h₇]
    by_cases hlow : c.toNat < 32
    · rw [if_pos hlow]
      simp only [List.cons_append, List.nil_append, stringBody, unicodeEscape_control hlow,
        Option.bind_eq_bind, Option.bind_some]
      exact hbind _
    · rw [if_neg hlow, List.cons_append, List.nil_append, stringBody]
      · simp only [hlow, h₂, or_self, if_false, Option.bind_eq_bind]
        exact hbind _
      · exact h₁
      · exact fun _ h _ => h₂ h
      · exact fun _ _ h _ => h₂ h

theorem stringBody_escape_all (cs rest : List Char) (fuel : Nat) (h : cs.length < fuel) :
    stringBody fuel (cs.flatMap escape ++ '"' :: rest) = some (cs, rest) := by
  induction cs generalizing fuel with
  | nil =>
      obtain ⟨n, rfl⟩ := Nat.exists_eq_succ_of_ne_zero (Nat.ne_zero_of_lt h)
      rfl
  | cons c cs ih =>
      obtain ⟨n, rfl⟩ := Nat.exists_eq_succ_of_ne_zero (Nat.ne_zero_of_lt h)
      rw [List.flatMap_cons, List.append_assoc, stringBody_escape, ih n (by simpa using h)]
      rfl

theorem length_le_escape (cs : List Char) : cs.length ≤ (cs.flatMap escape).length := by
  induction cs with
  | nil => simp
  | cons c cs ih =>
      have : 1 ≤ (escape c).length := by
        unfold escape
        repeat' split
        all_goals simp
      rw [List.flatMap_cons, List.length_append, List.length_cons]
      omega

theorem string_quote (s : String) (rest : List Char) : string (quote s ++ rest) = some (s, rest) := by
  have hlength := length_le_escape s.toList
  simp only [quote, List.cons_append, List.append_assoc, List.nil_append, string]
  rw [stringBody_escape_all s.toList rest _ (by rw [List.length_append]; omega)]
  simp

/-- Texts that begin with quoted strings begin with the same string. -/
theorem quote_inj {s s' : String} {rest rest' : List Char}
    (h : quote s ++ rest = quote s' ++ rest') : s = s' ∧ rest = rest' := by
  have := string_quote s rest
  rw [h, string_quote, Option.some.injEq, Prod.mk.injEq] at this
  exact ⟨this.1.symm, this.2.symm⟩

mutual

/-- A value with one number in place of all. -/
def blur : Json → Json
  | num _ => num (.int 0)
  | arr items => arr (blurItems items)
  | obj fields => obj (blurFields fields)
  | j => j

def blurItems : List Json → List Json
  | [] => []
  | j :: rest => blur j :: blurItems rest

def blurFields : List (String × Json) → List (String × Json)
  | [] => []
  | (k, v) :: rest => (k, blur v) :: blurFields rest

end

/-! ### Numbers -/

/-- The characters that the text of a number is made of. -/
def isNumberChar (c : Char) : Bool := c.isDigit || c ∈ ['.', 'e', '-', '+']

theorem isNumberChar_of_mem_toDigits {c : Char} {n : Nat} (h : c ∈ Nat.toDigits 10 n) :
    isNumberChar c = true := by
  simp [isNumberChar, Nat.isDigit_of_mem_toDigits (by decide) (by decide) h]

theorem isNumberChar_of_mem_positional {digits : List Char} {point : Int}
    (h : ∀ c ∈ digits, isNumberChar c = true) :
    ∀ c ∈ Binary64.positional digits point, isNumberChar c = true := by
  have hzeros : ∀ n, ∀ c ∈ Binary64.zeros n, isNumberChar c = true := by
    intro n c hc
    rw [List.eq_of_mem_replicate hc]
    rfl
  intro c hc
  unfold Binary64.positional at hc
  split at hc
  · simp only [List.mem_cons, List.mem_append] at hc
    rcases hc with rfl | rfl | hc | hc
    · rfl
    · rfl
    · exact hzeros _ c hc
    · exact h c hc
  · simp only [List.mem_append, List.mem_cons] at hc
    rcases hc with (hc | hc) | rfl | hc
    · exact h c (List.mem_of_mem_take hc)
    · exact hzeros _ c hc
    · rfl
    · split at hc
      · rw [List.mem_singleton.1 hc]
        rfl
      · exact h c (List.mem_of_mem_drop hc)

theorem isNumberChar_of_mem_scientific {digits : List Char} {point : Int}
    (h : ∀ c ∈ digits, isNumberChar c = true) :
    ∀ c ∈ Binary64.scientific digits point, isNumberChar c = true := by
  intro c hc
  simp only [Binary64.scientific, List.mem_append, List.mem_cons] at hc
  rcases hc with hc | rfl | rfl | hc
  · split at hc
    · cases hc
    · exact h c hc
    · simp only [List.mem_cons] at hc
      rcases hc with rfl | rfl | hc
      · exact h c (by simp)
      · rfl
      · exact h c (by simp [hc])
  · rfl
  · split <;> rfl
  · exact isNumberChar_of_mem_toDigits hc

theorem Number.text_spec (n : Number) : n.text ≠ [] ∧ ∀ c ∈ n.text, isNumberChar c = true := by
  cases n with
  | int i =>
      refine ⟨by simp [text, Nat.toDigits_ne_nil], fun c hc => ?_⟩
      simp only [text, List.mem_append] at hc
      rcases hc with hc | hc
      · split at hc
        · rw [List.mem_singleton.1 hc]
          rfl
        · cases hc
      · exact isNumberChar_of_mem_toDigits hc
  | real x =>
      have hbody : ∀ b : List Char, b ≠ [] → (∀ c ∈ b, isNumberChar c = true) →
          (if x.negative then '-' :: b else b) ≠ [] ∧
            ∀ c ∈ (if x.negative then '-' :: b else b), isNumberChar c = true := by
        intro b hb hc
        split
        · refine ⟨by simp, fun c hmem => ?_⟩
          rcases List.mem_cons.1 hmem with rfl | hmem
          · rfl
          · exact hc c hmem
        · exact ⟨hb, hc⟩
      have hdigits := fun n c => isNumberChar_of_mem_toDigits (c := c) (n := n)
      simp only [text, Binary64.text, String.toList_ofList]
      apply hbody
      · split
        · simp
        · split
          · unfold Binary64.positional
            split <;> simp
          · simp [Binary64.scientific]
      · split
        · simp [isNumberChar]
        · split
          · exact isNumberChar_of_mem_positional (hdigits _)
          · exact isNumberChar_of_mem_scientific (hdigits _)

/-- A text that does not go on with a number. -/
def Ends (cs : List Char) : Prop := ∀ c rest, cs = c :: rest → isNumberChar c = false

theorem Ends.cons {c : Char} {rest : List Char} (h : isNumberChar c = false) : Ends (c :: rest) := by
  intro c' rest' he
  cases he
  exact h

theorem takeWhile_number {n : Number} {rest : List Char} (h : Ends rest) :
    (n.text ++ rest).takeWhile isNumberChar = n.text ∧
      (n.text ++ rest).dropWhile isNumberChar = rest := by
  have hall := n.text_spec.2
  rw [List.takeWhile_append_of_pos hall, List.dropWhile_append_of_pos hall]
  cases rest with
  | nil => simp
  | cons c rest => simp [h c rest rfl]

/-! ### Values -/

/-- The characters that the text of a value may begin with. -/
def leads : Json → Char → Prop
  | null, c => c = 'n'
  | bool true, c => c = 't'
  | bool false, c => c = 'f'
  | num _, c => isNumberChar c = true
  | str _, c => c = '"'
  | arr _, c => c = '['
  | obj _, c => c = '{'

theorem exists_lead (j : Json) : ∃ c rest, compactChars j = c :: rest ∧ leads j c := by
  cases j with
  | null => exact ⟨_, _, rfl, rfl⟩
  | bool b => cases b <;> exact ⟨_, _, rfl, rfl⟩
  | num n =>
      obtain ⟨hne, hall⟩ := n.text_spec
      obtain ⟨c, rest, hc⟩ := List.exists_cons_of_ne_nil hne
      exact ⟨c, rest, hc, hall c (by simp [hc])⟩
  | str s => exact ⟨_, _, rfl, rfl⟩
  | arr items => exact ⟨_, _, rfl, rfl⟩
  | obj fields => exact ⟨_, _, rfl, rfl⟩

theorem exists_lead_append {a b : Json} {s t : List Char}
    (h : compactChars a ++ s = compactChars b ++ t) : ∃ c, leads a c ∧ leads b c := by
  obtain ⟨c, rest, hc, hlead⟩ := exists_lead a
  obtain ⟨c', rest', hc', hlead'⟩ := exists_lead b
  rw [hc, hc', List.cons_append, List.cons_append, List.cons.injEq] at h
  exact ⟨c, hlead, h.1 ▸ hlead'⟩

theorem not_leads_close {j : Json} {c : Char} (h : leads j c) : c ≠ ']' ∧ c ≠ '}' ∧ c ≠ ',' := by
  have : ∀ c, isNumberChar c = true → c ≠ ']' ∧ c ≠ '}' ∧ c ≠ ',' := by
    rintro c hc
    refine ⟨?_, ?_, ?_⟩ <;>
    · rintro rfl
      simp [isNumberChar] at hc
  match j, h with
  | null, h | bool true, h | bool false, h | str _, h | arr _, h | obj _, h =>
    subst h
    decide
  | num _, h => exact this c h

/-- What follows one item of a list: the others, or the end of the list. -/
def afterItem (rest : List Json) (s : List Char) : List Char :=
  if rest.isEmpty then ']' :: s else ',' :: (compactItems rest ++ ']' :: s)

theorem compactItems_cons (j : Json) (rest : List Json) (s : List Char) :
    compactItems (j :: rest) ++ ']' :: s = compactChars j ++ afterItem rest s := by
  cases rest <;> simp [compactItems, afterItem]

theorem ends_nil : Ends [] := by
  intro c rest h
  cases h

theorem ends_afterItem (rest : List Json) (s : List Char) : Ends (afterItem rest s) := by
  unfold afterItem
  split <;> exact Ends.cons rfl

def afterField (rest : List (String × Json)) (s : List Char) : List Char :=
  if rest.isEmpty then '}' :: s else ',' :: (compactFields rest ++ '}' :: s)

theorem compactFields_cons (k : String) (v : Json) (rest : List (String × Json)) (s : List Char) :
    compactFields ((k, v) :: rest) ++ '}' :: s =
      quote k ++ ':' :: (compactChars v ++ afterField rest s) := by
  cases rest <;> simp [compactFields, afterField]

theorem ends_afterField (rest : List (String × Json)) (s : List Char) : Ends (afterField rest s) := by
  unfold afterField
  split <;> exact Ends.cons rfl

theorem ne_close_of_item (j : Json) (rest : List Json) (s t : List Char) :
    compactItems (j :: rest) ++ ']' :: s ≠ compactItems [] ++ ']' :: t := by
  intro h
  obtain ⟨c, cs, hc, hlead⟩ := exists_lead j
  rw [compactItems_cons, hc, List.cons_append, compactItems, List.nil_append, List.cons.injEq] at h
  exact (not_leads_close hlead).1 h.1

mutual

/-- Texts that begin with values begin with the same value, apart from numbers. -/
theorem compactChars_inj (a b : Json) {s t : List Char} (hs : Ends s) (ht : Ends t)
    (h : compactChars a ++ s = compactChars b ++ t) : a.blur = b.blur ∧ s = t := by
  obtain ⟨c, ha, hb⟩ := exists_lead_append h
  match a, b, ha, hb, h with
  | null, null, _, _, h => exact ⟨rfl, by simpa [compactChars] using h⟩
  | bool true, bool true, _, _, h => exact ⟨rfl, by simpa [compactChars] using h⟩
  | bool false, bool false, _, _, h => exact ⟨rfl, by simpa [compactChars] using h⟩
  | num n, num m, _, _, h =>
    simp only [compactChars] at h
    have hn := (takeWhile_number (n := n) hs).2
    have hm := (takeWhile_number (n := m) ht).2
    exact ⟨rfl, by rw [← hn, ← hm, h]⟩
  | str u, str v, _, _, h =>
    simp only [compactChars] at h
    obtain ⟨rfl, hst⟩ := quote_inj h
    exact ⟨rfl, hst⟩
  | arr l, arr m, _, _, h =>
    simp only [compactChars, List.cons_append, List.append_assoc, List.nil_append, List.cons.injEq,
      true_and] at h
    obtain ⟨hlm, hst⟩ := compactItems_inj l m h
    exact ⟨by simp only [blur, hlm], hst⟩
  | obj l, obj m, _, _, h =>
    simp only [compactChars, List.cons_append, List.append_assoc, List.nil_append, List.cons.injEq,
      true_and] at h
    obtain ⟨hlm, hst⟩ := compactFields_inj l m h
    exact ⟨by simp only [blur, hlm], hst⟩

theorem compactItems_inj (l m : List Json) {s t : List Char}
    (h : compactItems l ++ ']' :: s = compactItems m ++ ']' :: t) :
    blurItems l = blurItems m ∧ s = t := by
  match l, m, h with
  | [], [], h => exact ⟨rfl, by simpa [compactItems] using h⟩
  | a :: l, [], h => exact absurd h (ne_close_of_item a l s t)
  | [], b :: m, h => exact absurd h.symm (ne_close_of_item b m t s)
  | a :: l, b :: m, h =>
    rw [compactItems_cons, compactItems_cons] at h
    obtain ⟨hab, hrest⟩ := compactChars_inj a b (ends_afterItem l s) (ends_afterItem m t) h
    match l, m, hrest with
    | [], [], hrest => exact ⟨by simp only [blurItems, hab], by simpa [afterItem] using hrest⟩
    | a' :: l, [], hrest => simp [afterItem] at hrest
    | [], b' :: m, hrest => simp [afterItem] at hrest
    | a' :: l, b' :: m, hrest =>
      obtain ⟨hlm, hst⟩ := compactItems_inj (a' :: l) (b' :: m) (by simpa [afterItem] using hrest)
      exact ⟨congrArg₂ List.cons hab hlm, hst⟩

theorem compactFields_inj (l m : List (String × Json)) {s t : List Char}
    (h : compactFields l ++ '}' :: s = compactFields m ++ '}' :: t) :
    blurFields l = blurFields m ∧ s = t := by
  match l, m, h with
  | [], [], h => exact ⟨rfl, by simpa [compactFields] using h⟩
  | (k, a) :: l, [], h =>
    rw [compactFields_cons] at h
    simp [compactFields, quote] at h
  | [], (k, b) :: m, h =>
    rw [compactFields_cons] at h
    simp [compactFields, quote] at h
  | (k, a) :: l, (k', b) :: m, h =>
    rw [compactFields_cons, compactFields_cons] at h
    obtain ⟨rfl, hcolon⟩ := quote_inj h
    obtain ⟨hab, hrest⟩ :=
      compactChars_inj a b (ends_afterField l s) (ends_afterField m t) (List.cons.inj hcolon).2
    match l, m, hrest with
    | [], [], hrest => exact ⟨by simp only [blurFields, hab], by simpa [afterField] using hrest⟩
    | a' :: l, [], hrest => simp [afterField] at hrest
    | [], b' :: m, hrest => simp [afterField] at hrest
    | a' :: l, b' :: m, hrest =>
      obtain ⟨hlm, hst⟩ := compactFields_inj (a' :: l) (b' :: m) (by simpa [afterField] using hrest)
      exact ⟨congrArg₂ List.cons (congrArg (Prod.mk k) hab) hlm, hst⟩

end

/-- One compact text, one value, but for the numbers. -/
theorem blur_eq_of_compact_eq {a b : Json} (h : a.compact = b.compact) : a.blur = b.blur := by
  have hchars : compactChars a ++ [] = compactChars b ++ [] := by
    simpa [compact, String.ofList_inj] using h
  exact (compactChars_inj a b ends_nil ends_nil hchars).1

end StaticGql.Json
