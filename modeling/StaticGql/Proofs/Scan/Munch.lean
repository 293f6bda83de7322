import Mathlib.Tactic.ByContra
import StaticGql.Proofs.Scan.Brackets

/-!
Where a token ends is decided by what is directly behind it, but for slashes that might open a regular expression.
-/

namespace StaticGql.Scan

variable {c : Char} {w rest rest' : List Char} {k : TokenKind} {k? : Option TokenKind} {n : Nat}
  {previous : Option Token} {p : Char → Bool}

/-! ### Runs -/

/-- No character of this kind comes next. -/
def Stops (p : Char → Bool) (rest : List Char) : Prop := ∀ c ∈ rest.head?, p c = false

theorem run_nil : run p [] = 0 := rfl

theorem run_cons (h : p c = true) : run p (c :: w) = run p w + 1 := by
  simp [run, h]

theorem run_cons_of_stops (h : p c = false) : run p (c :: w) = 0 := by
  simp [run, h]

theorem run_eq_zero_iff : run p rest = 0 ↔ Stops p rest := by
  cases rest with
  | nil => simp [run_nil, Stops]
  | cons c rest =>
      cases hc : p c with
      | true => simp [run_cons hc, Stops, hc]
      | false => simp [run_cons_of_stops hc, Stops, hc]

theorem run_eq_length_iff : run p (w ++ rest) = w.length ↔ (∀ c ∈ w, p c = true) ∧ Stops p rest := by
  induction w with
  | nil => simpa using run_eq_zero_iff
  | cons c w ih =>
      cases hc : p c with
      | true => simpa [run_cons hc, hc] using ih
      | false => simp [run_cons_of_stops hc, hc]

/-- Where the run cannot go on into what follows, it is that of the text alone. -/
theorem run_append (h : Stops p rest) : run p (w ++ rest) = run p w := by
  induction w with
  | nil => simpa [run_nil] using run_eq_zero_iff.2 h
  | cons c w ih =>
      cases hc : p c with
      | true => simpa [run_cons hc] using ih
      | false => simp [run_cons_of_stops hc]

theorem run_le : run p w ≤ w.length := by
  induction w with
  | nil => simp [run_nil]
  | cons c w ih =>
      cases hc : p c with
      | true => simpa [run_cons hc] using ih
      | false => simp [run_cons_of_stops hc]

theorem Stops.of_head (h : Stops p rest) (hhead : rest'.head? = rest.head?) : Stops p rest' := by
  rwa [Stops, hhead]

theorem Stops.mono {q : Char → Bool} (h : Stops p rest) (hq : ∀ c, q c = true → p c = true) : Stops q rest := by
  intro c hc
  by_contra hne
  rw [Bool.not_eq_false] at hne
  cases (hq c hne).symm.trans (h c hc)

/-! ### Numbers -/

theorem isWordPart_of_isDigitOrBar (h : isDigitOrBar c = true) : isWordPart c = true := by
  simp only [isDigitOrBar, Bool.or_eq_true] at h
  simp only [isWordPart, Char.isAlphanum, Bool.or_eq_true]
  tauto

theorem isWordPart_of_isHexOrBar (h : isHexOrBar c = true) : isWordPart c = true := by
  simp only [isHexOrBar, Bool.or_eq_true, Bool.and_eq_true, decide_eq_true_eq, Char.le_def,
    UInt32.le_iff_toNat_le] at h
  have halpha : c.isAlpha =
      (decide (c.val ≥ 'A'.val ∧ c.val ≤ 'Z'.val) || decide (c.val ≥ 'a'.val) && decide (c.val ≤ 'z'.val)) := rfl
  simp only [isWordPart, Char.isAlphanum, halpha, Bool.or_eq_true, Bool.and_eq_true, decide_eq_true_eq, ge_iff_le,
    UInt32.le_iff_toNat_le]
  have hupper : 'F'.val.toNat ≤ 'Z'.val.toNat := by decide
  have hlower : 'f'.val.toNat ≤ 'z'.val.toNat := by decide
  rcases h with ((hdigit | hlow) | hup) | hbar
  · tauto
  · exact .inl (.inl (.inl (.inr ⟨hlow.1, Nat.le_trans hlow.2 hlower⟩)))
  · exact .inl (.inl (.inl (.inl ⟨hup.1, Nat.le_trans hup.2 hupper⟩)))
  · tauto

/-- What may be part of a word does not come next. -/
abbrev Bare (rest : List Char) : Prop := Stops isWordPart rest

theorem Bare.digits (h : Bare rest) : Stops isDigitOrBar rest := h.mono fun _ => isWordPart_of_isDigitOrBar

theorem Bare.hexes (h : Bare rest) : Stops isHexOrBar rest := h.mono fun _ => isWordPart_of_isHexOrBar

theorem bigMark_append (h : Bare rest) : bigMark (w ++ rest) = bigMark w := by
  cases w with
  | cons c w =>
      rw [List.cons_append]
      by_cases hc : c = 'n'
      · rw [hc]
        rfl
      · rw [bigMark.eq_def, bigMark.eq_def]
        split <;> split <;> simp_all
  | nil =>
      rw [List.nil_append, bigMark.eq_def, bigMark.eq_def]
      split
      · cases h 'n' rfl
      · rfl

/-- An exponent is that of the text alone, unless nothing but its letter is in it. -/
theorem exponent_append (h : Bare rest) (hw : w.length ≠ 1) : exponent (w ++ rest) = exponent w := by
  rcases w with _ | ⟨e, _ | ⟨s, w⟩⟩
  · rw [List.nil_append, exponent.eq_def, exponent.eq_def]
    split
    · rename_i e rest'
      rw [if_neg]
      simp only [Bool.or_eq_true, decide_eq_true_eq]
      rintro (rfl | rfl)
      · cases h 'e' rfl
      · cases h 'E' rfl
    · rfl
  · exact absurd rfl hw
  · have hrun : ∀ w : List Char, run isDigitOrBar (w ++ rest) = run isDigitOrBar w := fun _ => run_append h.digits
    by_cases hs : s = '+' ∨ s = '-'
    · rcases hs with rfl | rfl
      · simp only [List.cons_append, exponent, hrun]
      · simp only [List.cons_append, exponent, hrun]
    · rw [not_or] at hs
      have hplain : ∀ w, exponent (e :: s :: w) = if e = 'e' || e = 'E' then
          if run isDigitOrBar (s :: w) = 0 then 0 else run isDigitOrBar (s :: w) + 1 else 0 := by
        intro w
        rw [exponent.eq_def]
        simp only
        split
        · simp_all
        · simp_all
      rw [List.cons_append, List.cons_append, hplain, hplain, ← List.cons_append, hrun]

theorem exponent_ne_one (cs : List Char) : exponent cs ≠ 1 := by
  rw [exponent.eq_def]
  repeat' split
  all_goals omega

theorem exponent_le (cs : List Char) : exponent cs ≤ cs.length := by
  have hrun : ∀ cs, run isDigitOrBar cs ≤ cs.length := fun _ => run_le
  rw [exponent.eq_def]
  split
  · rename_i e cs
    have hcs := hrun cs
    rw [List.length_cons]
    split
    · split
      · rename_i cs'
        have := hrun cs'
        split <;> simp only [List.length_cons] <;> omega
      · rename_i cs'
        have := hrun cs'
        split <;> simp only [List.length_cons] <;> omega
      · split <;> omega
    · omega
  · omega

/-- The length of digits in another radix, with the letter in front of them. -/
def radixAfter (first : Char) : List Char → Nat
  | x :: cs =>
    if first = '0' && x ∈ ['x', 'X', 'o', 'O', 'b', 'B'] then
      if run isHexOrBar cs = 0 then 0 else 1 + run isHexOrBar cs + bigMark (cs.drop (run isHexOrBar cs))
    else 0
  | [] => 0

/-- The length of a point with the digits behind it. -/
def fractionAfter : List Char → Nat
  | '.' :: cs => 1 + run isDigitOrBar cs
  | _ => 0

/-- The length of an exponent with the mark of a big number. -/
def endAfter (cs : List Char) : Nat := exponent cs + bigMark (cs.drop (exponent cs))

def decimalAfter (cs : List Char) : Nat :=
  let n := run isDigitOrBar cs + fractionAfter (cs.drop (run isDigitOrBar cs))
  n + endAfter (cs.drop n)

theorem numberAfter_eq (first : Char) (cs : List Char) : numberAfter first cs =
    if radixAfter first cs ≠ 0 then radixAfter first cs else decimalAfter cs := by
  have hdecimal : ∀ n, n + exponent (cs.drop n) + bigMark (cs.drop (n + exponent (cs.drop n))) =
      n + endAfter (cs.drop n) := by
    intro n
    rw [endAfter, List.drop_drop, Nat.add_assoc]
  rw [numberAfter.eq_def, decimalAfter, ← hdecimal]
  cases cs <;> rfl

theorem radixAfter_append (h : Bare rest) (first : Char) : radixAfter first (w ++ rest) = radixAfter first w := by
  cases w with
  | nil =>
      cases rest with
      | nil => rfl
      | cons x rest =>
          have hx : x ∉ ['x', 'X', 'o', 'O', 'b', 'B'] := by
            intro hx
            have hpart := h x rfl
            simp only [List.mem_cons, List.not_mem_nil, or_false] at hx
            rcases hx with rfl | rfl | rfl | rfl | rfl | rfl <;> cases hpart
          simp [radixAfter, hx]
  | cons x w =>
      rw [List.cons_append, radixAfter, radixAfter, run_append h.hexes, List.drop_append_of_le_length run_le,
        bigMark_append h]

theorem fractionAfter_append (hw : w ≠ []) (h : Bare rest) : fractionAfter (w ++ rest) = fractionAfter w := by
  cases w with
  | nil => exact absurd rfl hw
  | cons c w =>
      by_cases hc : c = '.'
      · rw [hc, List.cons_append, fractionAfter, fractionAfter, run_append h.digits]
      · rw [List.cons_append, fractionAfter.eq_def, fractionAfter.eq_def]
        split <;> split <;> simp_all

theorem fractionAfter_le (cs : List Char) : fractionAfter cs ≤ cs.length := by
  rw [fractionAfter.eq_def]
  split
  · have := @run_le ‹_› isDigitOrBar
    simp only [List.length_cons]
    omega
  · omega

/-- An end of a number that is not cut short is the same in front of anything else that is no part of a word. -/
theorem endAfter_append (h : Bare rest) (h' : Bare rest') (hlen : endAfter (w ++ rest) = w.length) :
    endAfter (w ++ rest') = w.length := by
  by_cases hw : w.length = 1
  · obtain ⟨x, rfl⟩ := List.length_eq_one_iff.1 hw
    have hone := exponent_ne_one (x :: rest)
    rw [endAfter, List.singleton_append] at hlen
    have hzero : exponent (x :: rest) = 0 := by
      by_contra hne
      simp only [List.length_singleton] at hlen
      omega
    rw [hzero, Nat.zero_add, List.drop_zero] at hlen
    have hx : x = 'n' := by
      rw [bigMark.eq_def] at hlen
      split at hlen
      · rename_i heq
        exact (List.cons.inj heq).1
      · cases hlen
    rw [hx]
    rfl
  · have hany : ∀ rest, Bare rest → endAfter (w ++ rest) = endAfter w := by
      intro rest h
      rw [endAfter, exponent_append h hw, List.drop_append_of_le_length (exponent_le w), bigMark_append h]
      rfl
    rw [hany rest' h', ← hany rest h, hlen]

theorem decimalAfter_append (h : Bare rest) (hhead : rest'.head? = rest.head?)
    (hlen : decimalAfter (w ++ rest) = w.length) : decimalAfter (w ++ rest') = w.length := by
  have h' : Bare rest' := h.of_head hhead
  have hle : run isDigitOrBar w ≤ w.length := run_le
  simp only [decimalAfter, run_append h.digits, run_append h'.digits, List.drop_append_of_le_length hle] at hlen ⊢
  have hfraction : fractionAfter (w.drop (run isDigitOrBar w) ++ rest) = fractionAfter (w.drop (run isDigitOrBar w)) ∧
      fractionAfter (w.drop (run isDigitOrBar w) ++ rest') = fractionAfter (w.drop (run isDigitOrBar w)) := by
    by_cases hdrop : w.drop (run isDigitOrBar w) = []
    · -- behind its digits the number is over, so that no point comes next
      have hlength := congrArg List.length hdrop
      rw [List.length_drop, List.length_nil] at hlength
      have hzero : fractionAfter rest = 0 := by
        rw [hdrop, List.nil_append] at hlen
        omega
      have hpoint : rest.head? ≠ some '.' := by
        intro hpoint
        obtain ⟨tail, rfl⟩ := List.head?_eq_some_iff.1 hpoint
        rw [fractionAfter] at hzero
        omega
      have hnone : ∀ rest : List Char, rest.head? ≠ some '.' → fractionAfter rest = 0 := by
        intro rest hrest
        rw [fractionAfter.eq_def]
        split
        · exact absurd rfl hrest
        · rfl
      rw [hdrop]
      exact ⟨hnone rest hpoint, hnone rest' (hhead ▸ hpoint)⟩
    · exact ⟨fractionAfter_append hdrop h, fractionAfter_append hdrop h'⟩
  have hbound := fractionAfter_le (w.drop (run isDigitOrBar w))
  rw [List.length_drop] at hbound
  rw [hfraction.1] at hlen
  rw [hfraction.2]
  generalize hn : run isDigitOrBar w + fractionAfter (w.drop (run isDigitOrBar w)) = n at hlen ⊢
  have hnle : n ≤ w.length := by omega
  rw [List.drop_append_of_le_length hnle] at hlen ⊢
  have hend := @endAfter_append (w.drop n) rest rest' h h' (by rw [List.length_drop]; omega)
  rw [hend, List.length_drop]
  omega

/-- A number ends where it does in front of anything that begins as what follows it, if that is no part of a word. -/
theorem numberAfter_append {first : Char} (h : Bare rest) (hhead : rest'.head? = rest.head?)
    (hlen : numberAfter first (w ++ rest) = w.length) : numberAfter first (w ++ rest') = w.length := by
  rw [numberAfter_eq, radixAfter_append h] at hlen
  rw [numberAfter_eq, radixAfter_append (h.of_head hhead)]
  split at hlen
  · rw [if_pos ‹_›]
    exact hlen
  · rw [if_neg ‹_›]
    exact decimalAfter_append h hhead hlen

/-! ### Quoted texts and comments -/

section quoted

variable {quote : Char} {multiline closed : Bool}

theorem quoted_escaped (d : Char) (cs : List Char) : quoted quote multiline ('\\' :: d :: cs) =
    ((quoted quote multiline cs).1 + 2, (quoted quote multiline cs).2) := rfl

theorem quoted_cons (hc : c ≠ '\\') (cs : List Char) : quoted quote multiline (c :: cs) =
    if c = quote then (1, true) else if c = '\n' && !multiline then (0, false)
    else ((quoted quote multiline cs).1 + 1, (quoted quote multiline cs).2) := by
  rw [quoted.eq_def]
  split
  · simp_all
  · simp_all
  · simp_all
  · simp_all

/-- Behind its first characters, which are taken one or two at a time, a quotation goes on as it does by itself. -/
theorem quoted_induction {motive : List Char → Prop} (w : List Char) (nil : motive []) (single : motive ['\\'])
    (escaped : ∀ d w, motive w → motive ('\\' :: d :: w)) (plain : ∀ c w, c ≠ '\\' → motive w → motive (c :: w)) :
    motive w := by
  induction hw : w.length using Nat.strongRecOn generalizing w with
  | ind n ih =>
      subst hw
      match w with
      | [] => exact nil
      | c :: w =>
          by_cases hc : c = '\\'
          · subst hc
            match w with
            | [] => exact single
            | d :: w => exact escaped d w (ih w.length (by simp only [List.length_cons]; omega) w rfl)
          · exact plain c w hc (ih w.length (by simp) w rfl)

/-- Nothing is taken of a quotation only at the end of the line, or of the text. -/
theorem head_of_quoted_eq_zero (h : quoted quote multiline rest = (0, closed)) (hrest : rest ≠ []) :
    closed = false ∧ multiline = false ∧ quote ≠ '\n' ∧ rest.head? = some '\n' := by
  cases rest with
  | nil => exact absurd rfl hrest
  | cons c rest =>
      by_cases hc : c = '\\'
      · cases rest <;> simp [hc, quoted] at h
      · rw [quoted_cons hc] at h
        split at h
        · cases h
        · split at h
          · rename_i hquote hbreak
            cases h
            simp only [Bool.and_eq_true, decide_eq_true_eq, Bool.not_eq_true'] at hbreak
            exact ⟨rfl, hbreak.2, fun heq => hquote (hbreak.1.trans heq.symm), congrArg some hbreak.1⟩
          · cases h

theorem quoted_of_head (hquote : quote ≠ '\n') (hrest : rest.head? = some '\n') :
    quoted quote false rest = (0, false) := by
  obtain ⟨tail, rfl⟩ := List.head?_eq_some_iff.1 hrest
  rw [quoted_cons (by decide), if_neg (Ne.symm hquote), if_pos (by decide)]

/-- A quotation that is not closed goes on to the end of the line, or of the text. -/
theorem head_of_quoted (h : quoted quote multiline (w ++ rest) = (w.length, false)) (hrest : rest ≠ []) :
    rest.head? = some '\n' := by
  induction w using quoted_induction with
  | nil => exact (head_of_quoted_eq_zero h hrest).2.2.2
  | single =>
      cases rest with
      | nil => exact absurd rfl hrest
      | cons d rest => simp [quoted_escaped] at h
  | escaped d w ih =>
      simp only [List.cons_append, quoted_escaped, List.length_cons, Prod.mk.injEq] at h
      exact ih (Prod.ext_iff.2 ⟨by simp only; omega, h.2⟩)
  | plain c w hc ih =>
      simp only [List.cons_append, quoted_cons hc, List.length_cons] at h
      split at h
      · simp at h
      · split at h
        · cases h
        · simp only [Prod.mk.injEq, Nat.add_right_cancel_iff] at h
          exact ih (Prod.ext_iff.2 h)

/-- A quotation ends where it does, whatever follows if it is closed. -/
theorem quoted_append (h : quoted quote multiline (w ++ rest) = (w.length, closed))
    (hrest : closed = false → rest ≠ [] ∧ rest'.head? = rest.head?) :
    quoted quote multiline (w ++ rest') = (w.length, closed) := by
  induction w using quoted_induction with
  | nil =>
      by_cases hnil : rest = []
      · subst hnil
        cases h
        exact absurd rfl (hrest rfl).1
      · obtain ⟨rfl, rfl, hquote, hhead⟩ := head_of_quoted_eq_zero h hnil
        exact quoted_of_head hquote ((hrest rfl).2.trans hhead)
  | single =>
      cases rest with
      | nil =>
          cases h
          exact absurd rfl (hrest rfl).1
      | cons d rest => simp [quoted_escaped] at h
  | escaped d w ih =>
      simp only [List.cons_append, quoted_escaped, List.length_cons, Prod.mk.injEq] at h ⊢
      have hih := ih (Prod.ext_iff.2 ⟨by simp only; omega, h.2⟩)
      rw [hih]
      exact ⟨rfl, rfl⟩
  | plain c w hc ih =>
      simp only [List.cons_append, quoted_cons hc, List.length_cons] at h ⊢
      split at h
      · rw [if_pos ‹_›]
        exact h
      · split at h
        · cases h
        · rw [if_neg ‹_›, if_neg ‹_›]
          simp only [Prod.mk.injEq, Nat.add_right_cancel_iff] at h
          rw [ih (Prod.ext_iff.2 h)]

end quoted

/-- A comment ends at its end mark, or with the text. -/
theorem toCommentEnd_append (h : toCommentEnd (w ++ rest) = w.length) (hrest : rest ≠ []) :
    toCommentEnd (w ++ rest') = w.length := by
  have hnil : ∀ cs : List Char, toCommentEnd cs = 0 → cs = [] := by
    intro cs hcs
    rw [toCommentEnd.eq_def] at hcs
    split at hcs
    · cases hcs
    · cases hcs
    · rfl
  induction w with
  | nil => exact absurd (hnil rest h) hrest
  | cons c w ih =>
      by_cases hend : c = '*' ∧ (w ++ rest).head? = some '/'
      · obtain ⟨rfl, hhead⟩ := hend
        obtain ⟨tail, htail⟩ := List.head?_eq_some_iff.1 hhead
        rw [List.cons_append, htail, toCommentEnd] at h
        rcases w with _ | ⟨d, _ | ⟨e, w⟩⟩
        · cases h
        · cases htail
          rfl
        · cases h
      · have hplain : ∀ cs, ¬(c = '*' ∧ cs.head? = some '/') → toCommentEnd (c :: cs) = toCommentEnd cs + 1 := by
          intro cs hcs
          rw [toCommentEnd]
          rintro tail rfl rfl
          exact hcs ⟨rfl, rfl⟩
        rw [List.cons_append, hplain _ hend, List.length_cons, Nat.add_right_cancel_iff] at h
        have hw : w ≠ [] := by
          rintro rfl
          exact hrest (hnil rest h)
        rw [List.cons_append, hplain, ih h, List.length_cons]
        cases w with
        | nil => exact absurd rfl hw
        | cons d w => exact hend

/-! ### Regular expressions -/

theorem regexLength_escaped {d : Char} (inClass : Bool) (cs : List Char) : regexLength inClass ('\\' :: d :: cs) =
    if d = '\n' || d = '\r' then none else (regexLength inClass cs).map (· + 2) := rfl

theorem regexLength_cons (hc : c ≠ '\\') (inClass : Bool) (cs : List Char) : regexLength inClass (c :: cs) =
    if c = '\n' || c = '\r' then none
    else if c = '/' && !inClass then some (1 + run isWordPart cs)
    else (regexLength (if c = '[' then true else if c = ']' then false else inClass) cs).map (· + 1) := by
  rw [regexLength.eq_def]
  split
  · simp_all
  · simp_all
  · simp_all

theorem regexLength_ne_zero (inClass : Bool) (cs : List Char) : regexLength inClass cs ≠ some 0 := by
  intro h
  cases cs with
  | nil => cases h
  | cons c cs =>
      by_cases hc : c = '\\'
      · subst hc
        cases cs with
        | nil => cases h
        | cons d cs =>
            rw [regexLength_escaped] at h
            split at h
            · cases h
            · obtain ⟨n, -, hn⟩ := Option.map_eq_some_iff.1 h
              cases hn
      · rw [regexLength_cons hc] at h
        split at h
        · cases h
        · split at h
          · rw [Option.some.injEq] at h
            omega
          · obtain ⟨n, -, hn⟩ := Option.map_eq_some_iff.1 h
            cases hn

/-- A regular expression ends behind its flags. -/
theorem regexLength_append {inClass : Bool} (h : regexLength inClass (w ++ rest) = some w.length) :
    Bare rest ∧ ∀ rest', Bare rest' → regexLength inClass (w ++ rest') = some w.length := by
  induction w using quoted_induction generalizing inClass with
  | nil => exact absurd h (regexLength_ne_zero inClass rest)
  | single =>
      cases rest with
      | nil => cases h
      | cons d rest =>
          rw [List.singleton_append, regexLength_escaped] at h
          split at h
          · cases h
          · obtain ⟨n, -, hn⟩ := Option.map_eq_some_iff.1 h
            simp at hn
  | escaped d w ih =>
      simp only [List.cons_append, regexLength_escaped, List.length_cons] at h ⊢
      split at h
      · cases h
      · obtain ⟨n, hn, hlen⟩ := Option.map_eq_some_iff.1 h
        obtain rfl : n = w.length := by omega
        refine (ih hn).imp_right fun hregex rest' h' => ?_
        rw [if_neg ‹_›, hregex rest' h', Option.map_some]
  | plain c w hc ih =>
      simp only [List.cons_append, regexLength_cons hc, List.length_cons] at h ⊢
      split at h
      · cases h
      · split at h
        · rename_i hend
          rw [Option.some.injEq, Nat.add_comm, Nat.add_right_cancel_iff, run_eq_length_iff] at h
          refine ⟨h.2, fun rest' h' => ?_⟩
          rw [if_neg ‹_›, if_pos hend, run_eq_length_iff.2 ⟨h.1, h'⟩, Nat.add_comm]
        · obtain ⟨n, hn, hlen⟩ := Option.map_eq_some_iff.1 h
          obtain rfl : n = w.length := by omega
          refine (ih hn).imp_right fun hregex rest' h' => ?_
          rw [if_neg ‹_›, if_neg ‹_›, hregex rest' h', Option.map_some]

/-! ### What comes next -/

/-- The characters that may make a token longer. -/
def joins : TokenKind → Char → Bool
  | .word, c | .regex, c => isWordPart c
  | .number, _ => true
  | .dot, c => c = '.' || c.isDigit
  | .question, c => isOperator c || c = '.'
  | .assign, c | .arrow, c | .operator, c => isOperator c
  | .slash, c => c = '/' || c = '*' || c = '='
  | _, _ => false

/-- What is cut off in front of `rest` is cut off in front of `rest'`: both begin alike, or what stands before can
neither go on into the one nor into the other. -/
def Seam (rest rest' : List Char) : Option TokenKind → Prop
  | some k => rest'.head? = rest.head? ∨ k ≠ .number ∧ Stops (joins k) rest'
  | none => rest ≠ [] ∧ (rest'.head? = rest.head? ∨ rest.head? ≠ some '\n')

/-- What is directly behind a token does not tell on what it is, however it goes on. -/
structure Firm (previous : Option Token) (rest : List Char) (k : TokenKind) : Prop where
  slash : k = .slash → regexAllowed previous = false
  number : k = .number → Bare rest
  dot : k = .dot → rest.head? ≠ some '.'

theorem Seam.stops {q : Char → Bool} (hseam : Seam rest rest' (some k)) (h : Stops q rest)
    (hjoins : ∀ c, q c = true → joins k c = true) : Stops q rest' := by
  rcases hseam with hhead | ⟨-, hstops⟩
  · exact h.of_head hhead
  · exact hstops.mono hjoins

theorem afterDot_digit {d : Char} (hd : d.isDigit = true) (cs : List Char) : afterDot (d :: cs) =
    (.number, 1 + run isDigitOrBar cs + exponent (cs.drop (run isDigitOrBar cs))) := by
  rw [afterDot.eq_def]
  split
  · rename_i heq
    cases (List.cons.inj heq).1
    cases hd
  · rename_i heq
    cases heq
    rw [if_pos hd]
  · rename_i heq
    cases heq

theorem afterDot_other (h : Stops (joins .dot) rest) : afterDot rest = (.dot, 0) := by
  rw [afterDot.eq_def]
  split
  · cases h '.' rfl
  · rename_i d tail _
    have hd : (d = '.' || d.isDigit) = false := h d rfl
    rw [if_neg (by simpa using (Bool.or_eq_false_iff.1 hd).2)]
  · rfl

theorem Seam.head_of_number (hseam : Seam rest rest' (some .number)) : rest'.head? = rest.head? :=
  hseam.resolve_right fun h => h.1 rfl

theorem afterDot_append (h : afterDot (w ++ rest) = (k, w.length)) (hfirm : Firm previous rest k)
    (hseam : Seam rest rest' (some k)) : afterDot (w ++ rest') = (k, w.length) := by
  rcases w with _ | ⟨d, w⟩
  · rw [List.nil_append, List.length_nil, afterDot.eq_def] at h
    have hrest : k = .dot ∧ Stops Char.isDigit rest := by
      split at h
      · cases h
      · rename_i d tail _
        split at h
        · rw [Prod.mk.injEq] at h
          omega
        · rename_i hd
          cases h
          refine ⟨rfl, fun c hc => ?_⟩
          cases hc
          simpa using hd
      · cases h
        exact ⟨rfl, fun c hc => by cases hc⟩
    obtain ⟨rfl, hdigit⟩ := hrest
    refine afterDot_other (hseam.stops (fun c hc => ?_) fun _ hc => hc)
    have hpoint : c ≠ '.' := fun hpoint => hfirm.dot rfl (hpoint ▸ hc)
    rw [joins, hdigit c hc, decide_eq_false hpoint]
    rfl
  · by_cases hd : d.isDigit = true
    · rw [List.cons_append, afterDot_digit hd, Prod.mk.injEq, List.length_cons] at h
      obtain ⟨rfl, hlen⟩ := h
      have hbare : Bare rest := hfirm.number rfl
      have hbare' : Bare rest' := hbare.of_head hseam.head_of_number
      rw [run_append hbare.digits, List.drop_append_of_le_length run_le] at hlen
      rw [List.cons_append, afterDot_digit hd, run_append hbare'.digits, List.drop_append_of_le_length run_le,
        List.length_cons]
      have hdrop := List.length_drop (i := run isDigitOrBar w) (l := w)
      have hle := @run_le w isDigitOrBar
      have hone : (w.drop (run isDigitOrBar w)).length ≠ 1 := by
        intro hone
        have := exponent_ne_one (w.drop (run isDigitOrBar w) ++ rest)
        omega
      rw [exponent_append hbare hone] at hlen
      rw [exponent_append hbare' hone, hlen]
    · rw [List.cons_append, afterDot.eq_def] at h
      split at h
      · rename_i heq
        cases (List.cons.inj heq).1
        rcases w with _ | ⟨e, _ | ⟨f, w⟩⟩
        · cases h
        · cases (List.cons.inj heq).2
          cases h
          rfl
        · simp at h
      · rename_i heq
        cases heq
        rw [if_neg hd] at h
        simp at h
      · simp at h

theorem afterSlash_line (tail : List Char) :
    afterSlash previous ('/' :: tail) = (none, run (fun c => decide (c ≠ '\n')) ('/' :: tail)) := rfl

theorem afterSlash_block (tail : List Char) : afterSlash previous ('*' :: tail) = (none, 1 + toCommentEnd tail) := rfl

theorem afterSlash_plain {cs : List Char} (hslash : cs.head? ≠ some '/') (hstar : cs.head? ≠ some '*') :
    afterSlash previous cs =
      match if regexAllowed previous then regexLength false cs else none with
      | some n => (some .regex, n)
      | none => (some .slash, if cs.head? = some '=' then 1 else 0) := by
  rw [afterSlash.eq_def]
  split
  · exact absurd rfl hslash
  · exact absurd rfl hstar
  · rfl

theorem afterSlash_divides {cs : List Char} (h : Stops (joins .slash) cs) (hprevious : regexAllowed previous = false) :
    afterSlash previous cs = (some .slash, 0) := by
  have hne : ∀ c, joins .slash c = true → cs.head? ≠ some c := by
    intro c hc hhead
    cases (h c hhead).symm.trans hc
  rw [afterSlash_plain (hne '/' rfl) (hne '*' rfl), hprevious]
  simp [hne '=' rfl]

theorem afterSlash_append (h : afterSlash previous (w ++ rest) = (k?, w.length))
    (hslash : k? = some .slash → regexAllowed previous = false) (hseam : Seam rest rest' k?) :
    afterSlash previous (w ++ rest') = (k?, w.length) := by
  rcases w with _ | ⟨x, w⟩
  · rw [List.nil_append, List.length_nil] at h
    have hline : rest.head? ≠ some '/' := by
      intro hhead
      obtain ⟨tail, rfl⟩ := List.head?_eq_some_iff.1 hhead
      rw [afterSlash_line, run_cons (by decide)] at h
      simp at h
    have hblock : rest.head? ≠ some '*' := by
      intro hhead
      obtain ⟨tail, rfl⟩ := List.head?_eq_some_iff.1 hhead
      rw [afterSlash_block] at h
      simp at h
    rw [afterSlash_plain hline hblock] at h
    split at h
    · rename_i n hregex
      cases h
      split at hregex
      · exact absurd hregex (regexLength_ne_zero false rest)
      · cases hregex
    · rw [Prod.mk.injEq] at h
      obtain ⟨rfl, hassign⟩ := h
      refine afterSlash_divides (hseam.stops (fun c hc => ?_) fun _ hc => hc) (hslash rfl)
      have hne : c ≠ '/' ∧ c ≠ '*' ∧ c ≠ '=' := by
        refine ⟨fun heq => hline (heq ▸ hc), fun heq => hblock (heq ▸ hc), fun heq => ?_⟩
        rw [if_pos (heq ▸ hc)] at hassign
        cases hassign
      simp [joins, hne]
  · rw [List.cons_append] at h ⊢
    by_cases hline : x = '/'
    · subst hline
      rw [afterSlash_line, Prod.mk.injEq, ← List.cons_append, run_eq_length_iff] at h
      obtain ⟨rfl, hall, hstops⟩ := h
      -- the line ends behind the comment, in the one text and in the other
      have hstops' : Stops (fun c => decide (c ≠ '\n')) rest' := by
        refine hstops.of_head (hseam.2.resolve_right fun hne => ?_)
        cases hrest : rest with
        | nil => exact hseam.1 hrest
        | cons c tail =>
            have hc : c = '\n' := by simpa using hstops c (by rw [hrest]; rfl)
            exact hne (by rw [hrest, hc]; rfl)
      rw [afterSlash_line, ← List.cons_append, run_eq_length_iff.2 ⟨hall, hstops'⟩]
    · by_cases hblock : x = '*'
      · subst hblock
        rw [afterSlash_block, Prod.mk.injEq, List.length_cons] at h
        obtain ⟨rfl, hlen⟩ := h
        rw [afterSlash_block, toCommentEnd_append (show toCommentEnd (w ++ rest) = w.length by omega) hseam.1,
          List.length_cons, Nat.add_comm]
      · have hline' : ∀ tail : List Char, (x :: tail).head? ≠ some '/' := fun tail heq => hline (Option.some.inj heq)
        have hblock' : ∀ tail : List Char, (x :: tail).head? ≠ some '*' := fun tail heq => hblock (Option.some.inj heq)
        rw [afterSlash_plain (hline' _) (hblock' _)] at h ⊢
        by_cases hprevious : regexAllowed previous = true
        · rw [if_pos hprevious] at h ⊢
          split at h
          · rename_i n hregex
            cases h
            rw [← List.cons_append] at hregex ⊢
            obtain ⟨hbare, hregex⟩ := regexLength_append hregex
            rw [hregex rest' (hseam.stops hbare fun _ hc => hc)]
          · cases (hslash (Prod.mk.inj h).1.symm).symm.trans hprevious
        · rw [if_neg hprevious] at h ⊢
          exact h

theorem afterOperator_congr {cs cs' : List Char} (hrun : run isOperator cs' = run isOperator cs)
    (hhead : cs'.head? = cs.head?) : afterOperator c cs' = afterOperator c cs := by
  rw [afterOperator, afterOperator, hrun, hhead]

/-- An operator of one character. -/
theorem afterOperator_single (h : Stops isOperator rest) : afterOperator c rest =
    if c = '=' then (some .assign, 0)
    else if c = '?' then if rest.head? = some '.' then (some .optionalDot, 1) else (some .question, 0)
    else (some .operator, 0) := by
  rw [afterOperator, if_pos (run_eq_zero_iff.2 h)]

theorem afterOperator_append (h : afterOperator c (w ++ rest) = (some k, w.length))
    (hseam : Seam rest rest' (some k)) : afterOperator c (w ++ rest') = (some k, w.length) := by
  by_cases hrun : Stops isOperator (w ++ rest)
  · rcases w with _ | ⟨x, w⟩
    · simp only [List.nil_append, List.length_nil] at h hrun ⊢
      rw [afterOperator_single hrun] at h
      by_cases hassign : c = '='
      · rw [if_pos hassign] at h
        cases h
        rw [afterOperator_single (hseam.stops hrun fun _ hc => hc), if_pos hassign]
      · rw [if_neg hassign] at h
        by_cases hquestion : c = '?'
        · rw [if_pos hquestion] at h
          split at h
          · cases h
          · rename_i hpoint
            cases h
            have hstops : Stops (joins .question) rest := by
              intro d hd
              rw [joins, hrun d hd, decide_eq_false fun heq : d = '.' => hpoint (heq ▸ hd)]
              rfl
            have hstops' := hseam.stops hstops fun _ hc => hc
            have hpoint' : rest'.head? ≠ some '.' := fun heq => by cases hstops' '.' heq
            rw [afterOperator_single (hstops'.mono fun d hd => by rw [joins, hd]; rfl), if_neg hassign,
              if_pos hquestion, if_neg hpoint']
        · rw [if_neg hquestion] at h
          cases h
          rw [afterOperator_single (hseam.stops hrun fun _ hc => hc), if_neg hassign, if_neg hquestion]
    · have hrun' : Stops isOperator (x :: w ++ rest') := hrun.of_head rfl
      rw [← h]
      exact afterOperator_congr (by rw [run_eq_zero_iff.2 hrun, run_eq_zero_iff.2 hrun']) rfl
  · have hne := mt run_eq_zero_iff.1 hrun
    have hlen : run isOperator (w ++ rest) = w.length ∧ ∀ d, isOperator d = true → joins k d = true := by
      rw [afterOperator, if_neg hne] at h
      split at h
      · rename_i harrow
        have hone : run isOperator (w ++ rest) = 1 := by simpa using (Bool.and_eq_true_iff.1 (Bool.and_eq_true_iff.1 harrow).1).1
        simp only [Prod.mk.injEq, Option.some.injEq] at h
        obtain ⟨rfl, hlen⟩ := h
        exact ⟨hone.trans hlen, fun _ hd => hd⟩
      · simp only [Prod.mk.injEq, Option.some.injEq] at h
        obtain ⟨rfl, hlen⟩ := h
        exact ⟨hlen, fun _ hd => hd⟩
    obtain ⟨hall, hstops⟩ := run_eq_length_iff.1 hlen.1
    rw [← h]
    refine afterOperator_congr ?_ ?_
    · rw [hlen.1, run_eq_length_iff.2 ⟨hall, hseam.stops hstops hlen.2⟩]
    · cases w with
      | nil => exact absurd hlen.1 hne
      | cons x w => rfl

/-! ### Tokens -/

theorem ite_eq_of {α : Type} {q : Prop} [Decidable q] {a b a' b' x : α} (h : (if q then a else b) = x)
    (ha : a = x → a' = x) (hb : b = x → b' = x) : (if q then a' else b') = x := by
  split at h
  · rw [if_pos ‹_›]
    exact ha h
  · rw [if_neg ‹_›]
    exact hb h

theorem quotation_append {quote : Char} {multiline : Bool} {kind : TokenKind}
    (h : (match quoted quote multiline (w ++ rest) with
      | (n, closed) => (if closed then some kind else none, n)) = (k?, w.length)) (hseam : Seam rest rest' k?) :
    (match quoted quote multiline (w ++ rest') with
      | (n, closed) => (if closed then some kind else none, n)) = (k?, w.length) := by
  cases hquoted : quoted quote multiline (w ++ rest) with
  | mk n closed =>
      rw [hquoted] at h
      obtain rfl : n = w.length := (Prod.mk.inj h).2
      rw [quoted_append hquoted]
      · exact h
      · rintro rfl
        obtain rfl : none = k? := (Prod.mk.inj h).1
        exact ⟨hseam.1, hseam.2.resolve_right fun hne => hne (head_of_quoted hquoted hseam.1)⟩

/-- What is cut off in front of one text is cut off in front of another, where the texts do not tell on it. -/
theorem munch_append (h : munch previous c (w ++ rest) = (k?, w.length))
    (hfirm : ∀ k, k? = some k → Firm previous rest k) (hseam : Seam rest rest' k?) :
    munch previous c (w ++ rest') = (k?, w.length) := by
  rw [munch.eq_def] at h ⊢
  refine ite_eq_of h id fun h => ?_
  -- words, strings and templates, numbers
  refine ite_eq_of h (fun h => ?_) fun h => ?_
  · obtain ⟨rfl, hlen⟩ := Prod.mk.inj h
    obtain ⟨hall, hstops⟩ := run_eq_length_iff.1 hlen
    rw [run_eq_length_iff.2 ⟨hall, hseam.stops hstops fun _ hc => hc⟩]
  refine ite_eq_of h (fun h => quotation_append h hseam) fun h => ?_
  refine ite_eq_of h (fun h => quotation_append h hseam) fun h => ?_
  refine ite_eq_of h (fun h => ?_) fun h => ?_
  · obtain ⟨rfl, hlen⟩ := Prod.mk.inj h
    rw [numberAfter_append ((hfirm _ rfl).number rfl) hseam.head_of_number hlen]
  -- brackets and marks of one character
  iterate 9 refine ite_eq_of h id fun h => ?_
  -- dots, slashes and operators
  refine ite_eq_of h (fun h => ?_) fun h => ?_
  · cases hdot : afterDot (w ++ rest) with
    | mk kind n =>
        rw [hdot] at h
        obtain ⟨rfl, rfl⟩ := Prod.mk.inj h
        rw [afterDot_append hdot (hfirm _ rfl) hseam]
  refine ite_eq_of h (fun h => afterSlash_append h (fun hk => (hfirm _ hk).slash rfl) hseam) fun h => ?_
  refine ite_eq_of h (fun h => ?_) id
  cases k? with
  | none =>
      have hkind := afterOperator_mem c (w ++ rest)
      rw [h] at hkind
      simp at hkind
  | some k => exact afterOperator_append h hseam

/-! ### Lengths -/

theorem bigMark_le (cs : List Char) : bigMark cs ≤ cs.length := by
  rw [bigMark.eq_def]
  split <;> simp

theorem endAfter_le (cs : List Char) : endAfter cs ≤ cs.length := by
  have hexponent := exponent_le cs
  have hmark := bigMark_le (cs.drop (exponent cs))
  rw [List.length_drop] at hmark
  rw [endAfter]
  omega

theorem decimalAfter_le (cs : List Char) : decimalAfter cs ≤ cs.length := by
  have hrun := @run_le cs isDigitOrBar
  have hfraction := fractionAfter_le (cs.drop (run isDigitOrBar cs))
  have hend := endAfter_le (cs.drop (run isDigitOrBar cs + fractionAfter (cs.drop (run isDigitOrBar cs))))
  rw [List.length_drop] at hfraction hend
  rw [decimalAfter]
  omega

theorem radixAfter_le (first : Char) (cs : List Char) : radixAfter first cs ≤ cs.length := by
  cases cs with
  | nil => exact Nat.le_refl 0
  | cons x cs =>
      have hrun := @run_le cs isHexOrBar
      have hmark := bigMark_le (cs.drop (run isHexOrBar cs))
      rw [List.length_drop] at hmark
      rw [radixAfter, List.length_cons]
      repeat' split
      all_goals omega

theorem numberAfter_le (first : Char) (cs : List Char) : numberAfter first cs ≤ cs.length := by
  rw [numberAfter_eq]
  split
  · exact radixAfter_le first cs
  · exact decimalAfter_le cs

theorem quoted_le (quote : Char) (multiline : Bool) (cs : List Char) : (quoted quote multiline cs).1 ≤ cs.length := by
  induction cs using quoted_induction with
  | nil => exact Nat.le_refl 0
  | single => exact Nat.le_refl 1
  | escaped d w ih => simpa [quoted_escaped] using ih
  | plain c w hc ih =>
      rw [quoted_cons hc]
      split
      · simp
      · split
        · simp
        · simpa using ih

theorem toCommentEnd_le (cs : List Char) : toCommentEnd cs ≤ cs.length := by
  fun_induction toCommentEnd cs with
  | case1 => simp
  | case2 c cs _ ih => simpa using ih
  | case3 => simp

theorem regexLength_le {inClass : Bool} (h : regexLength inClass w = some n) : n ≤ w.length := by
  induction w using quoted_induction generalizing inClass n with
  | nil => cases h
  | single => cases h
  | escaped d w ih =>
      rw [regexLength_escaped] at h
      split at h
      · cases h
      · obtain ⟨m, hm, rfl⟩ := Option.map_eq_some_iff.1 h
        simpa using ih hm
  | plain c w hc ih =>
      rw [regexLength_cons hc] at h
      split at h
      · cases h
      · split at h
        · cases h
          have := @run_le w isWordPart
          simp only [List.length_cons]
          omega
        · obtain ⟨m, hm, rfl⟩ := Option.map_eq_some_iff.1 h
          simpa using ih hm

theorem length_pos_of_head {cs : List Char} (h : cs.head? = some c) : 1 ≤ cs.length := by
  obtain ⟨tail, rfl⟩ := List.head?_eq_some_iff.1 h
  simp

theorem afterDot_le (cs : List Char) : (afterDot cs).2 ≤ cs.length := by
  rw [afterDot.eq_def]
  split
  · simp
  · rename_i d tail _
    have hrun := @run_le tail isDigitOrBar
    have hexponent := exponent_le (tail.drop (run isDigitOrBar tail))
    rw [List.length_drop] at hexponent
    simp only [List.length_cons]
    split <;> simp only <;> omega
  · simp

theorem afterSlash_le (cs : List Char) : (afterSlash previous cs).2 ≤ cs.length := by
  by_cases hline : cs.head? = some '/'
  · obtain ⟨tail, rfl⟩ := List.head?_eq_some_iff.1 hline
    exact run_le
  by_cases hblock : cs.head? = some '*'
  · obtain ⟨tail, rfl⟩ := List.head?_eq_some_iff.1 hblock
    have := toCommentEnd_le tail
    rw [afterSlash_block, List.length_cons]
    simp only
    omega
  rw [afterSlash_plain hline hblock]
  split
  · rename_i n hregex
    split at hregex
    · exact regexLength_le hregex
    · cases hregex
  · simp only
    split
    · exact length_pos_of_head ‹_›
    · exact Nat.zero_le _

theorem afterOperator_le (c : Char) (cs : List Char) : (afterOperator c cs).2 ≤ cs.length := by
  have hrun := @run_le cs isOperator
  rw [afterOperator.eq_def]
  simp only
  split
  · split
    · exact Nat.zero_le _
    · split
      · split
        · exact length_pos_of_head ‹_›
        · exact Nat.zero_le _
      · exact Nat.zero_le _
  · split
    · simp only
      omega
    · exact hrun

theorem ite_le {q : Prop} [Decidable q] {a b : Option TokenKind × Nat} (ha : a.2 ≤ n) (hb : b.2 ≤ n) :
    (if q then a else b).2 ≤ n := by
  split
  · exact ha
  · exact hb

/-- No more is cut off than there is. -/
theorem munch_le (previous : Option Token) (c : Char) (cs : List Char) : (munch previous c cs).2 ≤ cs.length := by
  rw [munch.eq_def]
  refine ite_le (Nat.zero_le _) (ite_le run_le (ite_le (quoted_le _ _ cs) (ite_le (quoted_le _ _ cs)
    (ite_le (numberAfter_le c cs) ?_))))
  iterate 9 refine ite_le (Nat.zero_le _) ?_
  exact ite_le (afterDot_le cs) (ite_le (afterSlash_le cs) (ite_le (afterOperator_le c cs) (Nat.zero_le _)))

/-- What is cut off, and what is left. -/
theorem exists_munch_append (previous : Option Token) (c : Char) (cs : List Char) :
    ∃ w rest k?, cs = w ++ rest ∧ munch previous c (w ++ rest) = (k?, w.length) := by
  have hle := munch_le previous c cs
  refine ⟨cs.take (munch previous c cs).2, cs.drop (munch previous c cs).2, (munch previous c cs).1,
    (List.take_append_drop _ cs).symm, ?_⟩
  rw [List.take_append_drop, List.length_take, Nat.min_eq_left hle]

theorem munch_slash (cs : List Char) : munch previous '/' cs = afterSlash previous cs := rfl

/-- Regular expressions begin with a slash. -/
theorem regex_of_munch {cs : List Char} (h : munch previous c cs = (some .regex, n)) :
    c = '/' ∧ afterSlash previous cs = (some .regex, n) := by
  have hc : c = '/' := by
    by_contra hc
    have hdot : (afterDot cs).1 ≠ .regex := fun hk => by simpa [hk] using afterDot_mem cs
    have hoperator : (afterOperator c cs).1 ≠ some .regex := fun hk => by simpa [hk] using afterOperator_mem c cs
    refine absurd (congrArg Prod.fst h) ?_
    simp only [munch.eq_def, hc, apply_ite Prod.fst, if_false]
    repeat' apply ite_ne
    all_goals simp [hdot, hoperator]
  subst hc
  exact ⟨rfl, h⟩

theorem munch_of_ne_slash (hc : c ≠ '/') (previous' : Option Token) (cs : List Char) :
    munch previous' c cs = munch previous c cs := by
  rw [munch.eq_def, munch.eq_def]
  simp only [hc, if_false]

/-- What stands before matters for nothing but slashes. -/
theorem munch_congr {previous' : Option Token} (h : munch previous c rest = (k?, n))
    (hprevious : regexAllowed previous = regexAllowed previous' ∨ k? ≠ some .slash ∧ k? ≠ some .regex) :
    munch previous' c rest = (k?, n) := by
  by_cases hc : c = '/'
  · subst hc
    rw [munch_slash] at h ⊢
    by_cases hline : rest.head? = some '/'
    · obtain ⟨tail, rfl⟩ := List.head?_eq_some_iff.1 hline
      exact h
    by_cases hblock : rest.head? = some '*'
    · obtain ⟨tail, rfl⟩ := List.head?_eq_some_iff.1 hblock
      exact h
    rw [afterSlash_plain hline hblock] at h ⊢
    rcases hprevious with hprevious | ⟨hslash, hregex⟩
    · rwa [← hprevious]
    · split at h
      · exact absurd (Prod.mk.inj h).1.symm hregex
      · exact absurd (Prod.mk.inj h).1.symm hslash
  · rw [munch_of_ne_slash hc, h]

end StaticGql.Scan
