import Mathlib.Data.List.Nodup
import StaticGql.Proofs.Dict
import StaticGql.Trail

/-!
Which paths a walk is given. A path that is asked for again gets the next number behind it, so the paths
of a walk differ from each other exactly as long as no path asked for is itself a numbered one that was
given out for another.
-/

namespace StaticGql.Trail

variable {t : Trail} {b c : String} {n m : Nat} {before l : List String}

/-! ### Numbered paths -/

theorem toList_numbered (b : String) (hn : 0 < n) :
    (numbered b n).toList = b.toList ++ '$' :: Nat.toDigits 10 n := by
  cases n with
  | zero => omega
  | succ n =>
      have hunfold : numbered b (n + 1) = b ++ "$" ++ Nat.repr (n + 1) := rfl
      rw [hunfold, String.toList_append, String.toList_append, Nat.repr, String.toList_ofList]
      simp

theorem sign_not_mem_toDigits (n : Nat) : '$' ∉ Nat.toDigits 10 n := by
  intro h
  have := Nat.isDigit_of_mem_toDigits (by decide) (by decide) h
  simp at this

theorem eq_of_append_sign {x y d d' : List Char} (h : x ++ '$' :: d = y ++ '$' :: d') (hd : '$' ∉ d)
    (hd' : '$' ∉ d') : x = y ∧ d = d' := by
  rcases List.append_eq_append_iff.1 h with ⟨z, hy, hz⟩ | ⟨z, hx, hz⟩
  · cases z with
    | nil => exact ⟨by simpa using hy.symm, by simpa using hz⟩
    | cons a z =>
        rw [List.cons_append, List.cons.injEq] at hz
        simp [hz.2] at hd
  · cases z with
    | nil => exact ⟨by simpa using hx, by simpa using hz.symm⟩
    | cons a z =>
        rw [List.cons_append, List.cons.injEq] at hz
        simp [hz.2] at hd'

/-- The number of a path stands behind its last sign. -/
theorem numbered_inj (hn : 0 < n) (hm : 0 < m) (h : numbered b n = numbered c m) : b = c ∧ n = m := by
  have hlist := congrArg String.toList h
  rw [toList_numbered b hn, toList_numbered c hm] at hlist
  obtain ⟨hb, hdigits⟩ :=
    eq_of_append_sign hlist (sign_not_mem_toDigits n) (sign_not_mem_toDigits m)
  have hvalue := congrArg (fun ds => Nat.ofDigitChars 10 ds 0) hdigits
  simp only [Nat.ofDigitChars_ten_toDigits] at hvalue
  exact ⟨String.toList_inj.1 hb, hvalue⟩

/-! ### Paths with the number of times they came before -/

def ranked (before : List String) : List String → List (String × Nat)
  | [] => []
  | b :: l => (b, before.count b) :: ranked (b :: before) l

theorem mem_ranked_iff :
    (b, n) ∈ ranked before l ↔ before.count b ≤ n ∧ n < before.count b + l.count b := by
  induction l generalizing before with
  | nil => simp [ranked]
  | cons c l ih =>
      rw [ranked, List.mem_cons, ih, Prod.mk.injEq]
      by_cases hc : c = b
      · subst hc
        simp only [List.count_cons_self, true_and]
        omega
      · rw [List.count_cons_of_ne hc, List.count_cons_of_ne hc]
        simp [Ne.symm hc]

theorem nodup_ranked (before l : List String) : (ranked before l).Nodup := by
  induction l generalizing before with
  | nil => exact .nil
  | cons b l ih =>
      rw [ranked, List.nodup_cons]
      refine ⟨fun h => ?_, ih _⟩
      rw [mem_ranked_iff, List.count_cons_self] at h
      omega

/-! ### Walks -/

/-- What a walk does at its place. -/
inductive Move where
  | enter (segment : String)
  | enterAnonymous
  | exit
  /-- A path is asked for. -/
  | allocate

def move (t : Trail) : Move → Trail
  | .enter segment => t.enter segment
  | .enterAnonymous => t.enterAnonymous
  | .exit => t.exit
  | .allocate => t.allocate.2

/-- The paths that a walk is given. -/
def paths (t : Trail) : List Move → List String
  | [] => []
  | .allocate :: rest => t.allocate.1 :: (t.move .allocate).paths rest
  | m :: rest => (t.move m).paths rest

/-- The paths that a walk asks for, before any number stands behind them. -/
def asked (t : Trail) : List Move → List String
  | [] => []
  | .allocate :: rest => t.base.1 :: (t.move .allocate).asked rest
  | m :: rest => (t.move m).asked rest

/-- The trail has counted the paths asked for so far. -/
def Counts (t : Trail) (before : List String) : Prop :=
  ∀ b, (t.occurrences.get? b).getD 0 = before.count b

theorem occurrences_base (t : Trail) : t.base.2.occurrences = t.occurrences := by
  rw [base]
  split <;> rfl

theorem Counts.allocate_fst (h : t.Counts before) :
    t.allocate.1 = numbered t.base.1 (before.count t.base.1) := by
  rw [← h, ← occurrences_base t]
  rfl

theorem Counts.allocate_snd (h : t.Counts before) : t.allocate.2.Counts (t.base.1 :: before) := by
  have hself : t.allocate.2.occurrences = t.base.2.occurrences.insert t.base.1
      ((t.base.2.occurrences.get? t.base.1).getD 0 + 1) := rfl
  intro b
  rw [hself, occurrences_base, Dict.get?_insert]
  by_cases hb : t.base.1 = b
  · subst hb
    rw [if_pos rfl, List.count_cons_self, ← h]
    rfl
  · rw [if_neg hb, List.count_cons_of_ne hb, h]

/-- A walk is given what it asks for, with the number of times that it had asked for it before. -/
theorem paths_eq (moves : List Move) (h : t.Counts before) :
    t.paths moves = (ranked before (t.asked moves)).map fun p => numbered p.1 p.2 := by
  induction moves generalizing t before with
  | nil => rfl
  | cons m rest ih =>
      cases m with
      | enter segment => exact ih (t := t.enter segment) h
      | enterAnonymous => exact ih (t := t.enterAnonymous) h
      | exit => exact ih (t := t.exit) h
      | allocate =>
          rw [paths, asked, ranked, List.map_cons, h.allocate_fst]
          exact congrArg _ (ih (t := t.allocate.2) h.allocate_snd)

theorem counts_start : start.Counts [] := fun _ => rfl

/-- Two paths of a walk are the same exactly where one that is asked for is what another one gets when
it comes again. -/
theorem nodup_paths_iff (moves : List Move) :
    (start.paths moves).Nodup ↔ ∀ b n, 0 < n → n < (start.asked moves).count b →
      numbered b n ∉ start.asked moves := by
  rw [paths_eq moves counts_start, List.nodup_map_iff_inj_on (nodup_ranked _ _)]
  constructor
  · intro hinj b n hn hcount hmem
    have hrepeated : (b, n) ∈ ranked [] (start.asked moves) := mem_ranked_iff.2 ⟨by simp, by simpa⟩
    have hplain : (numbered b n, 0) ∈ ranked [] (start.asked moves) :=
      mem_ranked_iff.2 ⟨by simp, by simpa using List.count_pos_iff.2 hmem⟩
    have := hinj _ hrepeated _ hplain rfl
    simp only [Prod.mk.injEq] at this
    omega
  · rintro hfree ⟨b, n⟩ hp ⟨c, m⟩ hq heq
    have hn := (mem_ranked_iff.1 hp).2
    have hm := (mem_ranked_iff.1 hq).2
    simp only [List.count_nil, Nat.zero_add] at hn hm heq
    have hb : b ∈ start.asked moves := List.count_pos_iff.1 (by omega)
    have hc : c ∈ start.asked moves := List.count_pos_iff.1 (by omega)
    rcases Nat.eq_zero_or_pos n with rfl | hn0
    · rcases Nat.eq_zero_or_pos m with rfl | hm0
      · exact congrArg (·, 0) heq
      · exact absurd (heq ▸ hb) (hfree c m hm0 hm)
    · rcases Nat.eq_zero_or_pos m with rfl | hm0
      · exact absurd (heq ▸ hc) (hfree b n hn0 hn)
      · obtain ⟨rfl, rfl⟩ := numbered_inj hn0 hm0 heq
        rfl

/-- A place whose name ends in a sign and a number, behind another that comes twice. -/
def signedName : List Move := [.enter "a", .allocate, .allocate, .exit, .enter "a$1", .allocate]

/-- A name that ends in a sign and a number is given out again. -/
theorem paths_signedName : start.paths signedName = ["a", "a$1", "a$1"] ∧
    ¬ (start.paths signedName).Nodup := by
  decide +kernel

end StaticGql.Trail
