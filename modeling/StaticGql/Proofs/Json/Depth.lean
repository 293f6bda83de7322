import StaticGql.Proofs.Json.RoundTrip

/-!
How deep the containers of a value nest. The reader gives no value that nests deeper than it may, so of
values whose numbers are sure to come back exactly those come back that are not too deep.
-/

namespace StaticGql.Json

variable {α : Type} {j : Json} {depth : Nat} {p q : Number → Bool}

/-! ### Height and numbers -/

mutual

/-- The number of containers around the innermost one, itself included. -/
def height : Json → Nat
  | arr items => heightItems items + 1
  | obj fields => heightFields fields + 1
  | _ => 0

def heightItems : List Json → Nat
  | [] => 0
  | j :: rest => max (height j) (heightItems rest)

def heightFields : List (String × Json) → Nat
  | [] => 0
  | (_, v) :: rest => max (height v) (heightFields rest)

end

mutual

/-- Whether all numbers in a value pass a test. -/
def allNumbers (p : Number → Bool) : Json → Bool
  | num n => p n
  | arr items => allNumbersItems p items
  | obj fields => allNumbersFields p fields
  | _ => true

def allNumbersItems (p : Number → Bool) : List Json → Bool
  | [] => true
  | j :: rest => allNumbers p j && allNumbersItems p rest

def allNumbersFields (p : Number → Bool) : List (String × Json) → Bool
  | [] => true
  | (_, v) :: rest => allNumbers p v && allNumbersFields p rest

end

theorem heightItems_le_iff {l : List Json} : heightItems l ≤ depth ↔ ∀ j ∈ l, height j ≤ depth := by
  induction l with
  | nil => simp [heightItems]
  | cons j rest ih => rw [heightItems, Nat.max_le, ih, List.forall_mem_cons]

theorem heightFields_le_iff {l : List (String × Json)} : heightFields l ≤ depth ↔ ∀ f ∈ l, height f.2 ≤ depth := by
  induction l with
  | nil => simp [heightFields]
  | cons f rest ih => rw [heightFields, Nat.max_le, ih, List.forall_mem_cons]

theorem height_arr_le_iff {l : List Json} : height (arr l) ≤ depth + 1 ↔ ∀ j ∈ l, height j ≤ depth := by
  rw [height, Nat.add_le_add_iff_right, heightItems_le_iff]

theorem height_obj_le_iff {l : List (String × Json)} : height (obj l) ≤ depth + 1 ↔ ∀ f ∈ l, height f.2 ≤ depth := by
  rw [height, Nat.add_le_add_iff_right, heightFields_le_iff]

theorem allNumbersItems_eq (l : List Json) : allNumbersItems p l = l.all (allNumbers p) := by
  induction l with
  | nil => rfl
  | cons j rest ih => rw [allNumbersItems, ih, List.all_cons]

theorem allNumbersFields_eq (l : List (String × Json)) : allNumbersFields p l = l.all fun f => allNumbers p f.2 := by
  induction l with
  | nil => rfl
  | cons f rest ih => rw [allNumbersFields, ih, List.all_cons]

theorem allNumbers_arr {l : List Json} : allNumbers p (arr l) = true ↔ ∀ j ∈ l, allNumbers p j = true := by
  rw [allNumbers, allNumbersItems_eq, List.all_eq_true]

theorem allNumbers_obj {l : List (String × Json)} :
    allNumbers p (obj l) = true ↔ ∀ f ∈ l, allNumbers p f.2 = true := by
  rw [allNumbers, allNumbersFields_eq, List.all_eq_true]

mutual

theorem allNumbers_mono (h : ∀ n, p n = true → q n = true) (j : Json) (hj : allNumbers p j = true) :
    allNumbers q j = true := by
  match j with
  | null | bool _ | str _ => rfl
  | num n => exact h n hj
  | arr items => exact allNumbersItems_mono h items hj
  | obj fields => exact allNumbersFields_mono h fields hj

theorem allNumbersItems_mono (h : ∀ n, p n = true → q n = true) (l : List Json) (hl : allNumbersItems p l = true) :
    allNumbersItems q l = true := by
  match l with
  | [] => rfl
  | j :: rest =>
    rw [allNumbersItems, Bool.and_eq_true] at hl ⊢
    exact ⟨allNumbers_mono h j hl.1, allNumbersItems_mono h rest hl.2⟩

theorem allNumbersFields_mono (h : ∀ n, p n = true → q n = true) (l : List (String × Json))
    (hl : allNumbersFields p l = true) : allNumbersFields q l = true := by
  match l with
  | [] => rfl
  | (_, v) :: rest =>
    rw [allNumbersFields, Bool.and_eq_true] at hl ⊢
    exact ⟨allNumbers_mono h v hl.1, allNumbersFields_mono h rest hl.2⟩

end

/-- The number is an integer of sixty-four bits. -/
def Number.fits : Number → Bool
  | .int i => fitsWord i
  | .real _ => false

mutual

theorem nests_iff (depth : Nat) (j : Json) :
    nests depth j = true ↔ height j ≤ depth ∧ allNumbers Number.fits j = true := by
  match j with
  | null | bool _ | str _ => simp [nests, height, allNumbers]
  | num (.int i) => simp [nests, height, allNumbers, Number.fits]
  | num (.real x) => simp [nests, allNumbers, Number.fits]
  | arr items =>
    cases depth with
    | zero => simp [nests, height]
    | succ depth => rw [nests, nestsItems_iff depth items, height, allNumbers, Nat.add_le_add_iff_right]
  | obj fields =>
    cases depth with
    | zero => simp [nests, height]
    | succ depth => rw [nests, nestsFields_iff depth fields, height, allNumbers, Nat.add_le_add_iff_right]

theorem nestsItems_iff (depth : Nat) (l : List Json) :
    nestsItems depth l = true ↔ heightItems l ≤ depth ∧ allNumbersItems Number.fits l = true := by
  match l with
  | [] => simp [nestsItems, heightItems, allNumbersItems]
  | j :: rest =>
    rw [nestsItems, Bool.and_eq_true, nests_iff depth j, nestsItems_iff depth rest, heightItems, allNumbersItems,
      Nat.max_le, Bool.and_eq_true]
    exact and_and_and_comm

theorem nestsFields_iff (depth : Nat) (l : List (String × Json)) :
    nestsFields depth l = true ↔ heightFields l ≤ depth ∧ allNumbersFields Number.fits l = true := by
  match l with
  | [] => simp [nestsFields, heightFields, allNumbersFields]
  | (_, v) :: rest =>
    rw [nestsFields, Bool.and_eq_true, nests_iff depth v, nestsFields_iff depth rest, heightFields, allNumbersFields,
      Nat.max_le, Bool.and_eq_true]
    exact and_and_and_comm

end

mutual

/-- What a text does not keep of a value is not how deep it nests. -/
theorem height_plain (j : Json) : height j.plain = height j := by
  match j with
  | null | bool _ | str _ | num _ => rfl
  | arr items => rw [plain, height, height, heightItems_plain items]
  | obj fields => rw [plain, height, height, heightFields_plain fields]

theorem heightItems_plain (l : List Json) : heightItems (plainItems l) = heightItems l := by
  match l with
  | [] => rfl
  | j :: rest => rw [plainItems, heightItems, heightItems, height_plain j, heightItems_plain rest]

theorem heightFields_plain (l : List (String × Json)) : heightFields (plainFields l) = heightFields l := by
  match l with
  | [] => rfl
  | (_, v) :: rest => rw [plainFields, heightFields, heightFields, height_plain v, heightFields_plain rest]

end

/-! ### What the reader gives -/

section Parts

variable {part : Reader α} {P : α → Prop} {close : Char}

/-- All that the reader gives has a property. -/
def Gives (part : Reader α) (P : α → Prop) : Prop := ∀ cs x rest, part cs = some (x, rest) → P x

theorem gives_separated (h : Gives part P) (fuel : Nat) :
    Gives (separated close part fuel) fun xs => ∀ x ∈ xs, P x := by
  induction fuel with
  | zero => exact nofun
  | succ fuel ih =>
      intro cs xs rest hread
      obtain ⟨⟨x, cs'⟩, hpart, hread⟩ := Option.bind_eq_some_iff.1 hread
      have hx := h _ x cs' hpart
      dsimp only at hread
      split at hread
      · split at hread
        · obtain ⟨⟨xs', cs''⟩, hmore, hread⟩ := Option.bind_eq_some_iff.1 hread
          cases hread
          exact List.forall_mem_cons.2 ⟨hx, ih _ xs' _ hmore⟩
        · split at hread
          · cases hread
            exact List.forall_mem_singleton.2 hx
          · cases hread
      · cases hread

theorem gives_bracketed (h : Gives part P) : Gives (bracketed close part) fun xs => ∀ x ∈ xs, P x := by
  intro cs xs rest hread
  rw [bracketed] at hread
  split at hread
  · split at hread
    · cases hread
      exact List.forall_mem_nil _
    · exact gives_separated h _ _ _ _ hread
  · cases hread

end Parts

theorem gives_field {value : Reader Json} (h : Gives value fun j => height j ≤ depth) :
    Gives (field value) fun f => height f.2 ≤ depth := by
  intro cs f rest hread
  obtain ⟨⟨name, cs'⟩, -, hread⟩ := Option.bind_eq_some_iff.1 hread
  dsimp only at hread
  split at hread
  · obtain ⟨⟨v, cs''⟩, hvalue, hread⟩ := Option.bind_eq_some_iff.1 hread
    cases hread
    exact h _ v _ hvalue
  · cases hread

theorem gives_scalar : Gives scalar fun j => height j = 0 := by
  intro cs j rest hread
  rw [scalar.eq_def] at hread
  split at hread
  all_goals
    first
    | cases hread; rfl
    | obtain ⟨_, -, heq⟩ := Option.map_eq_some_iff.1 hread
      cases heq
      rfl

theorem gives_value (depth : Nat) : Gives (value depth) fun j => height j ≤ depth := by
  induction depth with
  | zero => exact fun cs j rest hread => Nat.le_of_eq (gives_scalar cs j rest hread)
  | succ depth ih =>
      intro cs j rest hread
      rw [value.eq_def] at hread
      dsimp only at hread
      split at hread
      · obtain ⟨⟨items, cs'⟩, hitems, heq⟩ := Option.map_eq_some_iff.1 hread
        cases heq
        exact height_arr_le_iff.2 (gives_bracketed ih _ items _ hitems)
      · obtain ⟨⟨fields, cs'⟩, hfields, heq⟩ := Option.map_eq_some_iff.1 hread
        cases heq
        exact height_obj_le_iff.2 (gives_bracketed (gives_field ih) _ fields _ hfields)
      · rw [gives_scalar _ j rest hread]
        exact Nat.zero_le _

theorem height_le_of_parse? {text : String} (h : parse? text = some j) : height j ≤ maxDepth := by
  obtain ⟨⟨v, rest⟩, hvalue, h⟩ := Option.bind_eq_some_iff.1 h
  dsimp only at h
  split at h
  · cases h
    exact gives_value maxDepth _ j rest hvalue
  · cases h

/-- A value whose numbers are integers of sixty-four bits is read back if it does not nest too deep, and
not at all otherwise. -/
theorem parse?_compact_eq (h : allNumbers Number.fits j = true) :
    parse? j.compact = if height j ≤ maxDepth then some j else none := by
  have hreturns := parse?_compact j
  split
  · rename_i hheight
    exact hreturns.sure ((nests_iff maxDepth j).2 ⟨hheight, h⟩)
  · rename_i hdeep
    cases hread : parse? j.compact with
    | none => rfl
    | some j' =>
        have hsame := congrArg height (hreturns.same j' hread)
        rw [height_plain, height_plain] at hsame
        exact absurd (hsame ▸ height_le_of_parse? hread) hdeep

end StaticGql.Json
