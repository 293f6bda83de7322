import Mathlib.Algebra.Order.BigOperators.Group.List
import Mathlib.Algebra.Order.Ring.Nat
import Mathlib.Logic.Relation
import StaticGql.Proofs.Dict
import StaticGql.Proofs.Except
import StaticGql.Registry

/-!
What an element is given to look at: the values of its direct dependencies in their order, and those
of everything that can be reached from it.
-/

namespace StaticGql.Registry

open Relation

variable {r : Registry} {id x y : CanonicalId} {e : Entry} {v : Value}

theorem value?_eq_some_iff : r.value? id = some v ↔ ∃ e, r.entry? id = some e ∧ e.value = some v := by
  simp [value?, Option.bind_eq_some_iff]

theorem dependenciesOf_of_entry (h : r.entry? id = some e) : r.dependenciesOf id = e.dependencies := by
  simp [dependenciesOf, h]

/-- The second id is among the dependencies of the first. -/
def DependsOn (r : Registry) (x y : CanonicalId) : Prop := y ∈ r.dependenciesOf x

theorem DependsOn.exists_entry (h : r.DependsOn x y) : ∃ e, r.entry? x = some e ∧ y ∈ e.dependencies := by
  cases he : r.entry? x with
  | none => simp [DependsOn, dependenciesOf, he] at h
  | some e => exact ⟨e, rfl, by simpa [DependsOn, dependenciesOf, he] using h⟩

/-- The ids whose values an element sees: all that can be reached from it, but for itself. -/
def Sees (r : Registry) (id x : CanonicalId) : Prop := TransGen r.DependsOn id x ∧ x ≠ id

/-! ### Fuel -/

theorem sum_map_add_le {α : Type} {l : List α} {f g : α → Nat} {a : α} {c : Nat} (ha : a ∈ l)
    (hac : f a + c ≤ g a) (h : ∀ b ∈ l, f b ≤ g b) : (l.map f).sum + c ≤ (l.map g).sum := by
  induction l with
  | nil => simp at ha
  | cons b rest ih =>
      have hb := h b (by simp)
      have hrest : ∀ b ∈ rest, f b ≤ g b := fun b hb => h b (by simp [hb])
      have hsum := List.sum_le_sum hrest
      simp only [List.map_cons, List.sum_cons]
      rcases List.mem_cons.1 ha with rfl | ha
      · omega
      · have := ih ha hrest
        omega

/-- How many dependencies the entries have that are not in `acc`. -/
def weight (r : Registry) (acc : Dict Value) : Nat :=
  (r.entries.toList.map fun q => if acc.contains q.1 then 0 else q.2.dependencies.length).sum

theorem weight_empty (r : Registry) (id : CanonicalId) :
    (r.dependenciesOf id).length + r.weight ∅ = r.reachBound id := by
  have : r.weight ∅ = r.entries.values.foldr (fun e n => e.dependencies.length + n) 0 := by
    simp only [weight, Dict.values, Dict.toList, List.sum_eq_foldr, List.foldr_map]
    rfl
  rw [this, reachBound]

theorem weight_insert {acc : Dict Value} (hx : r.entry? x = some e)
    (hacc : acc.contains x.text = false) (v : Value) :
    r.weight (acc.insert x.text v) + e.dependencies.length ≤ r.weight acc := by
  have hnew : (acc.insert x.text v).contains x.text = true :=
    Dict.contains_iff.2 ⟨v, by rw [Dict.get?_insert, if_pos rfl]⟩
  refine sum_map_add_le (Dict.mem_toList_iff.2 hx) (by simp [hnew, hacc]) fun q _ => ?_
  by_cases hq : acc.contains q.1 = true
  · have : (acc.insert x.text v).contains q.1 = true := by
      obtain ⟨w, hw⟩ := Dict.contains_iff.1 hq
      by_cases hk : x.text = q.1
      · rw [← hk, hnew]
      · exact Dict.contains_iff.2 ⟨w, by rw [Dict.get?_insert, if_neg hk, hw]⟩
    simp [this]
  · simp only [hq, Bool.false_eq_true, if_false]
    split <;> omega

/-! ### The search -/

/-- Where a search for what `id` sees stands: `acc` holds values of what it sees, and whatever it
depends on, or what is in `acc` depends on, is there too or is still to be visited. -/
structure Searching (r : Registry) (id : CanonicalId) (stack : List CanonicalId) (acc : Dict Value) :
    Prop where
  seen : ∀ {k v}, acc.get? k = some v → r.Sees id ⟨k⟩ ∧ r.value? ⟨k⟩ = some v
  reached : ∀ x ∈ stack, TransGen r.DependsOn id x
  closed : ∀ {x y}, x = id ∨ acc.contains x.text = true → r.DependsOn x y →
    y = id ∨ acc.contains y.text = true ∨ y ∈ stack

theorem Searching.start (r : Registry) (id : CanonicalId) :
    r.Searching id (r.dependenciesOf id).reverse ∅ where
  seen h := by simp at h
  reached x hx := .single (List.mem_reverse.1 hx)
  closed := by
    intro x y hx hy
    rcases hx with rfl | hx
    · exact .inr (.inr (List.mem_reverse.2 hy))
    · simp [Dict.contains] at hx

theorem Searching.skip {stack : List CanonicalId} {acc : Dict Value}
    (h : r.Searching id (x :: stack) acc) (hx : x = id ∨ acc.contains x.text = true) :
    r.Searching id stack acc where
  seen := h.seen
  reached y hy := h.reached y (List.mem_cons_of_mem x hy)
  closed := by
    intro y z hy hz
    rcases h.closed hy hz with hid | hin | hz
    · exact .inl hid
    · exact .inr (.inl hin)
    · rcases List.mem_cons.1 hz with rfl | hz
      · exact hx.imp_right .inl
      · exact .inr (.inr hz)

theorem contains_insert_iff {acc : Dict Value} :
    (acc.insert x.text v).contains y.text = true ↔ y = x ∨ acc.contains y.text = true := by
  obtain ⟨a⟩ := x
  obtain ⟨b⟩ := y
  by_cases h : a = b
  · simp [Dict.contains, Dict.get?_insert, h]
  · simp [Dict.contains, Dict.get?_insert, h, Ne.symm h]

theorem Searching.visit {stack : List CanonicalId} {acc : Dict Value}
    (h : r.Searching id (x :: stack) acc) (hx : x ≠ id) (hv : r.value? x = some v) :
    r.Searching id ((r.dependenciesOf x).reverse ++ stack) (acc.insert x.text v) where
  seen := by
    intro k w hk
    rw [Dict.get?_insert] at hk
    split at hk
    · rename_i hxk
      subst hxk
      cases hk
      exact ⟨⟨h.reached x (by simp), hx⟩, hv⟩
    · exact h.seen hk
  reached := by
    intro y hy
    rcases List.mem_append.1 hy with hy | hy
    · exact (h.reached x (by simp)).tail (List.mem_reverse.1 hy)
    · exact h.reached y (List.mem_cons_of_mem x hy)
  closed := by
    intro y z hy hz
    rw [contains_insert_iff] at hy
    rw [contains_insert_iff, List.mem_append, List.mem_reverse]
    have hold : y = id ∨ acc.contains y.text = true → z = id ∨ (z = x ∨ acc.contains z.text = true) ∨
        z ∈ r.dependenciesOf x ∨ z ∈ stack := by
      intro hy
      rcases h.closed hy hz with hid | hin | hz
      · exact .inl hid
      · exact .inr (.inl (.inr hin))
      · rcases List.mem_cons.1 hz with rfl | hz
        · exact .inr (.inl (.inl rfl))
        · exact .inr (.inr (.inr hz))
    rcases hy with rfl | rfl | hy
    · exact hold (.inl rfl)
    · exact .inr (.inr (.inl hz))
    · exact hold (.inr hy)

theorem Searching.complete {acc : Dict Value} (h : r.Searching id [] acc) (hx : r.Sees id x) :
    acc.contains x.text = true := by
  obtain ⟨hx, hne⟩ := hx
  have : x = id ∨ acc.contains x.text = true := by
    induction hx with
    | single hy => simpa using h.closed (.inl rfl) hy
    | @tail y z _ hz ih =>
        by_cases hy : y = id
        · simpa using h.closed (.inl hy) hz
        · simpa using h.closed (ih hy) hz
  exact this.resolve_left hne

/-- Enough fuel leaves nothing on the stack: either all that `id` sees is found, or something of it
has no value. -/
theorem reach_spec (fuel : Nat) (stack : List CanonicalId) (acc : Dict Value)
    (h : r.Searching id stack acc) (hfuel : stack.length + r.weight acc ≤ fuel) :
    match r.reach id fuel stack acc with
    | .ok all => r.Searching id [] all
    | .error e => ∃ x, r.Sees id x ∧ r.value? x = none ∧ e = notEvaluated id x := by
  induction fuel generalizing stack acc with
  | zero =>
      have hstack : stack = [] := List.length_eq_zero_iff.1 (by omega)
      subst hstack
      simpa [reach] using h
  | succ fuel ih =>
      cases stack with
      | nil => simpa [reach] using h
      | cons x stack =>
          simp only [List.length_cons] at hfuel
          by_cases hx : x = id ∨ acc.contains x.text = true
          · have := ih stack acc (h.skip hx) (by omega)
            simpa [reach, hx] using this
          · obtain ⟨hid, hacc⟩ : x ≠ id ∧ acc.contains x.text = false := by simpa using hx
            cases hv : r.value? x with
            | none =>
                have hmissing : r.reach id (fuel + 1) (x :: stack) acc = .error (notEvaluated id x) := by
                  simp [reach, hid, hacc, valueFor, hv]
                  rfl
                rw [hmissing]
                exact ⟨x, ⟨h.reached x (by simp), hid⟩, hv, rfl⟩
            | some v =>
                have hfound : r.reach id (fuel + 1) (x :: stack) acc =
                    r.reach id fuel ((r.dependenciesOf x).reverse ++ stack) (acc.insert x.text v) := by
                  simp [reach, hid, hacc, valueFor, hv]
                  rfl
                obtain ⟨e, he, -⟩ := value?_eq_some_iff.1 hv
                have hweight := weight_insert he hacc v
                rw [hfound]
                refine ih _ _ (h.visit hid hv) ?_
                rw [List.length_append, List.length_reverse, dependenciesOf_of_entry he]
                omega

/-! ### The context -/

/-- A context that shows what it should. -/
structure IsContext (r : Registry) (id : CanonicalId) (c : Context) : Prop where
  id_eq : c.id = id
  direct : c.dependencies.map (fun p => (p.1, some p.2)) =
    (r.dependenciesOf id).map fun x => (x, r.value? x)
  transitive : ∀ {k v}, c.transitive.get? k = some v ↔ r.Sees id ⟨k⟩ ∧ r.value? ⟨k⟩ = some v

theorem valueFor_eq_ok_iff {p : CanonicalId × Value} :
    r.valueFor id x = .ok p ↔ p.1 = x ∧ r.value? x = some p.2 := by
  obtain ⟨a, w⟩ := p
  cases hv : r.value? x with
  | none => simp [valueFor, hv]
  | some v => simp [valueFor, hv, eq_comm]

theorem valueFor_eq_error {b : BuildError} (h : r.valueFor id x = .error b) :
    r.value? x = none ∧ b = notEvaluated id x := by
  cases hv : r.value? x with
  | none => simpa [valueFor, hv, eq_comm] using h
  | some v => simp [valueFor, hv] at h

theorem direct_of_forall₂ {l : List CanonicalId} {m : List (CanonicalId × Value)}
    (h : List.Forall₂ (fun x p => r.valueFor id x = .ok p) l m) :
    m.map (fun p => (p.1, some p.2)) = l.map fun x => (x, r.value? x) := by
  induction h with
  | nil => rfl
  | cons hxp _ ih =>
      obtain ⟨rfl, hv⟩ := valueFor_eq_ok_iff.1 hxp
      simp [hv, ih]

/-- A context is made unless something that the element depends on, directly or through others, has
no value. -/
theorem context_spec (r : Registry) (id : CanonicalId) :
    match r.context id with
    | .ok c => r.IsContext id c
    | .error e => ∃ x, TransGen r.DependsOn id x ∧ r.value? x = none ∧ e = notEvaluated id x := by
  have hreach := reach_spec (r.reachBound id) _ _ (Searching.start r id)
    (by rw [List.length_reverse, weight_empty])
  cases hdirect : (r.dependenciesOf id).mapM (r.valueFor id) with
  | error e =>
      have hc : r.context id = .error e := by
        simp only [context, hdirect]
        rfl
      obtain ⟨x, hx, he⟩ := exists_of_mapM_eq_error hdirect
      obtain ⟨hv, he⟩ := valueFor_eq_error he
      rw [hc]
      exact ⟨x, .single hx, hv, he⟩
  | ok dependencies =>
      cases htransitive : r.reach id (r.reachBound id) (r.dependenciesOf id).reverse ∅ with
      | error e =>
          have hc : r.context id = .error e := by
            simp only [context, hdirect, htransitive]
            rfl
          rw [htransitive] at hreach
          obtain ⟨x, hx, hv, he⟩ := hreach
          rw [hc]
          exact ⟨x, hx.1, hv, he⟩
      | ok transitive =>
          have hc : r.context id = .ok ⟨id, dependencies, transitive⟩ := by
            simp only [context, hdirect, htransitive]
            rfl
          rw [htransitive] at hreach
          rw [hc]
          refine ⟨rfl, direct_of_forall₂ (mapM_eq_ok_iff.1 hdirect), fun {k v} => ⟨hreach.seen, ?_⟩⟩
          rintro ⟨hsees, hv⟩
          obtain ⟨w, hw⟩ := Dict.contains_iff.1 (hreach.complete hsees)
          obtain ⟨-, hw'⟩ := hreach.seen hw
          rw [hw, ← hw', hv]

theorem IsContext.unique {c c' : Context} (h : r.IsContext id c) (h' : r.IsContext id c') : c = c' := by
  obtain ⟨i, dependencies, transitive⟩ := c
  obtain ⟨i', dependencies', transitive'⟩ := c'
  have hid : i = i' := h.id_eq.trans h'.id_eq.symm
  have hdirect : dependencies = dependencies' := by
    refine List.map_injective_iff.2 ?_ (h.direct.trans h'.direct.symm)
    rintro ⟨x, v⟩ ⟨x', v'⟩ heq
    simpa using heq
  have htransitive : transitive = transitive' := by
    refine Dict.ext_get? fun k => ?_
    ext v
    exact h.transitive.trans h'.transitive.symm
  rw [hid, hdirect, htransitive]

theorem exists_isContext (r : Registry) (id : CanonicalId)
    (h : ∀ x, TransGen r.DependsOn id x → (r.value? x).isSome) :
    ∃ c, r.context id = .ok c ∧ r.IsContext id c := by
  have hspec := context_spec r id
  cases hc : r.context id with
  | ok c =>
      rw [hc] at hspec
      exact ⟨c, rfl, hspec⟩
  | error e =>
      rw [hc] at hspec
      obtain ⟨x, hx, hv, -⟩ := hspec
      have := h x hx
      simp [hv] at this

end StaticGql.Registry
