import Mathlib.Data.Finset.Card
import StaticGql.Proofs.Registry.Resting

/-!
What an invalidation takes back: the values of exactly those elements from which dependencies lead to
one of the ids. It is found by a queue of ids that are still to be visited, each of which brings its
dependents along, whether dependencies run in circles or lead to ids that no element has.
-/

namespace StaticGql.Registry

open Relation

variable {r : Registry} {id x : CanonicalId} {ids visited : List CanonicalId}

/-- Dependencies lead from `id` to one of `ids`, in no step or more. -/
def Reaches (r : Registry) (ids : List CanonicalId) (id : CanonicalId) : Prop :=
  ∃ x ∈ ids, ReflTransGen r.DependsOn id x

theorem Reaches.of_mem (h : id ∈ ids) : r.Reaches ids id := ⟨id, h, .refl⟩

theorem Reaches.head (hid : r.DependsOn id x) (h : r.Reaches ids x) : r.Reaches ids id := by
  obtain ⟨y, hy, hpath⟩ := h
  exact ⟨y, hy, .head hid hpath⟩

/-- What holds `ids` and is closed under what depends on its members holds all that reaches `ids`. -/
theorem Reaches.mem_of_closed (h : r.Reaches ids id) (hids : ids ⊆ visited)
    (hclosed : ∀ {id x}, r.DependsOn id x → x ∈ visited → id ∈ visited) : id ∈ visited := by
  obtain ⟨x, hx, hpath⟩ := h
  induction hpath using ReflTransGen.head_induction_on with
  | refl => exact hids hx
  | head hstep _ ih => exact hclosed hstep ih

/-! ### Taking in dependents at a time -/

theorem reaches_of_mem_affected (fuel : Nat) (seeds : List CanonicalId) (hseeds : ∀ x ∈ seeds, r.Reaches ids x)
    (hid : id ∈ r.affected fuel seeds) : r.Reaches ids id := by
  induction fuel generalizing seeds with
  | zero => exact hseeds id hid
  | succ fuel ih =>
      rw [affected] at hid
      split at hid
      · exact hseeds id hid
      · refine ih _ (fun y hy => ?_) hid
        rcases List.mem_append.1 hy with hy | hy
        · exact hseeds y hy
        · obtain ⟨x, hx, hdepends⟩ := mem_dependentsOf_iff.1 (List.mem_filter.1 hy).1
          exact (hseeds x hx).head hdepends

theorem mem_affected_iff : id ∈ r.affected r.entries.size ids ↔ r.Reaches ids id := by
  constructor
  · exact reaches_of_mem_affected _ _ fun x hx => .of_mem hx
  · intro h
    exact h.mem_of_closed (subset_affected _ _) (affected_closed _ _ (length_others_le r ids))

/-! ### Visiting one id at a time -/

/-- The ids that are to be visited, in their turn, and those that have been. -/
structure Sweep where
  queue : List CanonicalId
  visited : List CanonicalId

/-- The first of the queue is visited, unless it has been, and what depends on it directly and has
not been visited queues up. -/
def Sweep.step? (r : Registry) : Sweep → Option Sweep
  | ⟨[], _⟩ => none
  | ⟨id :: queue, visited⟩ =>
    if id ∈ visited then some ⟨queue, visited⟩
    else some ⟨queue ++ (r.dependentsOf [id]).filter (· ∉ id :: visited), id :: visited⟩

/-- Step after step the queue runs empty, with these ids visited. -/
inductive Sweep.Ends (r : Registry) : Sweep → List CanonicalId → Prop
  | empty (all : List CanonicalId) : Ends r ⟨[], all⟩ all
  | step {s s' : Sweep} {all : List CanonicalId} (hstep : s.step? r = some s') (h : Ends r s' all) : Ends r s all

theorem Sweep.step?_of_mem {queue : List CanonicalId} (h : id ∈ visited) :
    Sweep.step? r ⟨id :: queue, visited⟩ = some ⟨queue, visited⟩ := if_pos h

theorem Sweep.step?_of_not_mem {queue : List CanonicalId} (h : id ∉ visited) :
    Sweep.step? r ⟨id :: queue, visited⟩ =
      some ⟨queue ++ (r.dependentsOf [id]).filter (· ∉ id :: visited), id :: visited⟩ := if_neg h

/-- What may still be visited: the queue and the ids of all elements, but for what has been. -/
def Sweep.ahead (r : Registry) (s : Sweep) : Finset CanonicalId :=
  (s.queue ++ r.others []).toFinset \ s.visited.toFinset

theorem Sweep.mem_ahead {s : Sweep} :
    x ∈ s.ahead r ↔ (x ∈ s.queue ∨ ∃ e, r.entry? x = some e) ∧ x ∉ s.visited := by
  simp [Sweep.ahead, mem_others_iff]

theorem Sweep.ahead_of_mem {queue : List CanonicalId} :
    Sweep.ahead r ⟨queue, visited⟩ ⊆ Sweep.ahead r ⟨id :: queue, visited⟩ := by
  intro x hx
  rw [Sweep.mem_ahead] at hx ⊢
  exact ⟨hx.1.imp_left (List.mem_cons_of_mem id), hx.2⟩

theorem Sweep.ahead_of_not_mem {queue : List CanonicalId} (h : id ∉ visited) :
    Sweep.ahead r ⟨queue ++ (r.dependentsOf [id]).filter (· ∉ id :: visited), id :: visited⟩ ⊂
      Sweep.ahead r ⟨id :: queue, visited⟩ := by
  refine Finset.ssubset_iff_subset_ne.2 ⟨fun x hx => ?_, fun heq => ?_⟩
  · rw [Sweep.mem_ahead] at hx ⊢
    refine ⟨?_, fun hmem => hx.2 (List.mem_cons_of_mem id hmem)⟩
    rcases hx.1 with hqueue | hentry
    · rcases List.mem_append.1 hqueue with hqueue | hmore
      · exact .inl (List.mem_cons_of_mem id hqueue)
      · obtain ⟨y, -, hdepends⟩ := mem_dependentsOf_iff.1 (List.mem_filter.1 hmore).1
        obtain ⟨e, he, -⟩ := hdepends.exists_entry
        exact .inr ⟨e, he⟩
    · exact .inr hentry
  · have hid : id ∈ Sweep.ahead r ⟨id :: queue, visited⟩ := Sweep.mem_ahead.2 ⟨.inl List.mem_cons_self, h⟩
    rw [← heq] at hid
    exact (Sweep.mem_ahead.1 hid).2 List.mem_cons_self

/-- The queue runs empty: each visit leaves less to be visited, and every other step shortens the queue. -/
theorem Sweep.exists_ends (n : Nat) (queue visited : List CanonicalId)
    (hn : (Sweep.ahead r ⟨queue, visited⟩).card < n) : ∃ all, Sweep.Ends r ⟨queue, visited⟩ all := by
  induction n generalizing queue visited with
  | zero => exact absurd hn (Nat.not_lt_zero _)
  | succ n ih =>
      induction queue with
      | nil => exact ⟨visited, .empty visited⟩
      | cons id queue ihqueue =>
          by_cases hid : id ∈ visited
          · obtain ⟨all, hall⟩ := ihqueue ((Finset.card_le_card Sweep.ahead_of_mem).trans_lt hn)
            exact ⟨all, .step (Sweep.step?_of_mem hid) hall⟩
          · have hless := Finset.card_lt_card (@Sweep.ahead_of_not_mem r _ _ queue hid)
            obtain ⟨all, hall⟩ := ih _ _ (hless.trans_le (Nat.le_of_lt_succ hn))
            exact ⟨all, .step (Sweep.step?_of_not_mem hid) hall⟩

/-- While the queue is worked off: nothing is taken in that does not reach `ids`, and what depends on
a visited id is visited or waits for its turn, as are the `ids`. -/
structure Sweep.Exact (r : Registry) (ids : List CanonicalId) (s : Sweep) : Prop where
  reaches : ∀ x ∈ s.queue ++ s.visited, r.Reaches ids x
  seeded : ids ⊆ s.queue ++ s.visited
  closed : ∀ {id x}, r.DependsOn id x → x ∈ s.visited → id ∈ s.queue ++ s.visited

theorem Sweep.Exact.start (r : Registry) (ids : List CanonicalId) : Sweep.Exact r ids ⟨ids, []⟩ where
  reaches x hx := .of_mem (by simpa using hx)
  seeded x hx := List.mem_append_left _ hx
  closed _ hx := absurd hx List.not_mem_nil

theorem Sweep.Exact.step {s s' : Sweep} (h : Sweep.Exact r ids s) (hstep : s.step? r = some s') :
    Sweep.Exact r ids s' := by
  obtain ⟨queue, visited⟩ := s
  cases queue with
  | nil => cases hstep
  | cons id queue =>
      by_cases hid : id ∈ visited
      · rw [Sweep.step?_of_mem hid, Option.some.injEq] at hstep
        subst hstep
        -- The same ids are in sight, since the first of the queue has been visited.
        have hsame : ∀ x, x ∈ (id :: queue) ++ visited ↔ x ∈ queue ++ visited := by
          intro x
          simp only [List.cons_append, List.mem_cons, List.mem_append]
          constructor
          · rintro (rfl | hx)
            · exact .inr hid
            · exact hx
          · exact .inr
        exact ⟨fun x hx => h.reaches x ((hsame x).2 hx), fun x hx => (hsame x).1 (h.seeded hx),
          fun hdepends hx => (hsame _).1 (h.closed hdepends hx)⟩
      · rw [Sweep.step?_of_not_mem hid, Option.some.injEq] at hstep
        subst hstep
        have hmore : ∀ {x}, x ∈ (id :: queue) ++ visited →
            x ∈ (queue ++ (r.dependentsOf [id]).filter (· ∉ id :: visited)) ++ id :: visited := by
          intro x hx
          simp only [List.cons_append, List.mem_cons, List.mem_append] at hx ⊢
          tauto
        refine ⟨fun x hx => ?_, fun x hx => hmore (h.seeded hx), fun {y x} hdepends hx => ?_⟩
        · rcases List.mem_append.1 hx with hx | hx
          · rcases List.mem_append.1 hx with hx | hx
            · exact h.reaches x (List.mem_append_left _ (List.mem_cons_of_mem id hx))
            · obtain ⟨z, hz, hdepends⟩ := mem_dependentsOf_iff.1 (List.mem_filter.1 hx).1
              rw [List.mem_singleton] at hz
              subst hz
              exact (h.reaches z List.mem_cons_self).head hdepends
          · exact h.reaches x (by simp only [List.cons_append, List.mem_cons, List.mem_append] at hx ⊢; tauto)
        · rcases List.mem_cons.1 hx with rfl | hx
          · by_cases hy : y ∈ x :: visited
            · exact List.mem_append_right _ hy
            · have hqueued : y ∈ (r.dependentsOf [x]).filter (· ∉ x :: visited) :=
                List.mem_filter.2 ⟨mem_dependentsOf_iff.2 ⟨x, List.mem_singleton_self x, hdepends⟩, by simpa using hy⟩
              exact List.mem_append_left _ (List.mem_append_right _ hqueued)
          · exact hmore (h.closed hdepends hx)

theorem Sweep.Exact.mem_iff {s : Sweep} {all : List CanonicalId} (h : Sweep.Exact r ids s) (hends : s.Ends r all) :
    id ∈ all ↔ r.Reaches ids id := by
  induction hends with
  | empty all =>
      constructor
      · exact h.reaches id
      · intro hid
        exact hid.mem_of_closed h.seeded h.closed
  | step hstep _ ih => exact ih (h.step hstep)

/-! ### Taking the values away -/

/-- The values of the visited elements go; the ids of these elements come back in order. -/
def reset (r : Registry) (visited : List CanonicalId) : List CanonicalId × Registry :=
  ((r.entries.toList.filter fun (id, _) => ⟨id⟩ ∈ visited).map fun (id, _) => ⟨id⟩,
    { r with entries := r.entries.map fun id e => if ⟨id⟩ ∈ visited then { e with value := none } else e })

theorem reset_congr {visited' : List CanonicalId} (h : ∀ x, x ∈ visited ↔ x ∈ visited') :
    r.reset visited = r.reset visited' := by
  simp only [reset, h]

theorem mem_invalidate_iff : id ∈ (r.invalidate ids).1 ↔ r.contains id = true ∧ r.Reaches ids id := by
  rw [invalidate, mem_ids_iff, contains, Option.isSome_iff_exists]
  simp only [decide_eq_true_eq, ← mem_affected_iff]
  exact exists_and_right

/-- Invalidation ends, and takes the values of exactly those elements from which dependencies lead to
one of the ids; nothing else changes. -/
theorem invalidate_exact (r : Registry) (ids : List CanonicalId) :
    (∃ visited, Sweep.Ends r ⟨ids, []⟩ visited ∧ r.invalidate ids = r.reset visited) ∧
      (∀ id, id ∈ (r.invalidate ids).1 ↔ r.contains id = true ∧ r.Reaches ids id) ∧
      (r.invalidate ids).1.Pairwise (·.text < ·.text) ∧
      (∀ id, Registry.entry? (r.invalidate ids).2 id =
        (r.entry? id).map fun e => if id ∈ (r.invalidate ids).1 then { e with value := none } else e) ∧
      (r.invalidate ids).2.entries.keys = r.entries.keys ∧ (r.invalidate ids).2.modules = r.modules := by
  refine ⟨?visits, fun id => mem_invalidate_iff, ?sorted, fun id => ?entries, ?keys, rfl⟩
  case visits =>
    obtain ⟨visited, hends⟩ := Sweep.exists_ends (r := r) _ ids [] (Nat.lt_succ_self _)
    refine ⟨visited, hends, reset_congr fun x => ?_⟩
    rw [mem_affected_iff, (Sweep.Exact.start r ids).mem_iff hends]
  case sorted => exact List.pairwise_map.2 (r.entries.sorted.filter _)
  case entries =>
    rw [entry?_invalidate]
    cases he : r.entry? id with
    | none => rfl
    | some e =>
        have hcontains : r.contains id = true := by rw [contains, he, Option.isSome_some]
        have hiff : id ∈ r.affected r.entries.size ids ↔ id ∈ (r.invalidate ids).1 := by
          rw [mem_affected_iff, mem_invalidate_iff, hcontains]
          exact (and_iff_right rfl).symm
        exact congrArg some (if_congr hiff rfl rfl)
  case keys => exact List.map_map ..

end StaticGql.Registry
