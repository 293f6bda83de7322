import StaticGql.Proofs.Registry.Retry

/-!
What an evaluation that is refused for a circle tells of: not the circle alone, but every element that
depends on one, in the order of their ids.
-/

namespace StaticGql.Registry

open Relation

variable {r r' : Registry} {id x : CanonicalId} {ids remaining c : List CanonicalId}
  {scheduler : Scheduler}

/-! ### Circles -/

/-- Each element depends on the next and the last on the first, and none of them comes twice. -/
def IsCircle (r : Registry) : List CanonicalId → Prop
  | [] => False
  | a :: l => (a :: l).Nodup ∧ List.IsChain r.DependsOn (a :: (l ++ [a]))

theorem IsCircle.runsIntoLoop (h : r.IsCircle c) (hx : x ∈ c) : r.RunsIntoLoop x := by
  cases c with
  | nil => cases hx
  | cons a l => exact .of_loop (Graph.transGen_of_closed h.2 hx hx)

theorem RunsIntoLoop.exists_dependency (h : r.RunsIntoLoop id) : ∃ x, r.DependsOn id x ∧ r.RunsIntoLoop x := by
  obtain ⟨a, hid, hloop⟩ := h
  rcases ReflTransGen.cases_head hid with rfl | ⟨x, hx, hxa⟩
  · obtain ⟨x, hx, hxa⟩ := TransGen.head'_iff.1 hloop
    exact ⟨x, hx, id, hxa, hloop⟩
  · exact ⟨x, hx, a, hxa, hloop⟩

theorem RunsIntoLoop.exists_entry (h : r.RunsIntoLoop id) : ∃ e, r.entry? id = some e := by
  obtain ⟨x, hx, -⟩ := h.exists_dependency
  obtain ⟨e, he, -⟩ := hx.exists_entry
  exact ⟨e, he⟩

theorem RunsIntoLoop.pending (h : r.RunsIntoLoop id) (hc : r.CoherentBy Effect.ComesTo) :
    id ∈ r.pendingIds := by
  refine mem_pendingIds_iff.2 ⟨h.exists_entry, ?_⟩
  obtain ⟨a, hid, hloop⟩ := h
  by_contra hvalue
  obtain ⟨v, hv⟩ := Option.ne_none_iff_exists'.1 hvalue
  have hground : r.Grounded a := by
    rcases reflTransGen_iff_eq_or_transGen.1 hid with rfl | hid
    · exact hc.grounded hv
    · exact (hc.grounded hv).of_transGen hid
  exact hground.not_loop hloop

/-! ### What remains when no element is ready -/

/-- Level by level whatever runs into a loop stays behind, and all that stays behind in the end does. -/
theorem of_levelsFrom_circular {fuel : Nat} (h : r.levelsFrom fuel remaining = .error (.circularDependency ids))
    (hfuel : remaining.length ≤ fuel) (hloops : ∀ x, r.RunsIntoLoop x → x ∈ remaining) :
    ids.Sublist remaining ∧ ids ≠ [] ∧ ∀ id, id ∈ ids ↔ r.RunsIntoLoop id := by
  induction fuel generalizing remaining with
  | zero =>
      obtain rfl := List.length_eq_zero_iff.1 (Nat.le_zero.1 hfuel)
      cases h
  | succ fuel ih =>
      by_cases hne : remaining = []
      · subst hne
        cases h
      rw [levelsFrom_succ hne] at h
      by_cases hready : (r.readyOf remaining).isEmpty = true
      · rw [if_pos hready] at h
        cases h
        refine ⟨List.Sublist.refl _, hne, fun id => ⟨fun hid => ?_, hloops id⟩⟩
        refine runsIntoLoop_of_mem (fun y hy => ?_) hid
        by_contra hnone
        have hy' : y ∈ r.readyOf ids := mem_readyOf_iff.2 ⟨hy, fun x hx hmem => hnone ⟨x, hmem, hx⟩⟩
        simp [List.isEmpty_iff.1 hready] at hy'
      · rw [if_neg hready] at h
        obtain ⟨a, ha⟩ := List.exists_mem_of_ne_nil _ fun e => hready (List.isEmpty_iff.2 e)
        have hlt : (remaining.filter (· ∉ r.readyOf remaining)).length < remaining.length := by
          refine List.length_filter_lt_length_iff_exists.2 ⟨a, (mem_readyOf_iff.1 ha).1, ?_⟩
          simpa using ha
        cases hrest : r.levelsFrom fuel (remaining.filter (· ∉ r.readyOf remaining)) with
        | ok levels =>
            rw [hrest] at h
            cases h
        | error b =>
            rw [hrest] at h
            cases h
            have hstay : ∀ x, r.RunsIntoLoop x → x ∈ remaining.filter (· ∉ r.readyOf remaining) := by
              intro x hx
              obtain ⟨y, hxy, hy⟩ := hx.exists_dependency
              have hnot : x ∉ r.readyOf remaining := fun hmem =>
                (mem_readyOf_iff.1 hmem).2 y hxy (hloops y hy)
              exact List.mem_filter.2 ⟨hloops x hx, by simpa using hnot⟩
            obtain ⟨hsub, hids, hiff⟩ := ih hrest (by omega) hstay
            exact ⟨hsub.trans List.filter_sublist, hids, hiff⟩

theorem of_evaluatePending_circular (hc : r.CoherentBy Effect.ComesTo)
    (h : r.evaluatePending scheduler = (.error (.circularDependency ids), r')) :
    r' = r ∧ ids.Sublist r.pendingIds ∧ ids ≠ [] ∧ ∀ id, id ∈ ids ↔ r.RunsIntoLoop id := by
  rw [evaluatePending, levels] at h
  cases hmissing : r.missing? with
  | some b =>
      rw [hmissing] at h
      obtain ⟨id, -, hfirst⟩ := List.exists_of_findSome?_eq_some hmissing
      obtain ⟨x, -, rfl⟩ := Option.map_eq_some_iff.1 hfirst
      cases h
  | none =>
      rw [hmissing] at h
      cases hlevels : r.levelsFrom r.entries.size r.pendingIds with
      | error b =>
          simp only [hlevels] at h
          cases h
          have hloops : ∀ x, r.RunsIntoLoop x → x ∈ r.pendingIds := fun x hx => hx.pending hc
          exact ⟨rfl, of_levelsFrom_circular hlevels (length_pendingIds_le r) hloops⟩
      | ok levels =>
          simp only [hlevels] at h
          obtain ⟨-, -, hresult⟩ :=
            evaluateLevels_spec scheduler _ _ levels 0 hlevels hc (remains_of_missing? hmissing)
          rw [h] at hresult
          exact absurd rfl (hresult.ne_circular ids)

/-! ### What is told -/

/-- Whatever was done to a registry: where an evaluation is refused for a circle, it tells of all elements
that run into a loop, in the order of their ids, and of no other. These are a circle in the order in which
they are told exactly if a circle that runs in the order of the ids holds all that run into a loop. -/
theorem Reachable.evaluate_circular (h : Reachable r)
    (hrun : (evaluate scheduler).run.run r = (.ok (.error (.circularDependency ids)), r')) :
    ids ≠ [] ∧ ids.Pairwise (·.text < ·.text) ∧ (∀ id, id ∈ ids ↔ r'.RunsIntoLoop id) ∧
      (∀ id ∈ ids, ∃ e, r'.entry? id = some e) ∧
        (r'.IsCircle ids ↔ ∃ c, r'.IsCircle c ∧ c.Pairwise (·.text < ·.text) ∧
          ∀ id, r'.RunsIntoLoop id → id ∈ c) := by
  obtain ⟨⟨n, r₁, -, -, hc, hpending⟩, -⟩ := exists_of_run_evaluate h.coherent hrun
  obtain ⟨rfl, hsub, hne, hiff⟩ := of_evaluatePending_circular hc hpending
  have hsorted := (pendingIds_pairwise r').sublist hsub
  refine ⟨hne, hsorted, hiff, fun id hid => ((hiff id).1 hid).exists_entry, ?_⟩
  constructor
  · intro hcircle
    exact ⟨ids, hcircle, hsorted, fun id hid => (hiff id).2 hid⟩
  · rintro ⟨c, hcircle, hc, hall⟩
    have heq : ids = c := eq_of_sorted hsorted hc fun id =>
      ⟨fun hid => hall id ((hiff id).1 hid), fun hid => (hiff id).2 (hcircle.runsIntoLoop hid)⟩
    rwa [heq]

/-- Two elements that depend on each other, and one that depends on one of them. -/
def waiting : Registry :=
  runOperations [.command (.install ⟨"/a", [], ∅,
    [⟨⟨"A"⟩, .define, [⟨"B"⟩], fun _ => .pure (.define (.nat 1))⟩,
      ⟨⟨"B"⟩, .define, [⟨"A"⟩], fun _ => .pure (.define (.nat 2))⟩,
      ⟨⟨"C"⟩, .define, [⟨"A"⟩], fun _ => .pure (.define (.nat 3))⟩], "1"⟩)] .empty

theorem reachable_waiting : Reachable waiting := .runOperations _ .empty

theorem evaluate_waiting : (evaluate .sync).run.run waiting =
    (.ok (.error (.circularDependency [⟨"A"⟩, ⟨"B"⟩, ⟨"C"⟩])), ((evaluate .sync).run.run waiting).2) :=
  Prod.ext (by decide +kernel) rfl

/-- The one that waits is told of like those on the circle, as it runs into the loop as well. -/
theorem told_waiting : Reachable waiting ∧ ((evaluate .sync).run.run waiting).2.RunsIntoLoop ⟨"C"⟩ := by
  obtain ⟨-, -, hiff, -⟩ := reachable_waiting.evaluate_circular evaluate_waiting
  exact ⟨reachable_waiting, (hiff ⟨"C"⟩).1 (by decide)⟩

/-- What is told need not be a circle. -/
theorem not_isCircle_waiting : ¬ ∀ (r r' : Registry) (scheduler : Scheduler) (ids : List CanonicalId),
    Reachable r → (evaluate scheduler).run.run r = (.ok (.error (.circularDependency ids)), r') →
      r'.IsCircle ids := by
  intro h
  obtain ⟨-, hchain⟩ := h _ _ .sync _ reachable_waiting evaluate_waiting
  have hnot : ¬ ((evaluate .sync).run.run waiting).2.DependsOn ⟨"B"⟩ ⟨"C"⟩ := by
    show ¬ _ ∈ _
    decide +kernel
  simp only [List.cons_append, List.isChain_cons_cons] at hchain
  exact hnot hchain.2.1

end StaticGql.Registry
