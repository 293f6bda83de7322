import StaticGql.Proofs.Registry.Origin

/-!
Evaluating under either scheduler. Until an element is met whose effect has to be awaited both do the
same: they store the same values, stop at the same failure, and leave the same registry.
-/

namespace StaticGql.Registry

variable {r r' : Registry} {id : CanonicalId} {level : List CanonicalId}

/-! ### One level -/

/-- The effects of a level come of elements in the contexts that they have. -/
theorem exists_of_mem_effects {effects : List (CanonicalId × Effect Value)}
    (h : r.effects level = .ok effects) {p : CanonicalId × Effect Value} (hp : p ∈ effects) :
    p.1 ∈ level ∧ ∃ e c, r.entry? p.1 = some e ∧ r.context p.1 = .ok c ∧ p.2 = e.factory c := by
  obtain ⟨q, hq, hpq⟩ := exists_of_forall₂ (mapM_eq_ok_iff.1 h).flip hp
  obtain ⟨id, hid, hentry⟩ := List.mem_filterMap.1 hq
  obtain ⟨e, he, rfl⟩ := Option.map_eq_some_iff.1 hentry
  obtain ⟨c, hc, rfl⟩ := map_eq_ok_iff.1 hpq
  exact ⟨hid, e, c, he, hc, rfl⟩

/-- The synchronous scheduler runs a level as the other does, unless it refuses an effect of it. -/
theorem run_sync_eq_or (effects : List (CanonicalId × Effect Value)) :
    run .sync effects = run .async effects ∨
      ∃ p ∈ effects, p.2.isAsync = true ∧ run .sync effects = .error (.asyncEffect p.1) := by
  cases hfind : effects.find? (·.2.isAsync) with
  | some p =>
      have hasync : p.2.isAsync = true := by simpa using List.find?_some hfind
      refine .inr ⟨p, List.mem_of_find?_eq_some hfind, hasync, ?_⟩
      rw [run_eq, unrunnable?, hfind]
      rfl
  | none =>
      refine .inl ?_
      rw [run_eq, run_eq, unrunnable?, unrunnable?, hfind]
      rw [List.find?_eq_none] at hfind
      refine congrArg Except.ok (List.map_congr_left fun p hp => ?_)
      exact congrArg (p.1, ·) (Effect.run_sync_eq (by simpa using hfind p hp))

/-! ### All levels -/

/-- An element that was pending in a registry has an effect to be awaited, once others have values. -/
def Waits (r r' : Registry) (id : CanonicalId) : Prop :=
  id ∈ r.pendingIds ∧ ∃ e c, r'.entry? id = some e ∧ r'.context id = .ok c ∧ (e.factory c).isAsync = true

/-- Whether a run of the synchronous scheduler was refused for an element that waits. -/
def Refused (r : Registry) (result : Build Nat × Registry) : Prop :=
  ∃ id, result.1 = .error (.asyncEffect id) ∧ r.Waits result.2 id

theorem mem_of_levelsFrom {fuel : Nat} {remaining : List CanonicalId} {levels : List (List CanonicalId)}
    (h : r.levelsFrom fuel remaining = .ok levels) : ∀ level ∈ levels, level ⊆ remaining := by
  induction fuel generalizing remaining levels with
  | zero =>
      cases remaining with
      | nil =>
          cases h
          simp
      | cons a rest => cases h
  | succ fuel ih =>
      by_cases hne : remaining = []
      · subst hne
        cases h
        simp
      rw [levelsFrom_succ hne] at h
      split at h
      · cases h
      · obtain ⟨rest, hrest, rfl⟩ := map_eq_ok_iff.1 h
        intro level hlevel
        rcases List.mem_cons.1 hlevel with rfl | hlevel
        · exact List.filter_subset_self _
        · exact fun x hx => List.mem_of_mem_filter (ih hrest level hlevel hx)

theorem evaluateLevels_eq_or (levels : List (List CanonicalId)) (r' : Registry) (count : Nat)
    (hpending : ∀ level ∈ levels, level ⊆ r.pendingIds) :
    evaluateLevels .sync r' count levels = evaluateLevels .async r' count levels ∨
      r.Refused (evaluateLevels .sync r' count levels) := by
  induction levels generalizing r' count with
  | nil => exact .inl rfl
  | cons level rest ih =>
      have hrest := fun l hl => hpending l (List.mem_cons_of_mem level hl)
      cases heffects : r'.effects level with
      | error b =>
          refine .inl ?_
          simp only [evaluateLevels, heffects, Except.bind]
      | ok effects =>
          simp only [evaluateLevels, heffects, Except.bind]
          rcases run_sync_eq_or effects with hrun | ⟨p, hp, hasync, hrun⟩
          · rw [hrun]
            cases run .async effects with
            | error b => exact .inl rfl
            | ok outcomes =>
                rcases hcommit : r'.commit outcomes with ⟨_ | b, r₁⟩
                · simp only [hcommit]
                  exact ih _ _ hrest
                · simp only [hcommit, true_or]
          · obtain ⟨hlevel, e, c, he, hc, heffect⟩ := exists_of_mem_effects heffects hp
            rw [hrun]
            refine .inr ⟨p.1, rfl, hpending level (by simp) hlevel, e, c, he, hc, ?_⟩
            rw [← heffect, hasync]

/-- Both schedulers evaluate what is pending alike, unless one of the pending elements waits. -/
theorem evaluatePending_eq_or (r : Registry) :
    r.evaluatePending .sync = r.evaluatePending .async ∨ r.Refused (r.evaluatePending .sync) := by
  simp only [evaluatePending]
  cases hlevels : r.levels with
  | error b => exact .inl rfl
  | ok levels =>
      simp only
      refine evaluateLevels_eq_or levels r 0 ?_
      rw [Registry.levels] at hlevels
      cases hmissing : r.missing? with
      | some b => simp [hmissing] at hlevels
      | none =>
          rw [hmissing] at hlevels
          exact mem_of_levelsFrom hlevels

/-! ### Registries without asynchronous effects -/

/-- No pending element has an effect to be awaited, whichever others have values by then. -/
def Prompt (r : Registry) : Prop := ∀ r', r'.blank = r.blank → ∀ id, ¬ r.Waits r' id

theorem Prompt.evaluatePending_eq (h : r.Prompt) : r.evaluatePending .sync = r.evaluatePending .async := by
  rcases evaluatePending_eq_or r with heq | ⟨id, -, hwaits⟩
  · exact heq
  · exact absurd hwaits (h _ (blank_evaluatePending r) id)

theorem prompt_of_isAsync (h : r.StemsFrom fun d => ∀ c, (d.factory c).isAsync = false) : r.Prompt := by
  rintro r' hb id ⟨-, e, c, he, -, hasync⟩
  have := (h.of_blank hb).entry he c
  simp [Entry.definition, hasync] at this

theorem run_evaluate (scheduler : Scheduler) (r : Registry) : (evaluate scheduler).run.run r =
    match registerAll.run.run r with
    | (.error e, r') => (.error e, r')
    | (.ok _, r') => (.ok (r'.evaluatePending scheduler).1, (r'.evaluatePending scheduler).2) := by
  rw [evaluate, Step.discard_eq, ExceptT.run_bind, StateT.run_bind, ExceptT.run_bind, StateT.run_bind]
  rcases registerAll.run.run r with ⟨e | n, r'⟩ <;> rfl

/-- Both schedulers do the same to a registry if nothing waits that is pending once all modules are
registered. -/
theorem evaluate_eq (h : ∀ n r', registerAll.run.run r = (.ok n, r') → r'.Prompt) :
    (evaluate .sync).run.run r = (evaluate .async).run.run r := by
  rw [run_evaluate, run_evaluate]
  rcases hrun : registerAll.run.run r with ⟨e | n, r'⟩
  · rfl
  · simp only [(h n r' hrun).evaluatePending_eq]

theorem prompt_of_registerAll (h : r.StemsFrom fun d => ∀ c, (d.factory c).isAsync = false) {n : Nat}
    (hrun : registerAll.run.run r = (.ok n, r')) : r'.Prompt := by
  have hleaves := h.registerAll
  rw [Step.Leaves, hrun] at hleaves
  exact prompt_of_isAsync hleaves

end StaticGql.Registry
