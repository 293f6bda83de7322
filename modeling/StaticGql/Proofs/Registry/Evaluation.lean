import StaticGql.Proofs.Effect
import StaticGql.Proofs.Registry.Coherence

/-!
Evaluating: level after level, each storing values that hold and taking none back. So a coherent
registry stays coherent wherever evaluating stops, and it does not stop early unless there is a reason
that any other evaluation of alike elements would meet as well.
-/

namespace StaticGql.Registry

open Relation

variable {r r' r₁ : Registry} {id x y : CanonicalId} {e : Entry} {v : Value} {o : Outcome Value}
  {c : Context} {P : Effect Value → Outcome Value → Prop} {level : List CanonicalId}

/-! ### The registry apart from its values -/

/-- The registry with nothing evaluated. -/
def blank (r : Registry) : Registry :=
  { r with entries := r.entries.map fun _ e => { e with value := none } }

theorem entry?_blank (r : Registry) (id : CanonicalId) :
    r.blank.entry? id = (r.entry? id).map fun e => { e with value := none } :=
  Dict.get?_map _ _ _

theorem entry?_of_blank (h : r.blank = r'.blank) (he : r.entry? id = some e) :
    ∃ v, r'.entry? id = some { e with value := v } := by
  have hb := congrArg (fun r : Registry => r.entry? id) h
  simp only [entry?_blank, he, Option.map_some] at hb
  obtain ⟨e', he', hee⟩ := Option.map_eq_some_iff.1 hb.symm
  refine ⟨e'.value, ?_⟩
  rw [he', Option.some.injEq]
  obtain ⟨k, f, d, fac, v⟩ := e
  obtain ⟨k', f', d', fac', v'⟩ := e'
  simp only [Entry.mk.injEq, and_true] at hee ⊢
  exact hee

theorem modules_of_blank (h : r.blank = r'.blank) : r.modules = r'.modules := by
  have hmodules : ∀ r : Registry, r.blank.modules = r.modules := fun _ => rfl
  rw [← hmodules, h, hmodules]

theorem dependenciesOf_blank (r : Registry) (id : CanonicalId) :
    r.blank.dependenciesOf id = r.dependenciesOf id := by
  rw [dependenciesOf, dependenciesOf, entry?_blank]
  cases r.entry? id <;> rfl

theorem dependenciesOf_congr (h : r.blank = r'.blank) (id : CanonicalId) :
    r.dependenciesOf id = r'.dependenciesOf id := by
  rw [← dependenciesOf_blank, h, dependenciesOf_blank]

/-! ### Values that stay -/

theorem Grounded.mono (hdeps : ∀ id, r.dependenciesOf id = r'.dependenciesOf id)
    (hvalue : ∀ {x v}, r.value? x = some v → ∃ w, r'.value? x = some w) (h : r.Grounded id) :
    r'.Grounded id := by
  induction h with
  | intro value _ ih =>
      obtain ⟨w, hw⟩ := hvalue value
      exact .intro hw fun x hx => ih x (by rwa [dependsOn_congr hdeps])

theorem transGen_congr (hself : r'.dependenciesOf id = r.dependenciesOf id)
    (hentry : ∀ x, TransGen r.DependsOn id x → r'.entry? x = r.entry? x) :
    TransGen r'.DependsOn id x ↔ TransGen r.DependsOn id x := by
  have hdeps : ∀ y, TransGen r.DependsOn id y → ∀ x, r'.DependsOn y x ↔ r.DependsOn y x := by
    intro y hy x
    rw [DependsOn, DependsOn, dependenciesOf, dependenciesOf, hentry y hy]
  constructor
  · intro h
    induction h with
    | single hx => exact .single (by rwa [DependsOn, hself] at hx)
    | tail _ hx ih => exact ih.tail ((hdeps _ ih _).1 hx)
  · intro h
    induction h with
    | single hx => exact .single (by rwa [DependsOn, hself])
    | tail hy hx ih => exact ih.tail ((hdeps _ hy _).2 hx)

/-- A context goes by what the element depends on alone. -/
theorem IsContext.frame (hself : r'.dependenciesOf id = r.dependenciesOf id)
    (hentry : ∀ x, TransGen r.DependsOn id x → r'.entry? x = r.entry? x) (h : r.IsContext id c) :
    r'.IsContext id c where
  id_eq := h.id_eq
  direct := by
    rw [h.direct, hself]
    exact List.map_congr_left fun x hx => by rw [value?, value?, hentry x (.single hx)]
  transitive := by
    intro k v
    rw [h.transitive, Sees, Sees, transGen_congr hself hentry]
    refine and_congr_right fun hk => ?_
    rw [value?, value?, hentry _ hk.1]

/-! ### Storing -/

theorem entry?_store (r : Registry) (id x : CanonicalId) (v : Value) :
    Registry.entry? (r.store id v) x =
      if x = id then (r.entry? x).map fun e => { e with value := some v } else r.entry? x := by
  obtain ⟨a⟩ := x
  obtain ⟨b⟩ := id
  simp only [Registry.entry?, store, Dict.get?_modify, CanonicalId.mk.injEq]

theorem blank_store (r : Registry) (id : CanonicalId) (v : Value) : (r.store id v).blank = r.blank := by
  unfold blank
  congr 1
  refine Dict.ext_get? fun k => ?_
  simp only [store, Dict.get?_map, Dict.get?_modify]
  split
  · cases r.entries.get? k <;> rfl
  · rfl

theorem entry?_store_of_ne (h : x ≠ id) : Registry.entry? (r.store id v) x = r.entry? x := by
  rw [entry?_store, if_neg h]

theorem value?_store_of_ne (h : x ≠ id) : (r.store id v).value? x = r.value? x := by
  rw [value?, value?, entry?_store_of_ne h]

theorem value?_store_self (h : r.entry? id = some e) : (r.store id v).value? id = some v := by
  rw [value?, entry?_store, if_pos rfl, h]
  rfl

/-- The element is pending, all that it depends on is evaluated, and this is its outcome, whatever is
taken for an outcome. -/
structure DueBy (P : Effect Value → Outcome Value → Prop) (r : Registry) (id : CanonicalId)
    (o : Outcome Value) : Prop where
  pending : r.value? id = none
  dependencies : ∀ x, r.DependsOn id x → r.Grounded x
  outcome : ∃ e c, r.entry? id = some e ∧ r.IsContext id c ∧ P (e.factory c) o

/-- The factory is ready with this outcome. -/
abbrev Due (r : Registry) (id : CanonicalId) (o : Outcome Value) : Prop :=
  r.DueBy (fun e o => e = .ready o) id o

theorem DueBy.grounded_below (h : r.DueBy P id o) (hx : TransGen r.DependsOn id x) : r.Grounded x :=
  grounded_of_below h.dependencies hx

theorem ne_of_pending (hid : r.value? id = none) (hx : r.Grounded x) : x ≠ id := by
  rintro rfl
  obtain ⟨v, hv⟩ := hx.value
  simp [hid] at hv

theorem Grounded.store (hid : r.value? id = none) (hx : r.Grounded x) : (r.store id v).Grounded x := by
  refine hx.mono (dependenciesOf_congr (blank_store r id v).symm) fun {y w} hy => ⟨w, ?_⟩
  rw [value?_store_of_ne, hy]
  rintro rfl
  simp [hid] at hy

theorem HoldsBy.store (hid : r.value? id = none) (hx : r.Grounded x) (h : r.HoldsBy P x v) (w : Value) :
    (r.store id w).HoldsBy P x v := by
  obtain ⟨e, c, he, hc, hv⟩ := h
  refine ⟨e, c, ?_, ?_, hv⟩
  · rw [entry?_store_of_ne (ne_of_pending hid hx), he]
  · refine hc.frame (dependenciesOf_congr (blank_store r id w) x) fun y hy => ?_
    exact entry?_store_of_ne (ne_of_pending hid (hx.of_transGen hy))

theorem DueBy.isContext_store (h : r.DueBy P x o) (hid : r.value? id = none) (w : Value)
    (hc : r.IsContext x c) : (r.store id w).IsContext x c := by
  refine hc.frame (dependenciesOf_congr (blank_store r id w) x) fun y hy => ?_
  exact entry?_store_of_ne (ne_of_pending hid (h.grounded_below hy))

/-- Storing the outcome of one element leaves the others of its level due. -/
theorem DueBy.store (h : r.DueBy P x o) (hid : r.value? id = none) (hne : x ≠ id) (w : Value) :
    (r.store id w).DueBy P x o where
  pending := by rw [value?_store_of_ne hne, h.pending]
  dependencies y hy :=
    (h.dependencies y (by rwa [dependsOn_congr (dependenciesOf_congr (blank_store r id w).symm)])).store
      hid
  outcome := by
    obtain ⟨e, c, he, hc, ho⟩ := h.outcome
    exact ⟨e, c, by rw [entry?_store_of_ne hne, he], h.isContext_store hid w hc, ho⟩

theorem CoherentBy.store (h : r.CoherentBy P) (hid : r.DueBy P id (.ok v)) :
    (r.store id v).CoherentBy P := by
  obtain ⟨e, c, he, hc, ho⟩ := hid.outcome
  have hdeps := dependenciesOf_congr (blank_store r id v).symm
  have hself : (r.store id v).Grounded id := by
    refine .intro (value?_store_self he) fun x hx => ?_
    rw [← dependsOn_congr hdeps] at hx
    exact (hid.dependencies x hx).store hid.pending
  constructor
  · intro x w hw
    by_cases hx : x = id
    · exact hx ▸ hself
    · rw [value?_store_of_ne hx] at hw
      exact (h.grounded hw).store hid.pending
  · intro x w hw
    by_cases hx : x = id
    · subst hx
      rw [value?_store_self he, Option.some.injEq] at hw
      subst hw
      refine ⟨{ e with value := some v }, c, ?_, hid.isContext_store hid.pending v hc, ho⟩
      rw [entry?_store, if_pos rfl, he]
      rfl
    · rw [value?_store_of_ne hx] at hw
      exact (h.holds hw).store hid.pending (h.grounded hw) v

/-! ### Committing a level -/

/-- Nothing but values has been added. -/
structure Grows (r r' : Registry) : Prop where
  blank : r'.blank = r.blank
  kept : ∀ {id v}, r.value? id = some v → r'.value? id = some v

theorem Grows.refl (r : Registry) : r.Grows r := ⟨rfl, id⟩

theorem Grows.trans (h : r.Grows r') (h' : r'.Grows r₁) : r.Grows r₁ :=
  ⟨h'.blank.trans h.blank, fun hv => h'.kept (h.kept hv)⟩

theorem Grows.store (hid : r.value? id = none) (v : Value) : r.Grows (r.store id v) := by
  refine ⟨blank_store r id v, fun {x w} hx => ?_⟩
  rw [value?_store_of_ne, hx]
  rintro rfl
  simp [hid] at hx

/-- All outcomes of a level are stored, or those before one that fails, which is due still. -/
theorem commit_spec (outcomes : List (CanonicalId × Outcome Value)) (h : r.CoherentBy P)
    (hnodup : (outcomes.map (·.1)).Nodup) (hdue : ∀ p ∈ outcomes, r.DueBy P p.1 p.2) :
    (r.commit outcomes).2.CoherentBy P ∧ r.Grows (r.commit outcomes).2 ∧
      match (r.commit outcomes).1 with
      | none => ∀ x, (r.commit outcomes).2.value? x = none ↔
          r.value? x = none ∧ x ∉ outcomes.map (·.1)
      | some e => ∃ id failure, (r.commit outcomes).2.DueBy P id (.error failure) ∧
          e = .ofEvaluation id failure := by
  induction outcomes generalizing r with
  | nil => exact ⟨h, .refl r, fun x => by simp [commit]⟩
  | cons p rest ih =>
      obtain ⟨id, o⟩ := p
      have hid := hdue (id, o) (by simp)
      cases o with
      | error failure => exact ⟨h, .refl r, id, failure, hid, rfl⟩
      | ok v =>
          rw [List.map_cons, List.nodup_cons] at hnodup
          have hne : ∀ p ∈ rest, p.1 ≠ id := by
            rintro p hp rfl
            exact hnodup.1 (List.mem_map.2 ⟨p, hp, rfl⟩)
          have hrest := ih (h.store hid) hnodup.2 fun p hp =>
            (hdue p (List.mem_cons_of_mem _ hp)).store hid.pending (hne p hp) v
          obtain ⟨hcoherent, hgrows, hmatch⟩ := hrest
          refine ⟨hcoherent, (Grows.store hid.pending v).trans hgrows, ?_⟩
          simp only [commit]
          cases hr : ((r.store id v).commit rest).1 with
          | some e => simpa only [hr] using hmatch
          | none =>
              simp only [hr] at hmatch ⊢
              intro x
              rw [hmatch, List.map_cons, List.mem_cons, not_or]
              by_cases hx : x = id
              · obtain ⟨e, -, he, -⟩ := hid.outcome
                simp [hx, value?_store_self he]
              · simp [hx, value?_store_of_ne hx]

/-! ### The effects of a level -/

/-- Pending elements over what is evaluated. -/
def IsLevel (r : Registry) (level : List CanonicalId) : Prop :=
  ∀ id ∈ level, (∃ e, r.entry? id = some e) ∧ r.value? id = none ∧ ∀ x, r.DependsOn id x → r.Grounded x

/-- The effects of a level are what the factories of its elements make of their contexts. -/
theorem effects_eq_ok {effects : List (CanonicalId × Effect Value)} (h : r.effects level = .ok effects)
    (hlevel : ∀ id ∈ level, ∃ e, r.entry? id = some e) :
    effects.map (·.1) = level ∧ ∀ p ∈ effects, ∃ e c, r.entry? p.1 = some e ∧ r.IsContext p.1 c ∧
      p.2 = e.factory c := by
  induction level generalizing effects with
  | nil =>
      cases h
      exact ⟨rfl, by simp⟩
  | cons id rest ih =>
      obtain ⟨e, he⟩ := hlevel id (by simp)
      simp only [Registry.effects, List.filterMap_cons, he, Option.map_some, List.mapM_cons] at h
      obtain ⟨p, hp, h⟩ := bind_eq_ok_iff.1 h
      obtain ⟨effects', hrest, h⟩ := bind_eq_ok_iff.1 h
      cases h
      obtain ⟨c, hc, rfl⟩ := map_eq_ok_iff.1 hp
      have hcontext := context_spec r id
      rw [hc] at hcontext
      obtain ⟨hids, hall⟩ := ih hrest fun x hx => hlevel x (List.mem_cons_of_mem id hx)
      exact ⟨by rw [List.map_cons, hids], List.forall_mem_cons.2 ⟨⟨e, c, he, hcontext, rfl⟩, hall⟩⟩

/-- A scheduler that can run the effects of a level runs each of them, and its group never fails. -/
theorem run_eq (scheduler : Scheduler) (effects : List (CanonicalId × Effect Value)) :
    run scheduler effects =
      match unrunnable? scheduler effects with
      | some id => .error (.asyncEffect id)
      | none => .ok (effects.map fun p => (p.1, p.2.run scheduler)) := by
  rw [run]
  cases hrunnable : unrunnable? scheduler effects with
  | some id => rfl
  | none =>
      have hsync : scheduler = .sync → ∀ e ∈ effects.map (·.2), e.isAsync = false := by
        rintro rfl e he
        obtain ⟨p, hp, rfl⟩ := List.mem_map.1 he
        rw [unrunnable?, Option.map_eq_none_iff, List.find?_eq_none] at hrunnable
        simpa using hrunnable p hp
      have hgroup := Effect.run_all_attempt scheduler hsync
      rw [List.map_map] at hgroup
      simp only [Function.comp_def] at hgroup
      simp only [hgroup, List.map_map, List.zip_map', Function.comp_def]

/-- Effects that a scheduler runs come to what they would come to under the asynchronous one. -/
theorem run_eq_ok {scheduler : Scheduler} {effects : List (CanonicalId × Effect Value)}
    {outcomes : List (CanonicalId × Outcome Value)} (h : run scheduler effects = .ok outcomes) :
    outcomes = effects.map fun p => (p.1, p.2.run .async) := by
  rw [run_eq] at h
  split at h
  · cases h
  · rename_i hrunnable
    cases h
    cases scheduler with
    | async => rfl
    | sync =>
        rw [unrunnable?, Option.map_eq_none_iff, List.find?_eq_none] at hrunnable
        refine List.map_congr_left fun p hp => ?_
        exact congrArg (p.1, ·) (Effect.run_sync_eq (by simpa using hrunnable p hp))

theorem dueBy_of_run {scheduler : Scheduler} {outcomes : List (CanonicalId × Outcome Value)}
    (hlevel : r.IsLevel level) (h : (r.effects level).bind (run scheduler) = .ok outcomes) :
    outcomes.map (·.1) = level ∧ ∀ p ∈ outcomes, r.DueBy Effect.ComesTo p.1 p.2 := by
  obtain ⟨effects, heffects, hrun⟩ := bind_eq_ok_iff.1 h
  obtain ⟨hids, hall⟩ := effects_eq_ok heffects fun id hid => (hlevel id hid).1
  rw [run_eq_ok hrun, List.map_map]
  refine ⟨hids, fun p hp => ?_⟩
  obtain ⟨q, hq, rfl⟩ := List.mem_map.1 hp
  obtain ⟨e, c, he, hc, heffect⟩ := hall q hq
  have hid : q.1 ∈ level := hids ▸ List.mem_map.2 ⟨q, hq, rfl⟩
  obtain ⟨-, hpending, hdependencies⟩ := hlevel q.1 hid
  exact ⟨hpending, hdependencies, e, c, he, hc, heffect ▸ rfl⟩

/-! ### Elements that are ready at once -/

/-- All elements are ready at once. -/
structure Static (r : Registry) : Prop where
  entry : ∀ {id e}, r.entry? id = some e → Factory.IsStatic e.factory

theorem Static.of_blank (h : r.Static) (hb : r'.blank = r.blank) : r'.Static where
  entry he := by
    obtain ⟨v, he'⟩ := entry?_of_blank hb he
    have := h.entry he'
    exact this

theorem Static.ready_iff (h : r.Static) (he : r.entry? id = some e) :
    (e.factory c).ComesTo o ↔ e.factory c = .ready o := by
  obtain ⟨o', ho'⟩ := (h.entry he).ready c
  rw [ho', Effect.comesTo_ready, Effect.ready.injEq]

theorem Static.due (h : r.Static) (hid : r.DueBy Effect.ComesTo id o) : r.Due id o := by
  obtain ⟨e, c, he, hc, ho⟩ := hid.outcome
  exact ⟨hid.pending, hid.dependencies, e, c, he, hc, (h.ready_iff he).1 ho⟩

theorem Static.coherent_iff (h : r.Static) : r.Coherent ↔ r.CoherentBy Effect.ComesTo := by
  constructor
  · refine fun hr => ⟨hr.grounded, fun hv => ?_⟩
    obtain ⟨e, c, he, hc, ho⟩ := hr.holds hv
    exact ⟨e, c, he, hc, (h.ready_iff he).2 ho⟩
  · refine fun hr => ⟨hr.grounded, fun hv => ?_⟩
    obtain ⟨e, c, he, hc, ho⟩ := hr.holds hv
    exact ⟨e, c, he, hc, (h.ready_iff he).1 ho⟩

theorem exists_effects (hlevel : r.IsLevel level) : ∃ effects, r.effects level = .ok effects := by
  induction level with
  | nil => exact ⟨[], rfl⟩
  | cons id rest ih =>
      obtain ⟨effects, hrest⟩ := ih fun x hx => hlevel x (List.mem_cons_of_mem id hx)
      obtain ⟨⟨e, he⟩, -, hdependencies⟩ := hlevel id (by simp)
      obtain ⟨c, hc, -⟩ := exists_isContext r id fun x hx => by
        obtain ⟨v, hv⟩ := (grounded_of_below hdependencies hx).value
        simp [hv]
      rw [Registry.effects] at hrest ⊢
      simp only [List.filterMap_cons, he, Option.map_some, List.mapM_cons, hrest, hc]
      exact ⟨_, rfl⟩

/-- A level of elements that are ready at once is run by any scheduler. -/
theorem Static.exists_outcomes (h : r.Static) (scheduler : Scheduler) (hlevel : r.IsLevel level) :
    ∃ outcomes, (r.effects level).bind (run scheduler) = .ok outcomes := by
  obtain ⟨effects, heffects⟩ := exists_effects hlevel
  obtain ⟨-, hall⟩ := effects_eq_ok heffects fun id hid => (hlevel id hid).1
  have hrunnable : unrunnable? scheduler effects = none := by
    cases scheduler with
    | async => rfl
    | sync =>
        rw [unrunnable?, Option.map_eq_none_iff, List.find?_eq_none]
        intro p hp
        obtain ⟨e, c, he, -, heffect⟩ := hall p hp
        obtain ⟨o, ho⟩ := (h.entry he).ready c
        simp [heffect, ho, Effect.isAsync]
  exact ⟨effects.map fun p => (p.1, p.2.run scheduler), by rw [heffects, Except.bind, run_eq, hrunnable]⟩

/-! ### Evaluating without modules -/

theorem evaluate_of_no_modules (scheduler : Scheduler) (hr : r.modules = ∅) :
    (evaluate scheduler).run.run r =
      (.ok (r.evaluatePending scheduler).1, (r.evaluatePending scheduler).2) := by
  obtain ⟨modules, entries⟩ := r
  obtain rfl : modules = ∅ := hr
  rfl

end StaticGql.Registry
