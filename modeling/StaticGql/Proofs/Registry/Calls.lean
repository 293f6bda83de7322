import StaticGql.Proofs.Registry.Reachable
import StaticGql.Proofs.Registry.Schedule

/-!
Which factories an evaluation calls, and what they are shown. One that goes through calls the factory of
every element that was pending, once, over all that the element depends on; one that fails does so for a
reason of the elements, never because it came to an element too early.
-/

namespace StaticGql.Registry

open Relation

variable {r r' : Registry} {id x : CanonicalId} {v : Value} {scheduler : Scheduler} {b : BuildError}
  {level remaining : List CanonicalId}

/-! ### Evaluating with a record -/

/-- The factory of an element called in a registry, with what it was shown and what it made. -/
structure Call where
  id : CanonicalId
  registry : Registry
  context : Context
  effect : Effect Value

/-- The effects of some elements, and the calls for them up to one whose context cannot be made. -/
def callAll (r : Registry) :
    List (CanonicalId × Factory) → List Call × Build (List (CanonicalId × Effect Value))
  | [] => ([], .ok [])
  | (id, factory) :: rest =>
    match r.context id with
    | .error b => ([], .error b)
    | .ok c =>
      (⟨id, r, c, factory c⟩ :: (callAll r rest).1, (callAll r rest).2.map ((id, factory c) :: ·))

def callLevel (r : Registry) (level : List CanonicalId) :
    List Call × Build (List (CanonicalId × Effect Value)) :=
  r.callAll (level.filterMap fun id => (r.entry? id).map fun e => (id, e.factory))

/-- One level after another, as `evaluateLevels` does it, with all calls. -/
def callLevels (scheduler : Scheduler) :
    Registry → Nat → List (List CanonicalId) → List Call × Build Nat × Registry
  | r, count, [] => ([], .ok count, r)
  | r, count, level :: rest =>
    match (r.callLevel level).2.bind (run scheduler) with
    | .error b => ((r.callLevel level).1, .error b, r)
    | .ok outcomes =>
      match r.commit outcomes with
      | (some b, r') => ((r.callLevel level).1, .error b, r')
      | (none, r') =>
        let (calls, result) := callLevels scheduler r' (count + outcomes.length) rest
        ((r.callLevel level).1 ++ calls, result)

def callPending (scheduler : Scheduler) (r : Registry) : List Call × Build Nat × Registry :=
  match r.levels with
  | .error b => ([], .error b, r)
  | .ok levels => callLevels scheduler r 0 levels

/-- Evaluating with the calls that it makes. -/
def evaluateRecorded (scheduler : Scheduler) (r : Registry) :
    List Call × Except RegisteredTwice (Build Nat) × Registry :=
  match registerAll.run.run r with
  | (.error twice, r') => ([], .error twice, r')
  | (.ok _, r') =>
    let (calls, result, r'') := r'.callPending scheduler
    (calls, .ok result, r'')

/-! ### The record changes nothing -/

theorem snd_callAll (r : Registry) (l : List (CanonicalId × Factory)) :
    (r.callAll l).2 = l.mapM fun (id, factory) => (r.context id).map fun c => (id, factory c) := by
  induction l with
  | nil => rfl
  | cons p rest ih =>
      obtain ⟨id, factory⟩ := p
      simp only [callAll, List.mapM_cons, ← ih]
      cases r.context id with
      | error b => rfl
      | ok c => cases (r.callAll rest).2 <;> rfl

theorem snd_callLevel (r : Registry) (level : List CanonicalId) :
    (r.callLevel level).2 = r.effects level := snd_callAll r _

theorem snd_callLevels (scheduler : Scheduler) (r : Registry) (count : Nat)
    (levels : List (List CanonicalId)) :
    (callLevels scheduler r count levels).2 = evaluateLevels scheduler r count levels := by
  induction levels generalizing r count with
  | nil => rfl
  | cons level rest ih =>
      rw [callLevels, evaluateLevels, snd_callLevel]
      cases (r.effects level).bind (run scheduler) with
      | error b => rfl
      | ok outcomes =>
          simp only
          rcases r.commit outcomes with ⟨_ | b, r'⟩
          · exact ih r' _
          · rfl

theorem snd_callPending (scheduler : Scheduler) (r : Registry) :
    (r.callPending scheduler).2 = r.evaluatePending scheduler := by
  rw [callPending, evaluatePending]
  cases r.levels with
  | error b => rfl
  | ok levels => exact snd_callLevels scheduler r 0 levels

theorem snd_evaluateRecorded (scheduler : Scheduler) (r : Registry) :
    (evaluateRecorded scheduler r).2 = (evaluate scheduler).run.run r := by
  rw [evaluateRecorded, run_evaluate]
  rcases registerAll.run.run r with ⟨twice | n, r'⟩
  · rfl
  · simp only [← snd_callPending]

/-! ### The calls of one level -/

/-- A call over all that its element depends on. -/
structure Call.Ripe (c : Call) : Prop where
  pending : c.registry.value? c.id = none
  below : ∀ x, c.registry.DependsOn c.id x → c.registry.Grounded x
  context : c.registry.IsContext c.id c.context
  effect : ∃ e, c.registry.entry? c.id = some e ∧ c.effect = e.factory c.context

theorem callLevel_spec (hlevel : r.IsLevel level) :
    (r.callLevel level).1.map (·.id) = level ∧
      (r.callLevel level).2 = .ok ((r.callLevel level).1.map fun c => (c.id, c.effect)) ∧
      ∀ c ∈ (r.callLevel level).1, c.registry = r ∧ c.Ripe := by
  induction level with
  | nil => exact ⟨rfl, rfl, by simp [callLevel, callAll]⟩
  | cons id rest ih =>
      obtain ⟨⟨e, he⟩, hpending, hbelow⟩ := hlevel id (by simp)
      obtain ⟨c, hc, hcontext⟩ := exists_isContext r id fun x hx => by
        obtain ⟨v, hv⟩ := (grounded_of_below hbelow hx).value
        simp [hv]
      obtain ⟨hids, heffects, hcalls⟩ := ih fun x hx => hlevel x (List.mem_cons_of_mem id hx)
      have hcons : r.callLevel (id :: rest) = (⟨id, r, c, e.factory c⟩ :: (r.callLevel rest).1,
          (r.callLevel rest).2.map ((id, e.factory c) :: ·)) := by
        simp only [callLevel, List.filterMap_cons, he, Option.map_some, callAll, hc]
      rw [hcons]
      refine ⟨by rw [List.map_cons, hids], by rw [heffects]; rfl, List.forall_mem_cons.2 ⟨⟨rfl, ?_⟩, hcalls⟩⟩
      exact ⟨hpending, hbelow, hcontext, e, he, rfl⟩

/-- An evaluation of a level calls the factories of all its elements. It is refused if the scheduler
cannot run what one of them made. -/
theorem run_callLevel (scheduler : Scheduler) (hlevel : r.IsLevel level) :
    match (r.callLevel level).2.bind (run scheduler) with
    | .error b => ∃ c ∈ (r.callLevel level).1, scheduler = .sync ∧ c.effect.isAsync = true ∧ b = .asyncEffect c.id
    | .ok outcomes => outcomes = (r.callLevel level).1.map (fun c => (c.id, c.effect.run scheduler)) ∧
        (scheduler = .sync → ∀ c ∈ (r.callLevel level).1, c.effect.isAsync = false) := by
  obtain ⟨-, heffects, -⟩ := callLevel_spec hlevel
  rw [heffects]
  generalize (r.callLevel level).1 = calls
  simp only [Except.bind, run_eq]
  cases scheduler with
  | async => exact ⟨by simp only [List.map_map, Function.comp_def], nofun⟩
  | sync =>
      cases hfind : (calls.map fun c => (c.id, c.effect)).find? (·.2.isAsync) with
      | some p =>
          obtain ⟨c, hc, rfl⟩ := List.mem_map.1 (List.mem_of_find?_eq_some hfind)
          have hasync : c.effect.isAsync = true := by simpa using List.find?_some hfind
          simp only [unrunnable?, hfind, Option.map_some]
          exact ⟨c, hc, trivial, hasync, rfl⟩
      | none =>
          simp only [unrunnable?, hfind, Option.map_none, List.map_map, Function.comp_def]
          rw [List.find?_eq_none] at hfind
          refine ⟨trivial, fun _ c hc => ?_⟩
          simpa using hfind _ (List.mem_map_of_mem hc)

/-! ### The calls of an evaluation -/

theorem Grows.entry?_eq (h : r.Grows r') (hv : r.value? id = some v) : r'.entry? id = r.entry? id := by
  obtain ⟨e, he, hev⟩ := value?_eq_some_iff.1 hv
  obtain ⟨w, he'⟩ := entry?_of_blank h.blank.symm he
  obtain ⟨e', he₁, hev'⟩ := value?_eq_some_iff.1 (h.kept hv)
  rw [he', Option.some.injEq] at he₁
  subst he₁
  rw [he, he']
  cases e
  simp_all

/-- A context over evaluated elements is a context for good. -/
theorem Grows.isContext {c : Context} (h : r.Grows r') (hbelow : ∀ x, r.DependsOn id x → r.Grounded x)
    (hc : r.IsContext id c) : r'.IsContext id c := by
  refine hc.frame (dependenciesOf_congr h.blank id) fun x hx => ?_
  obtain ⟨v, hv⟩ := (grounded_of_below hbelow hx).value
  exact h.entry?_eq hv

/-- How a call goes wrong that ends an evaluation. -/
inductive Call.EndsWith (scheduler : Scheduler) (c : Call) : BuildError → Prop
  | refused (sync : scheduler = .sync) (isAsync : c.effect.isAsync = true) : c.EndsWith scheduler (.asyncEffect c.id)
  | failed {failure : EvaluationError} (fails : c.effect.run scheduler = .error failure) :
      c.EndsWith scheduler (.ofEvaluation c.id failure)

theorem commit_eq_none {outcomes : List (CanonicalId × Outcome Value)} (h : r.commit outcomes = (none, r')) :
    ∀ p ∈ outcomes, ∃ v, p.2 = .ok v := by
  induction outcomes generalizing r with
  | nil => simp
  | cons p rest ih =>
      obtain ⟨id, e | v⟩ := p
      · cases h
      · exact List.forall_mem_cons.2 ⟨⟨v, rfl⟩, ih h⟩

/-- A commit stops at the first outcome that is a failure, with all before it stored. -/
theorem exists_of_commit_eq_some {outcomes : List (CanonicalId × Outcome Value)}
    (h : r.commit outcomes = (some b, r')) : ∃ pre id failure post,
      outcomes = pre ++ (id, .error failure) :: post ∧ (∀ p ∈ pre, ∃ v, p.2 = .ok v) ∧
        b = .ofEvaluation id failure ∧ r.commit pre = (none, r') := by
  induction outcomes generalizing r with
  | nil => cases h
  | cons p rest ih =>
      obtain ⟨id, failure | v⟩ := p
      · cases h
        exact ⟨[], id, failure, rest, rfl, by simp, rfl, rfl⟩
      · obtain ⟨pre, id', failure, post, rfl, hpre, hb, hcommit⟩ := ih h
        exact ⟨(id, .ok v) :: pre, id', failure, post, rfl, List.forall_mem_cons.2 ⟨⟨v, rfl⟩, hpre⟩, hb, hcommit⟩

theorem filter_append_readyOf_perm (r : Registry) (remaining : List CanonicalId) :
    (r.readyOf remaining ++ remaining.filter (· ∉ r.readyOf remaining)).Perm remaining := by
  have hfilter : remaining.filter (· ∉ r.readyOf remaining) =
      remaining.filter fun id => !(r.dependenciesOf id).all (· ∉ remaining) := by
    refine List.filter_congr fun id hid => Bool.eq_iff_iff.2 ?_
    simp [readyOf, hid]
  rw [hfilter]
  exact List.filter_append_perm _ _

/-- One level: a call of it goes wrong, or its values are stored and what was not next remains. -/
theorem commit_callLevel (scheduler : Scheduler) (hc : r.CoherentBy Effect.ComesTo) (hremains : r.Remains remaining) :
    let told := r.callLevel (r.readyOf remaining)
    match told.2.bind (run scheduler) with
    | .error b => ∃ c ∈ told.1, c.EndsWith scheduler b
    | .ok outcomes => outcomes.length = told.1.length ∧
        match r.commit outcomes with
        | (some b, r') => r.Grows r' ∧ ∃ c ∈ told.1, c.EndsWith scheduler b
        | (none, r') => r.Grows r' ∧ r'.CoherentBy Effect.ComesTo ∧
            r'.Remains (remaining.filter (· ∉ r.readyOf remaining)) ∧
              (scheduler = .sync → ∀ c ∈ told.1, c.effect.isAsync = false) := by
  have hlevel := hremains.level hc
  have hrun := run_callLevel scheduler hlevel
  intro told
  cases hbind : told.2.bind (run scheduler) with
  | error b =>
      rw [hbind] at hrun
      obtain ⟨c, hmem, hsync, hasync, rfl⟩ := hrun
      exact ⟨c, hmem, .refused hsync hasync⟩
  | ok outcomes =>
      rw [hbind] at hrun
      obtain ⟨houtcomes, hsync⟩ := hrun
      rw [snd_callLevel] at hbind
      obtain ⟨hids, hdue⟩ := dueBy_of_run hlevel hbind
      have hcommit := commit_spec outcomes hc (by rw [hids]; exact hremains.nodup.filter _) hdue
      refine ⟨by rw [houtcomes, List.length_map], ?_⟩
      rcases hr : r.commit outcomes with ⟨failure, r'⟩
      rw [hr] at hcommit
      obtain ⟨hc', hgrows, hvalues⟩ := hcommit
      cases failure with
      | none => exact ⟨hgrows, hc', hremains.next hgrows (fun x => hids ▸ hvalues x), hsync⟩
      | some b =>
          obtain ⟨pre, id, failure, post, hsplit, -, rfl, -⟩ := exists_of_commit_eq_some hr
          have hp : (id, .error failure) ∈ outcomes := by simp [hsplit]
          rw [houtcomes] at hp
          obtain ⟨c, hmem, heq⟩ := List.mem_map.1 hp
          obtain ⟨rfl, hfail⟩ := Prod.mk.inj heq
          exact ⟨hgrows, c, hmem, .failed hfail⟩

/-- Level after level: all calls are over what they need, and unless one of them goes wrong they are
those of all that remains. -/
theorem callLevels_spec (scheduler : Scheduler) (fuel : Nat) (remaining : List CanonicalId)
    (levels : List (List CanonicalId)) (count : Nat) (hlevels : r.levelsFrom fuel remaining = .ok levels)
    (hc : r.CoherentBy Effect.ComesTo) (hremains : r.Remains remaining) :
    let told := callLevels scheduler r count levels
    r.Grows told.2.2 ∧ (∀ c ∈ told.1, c.Ripe ∧ c.registry.Grows told.2.2) ∧
      match told.2.1 with
      | .ok n => (told.1.map (·.id)).Perm remaining ∧ n = count + told.1.length ∧
          (scheduler = .sync → ∀ c ∈ told.1, c.effect.isAsync = false)
      | .error b => ∃ c ∈ told.1, c.EndsWith scheduler b := by
  induction fuel generalizing r remaining levels count with
  | zero =>
      cases remaining with
      | nil =>
          cases hlevels
          exact ⟨.refl r, by simp [callLevels], .refl _, rfl, by simp [callLevels]⟩
      | cons a rest => cases hlevels
  | succ fuel ih =>
      by_cases hne : remaining = []
      · subst hne
        cases hlevels
        exact ⟨.refl r, by simp [callLevels], .refl _, rfl, by simp [callLevels]⟩
      rw [levelsFrom_succ hne] at hlevels
      split at hlevels
      · cases hlevels
      obtain ⟨rest, hrest, rfl⟩ := map_eq_ok_iff.1 hlevels
      obtain ⟨hids, -, hcalls⟩ := callLevel_spec (hremains.level hc)
      have hripe : ∀ {r'}, r.Grows r' → ∀ c ∈ (r.callLevel (r.readyOf remaining)).1,
          c.Ripe ∧ c.registry.Grows r' := by
        intro r' hgrows c hmem
        obtain ⟨heq, hripe⟩ := hcalls c hmem
        exact ⟨hripe, heq ▸ hgrows⟩
      have hstep := commit_callLevel scheduler hc hremains
      dsimp only at hstep
      rw [callLevels]
      generalize (r.callLevel (r.readyOf remaining)).2.bind (run scheduler) = outcome at hstep
      cases outcome with
      | error b => exact ⟨.refl r, hripe (.refl r), hstep⟩
      | ok outcomes =>
          obtain ⟨hlength, hstep⟩ := hstep
          rcases hr : r.commit outcomes with ⟨_ | b, r'⟩
          · simp only [hr] at hstep ⊢
            obtain ⟨hgrows, hc', hnext, hsync⟩ := hstep
            rw [← levelsFrom_congr (dependenciesOf_congr hgrows.blank)] at hrest
            obtain ⟨hgrows', hripe', hresult⟩ := ih _ rest (count + outcomes.length) hrest hc' hnext
            refine ⟨hgrows.trans hgrows', List.forall_mem_append.2 ⟨hripe (hgrows.trans hgrows'), hripe'⟩, ?_⟩
            cases hlast : (callLevels scheduler r' (count + outcomes.length) rest).2.1 with
            | error b =>
                rw [hlast] at hresult
                obtain ⟨c, hmem, hends⟩ := hresult
                exact ⟨c, List.mem_append_right _ hmem, hends⟩
            | ok n =>
                rw [hlast] at hresult
                obtain ⟨hperm, hn, hsync'⟩ := hresult
                refine ⟨?_, ?_, fun hs => List.forall_mem_append.2 ⟨hsync hs, hsync' hs⟩⟩
                · rw [List.map_append, hids]
                  exact (hperm.append_left _).trans (filter_append_readyOf_perm r remaining)
                · rw [hn, hlength, List.length_append, Nat.add_assoc]
          · simp only [hr] at hstep ⊢
            exact ⟨hstep.1, hripe hstep.1, hstep.2⟩

/-! ### What is told of a whole evaluation -/

/-- Why an evaluation fails: something is not registered, there is a loop, or a call goes wrong. -/
inductive Fails (scheduler : Scheduler) (r : Registry) (calls : List Call) : BuildError → Prop
  | missing {id x : CanonicalId} (pending : id ∈ r.pendingIds) (dependency : r.DependsOn id x)
      (unregistered : r.entry? x = none) :
      Fails scheduler r calls (.evaluationFailed id s!"depends on {x.text}, which is not registered")
  | circular {x : CanonicalId} (ids : List CanonicalId) (loop : TransGen r.DependsOn x x) :
      Fails scheduler r calls (.circularDependency ids)
  | ended {c : Call} {b : BuildError} (called : c ∈ calls) (ends : c.EndsWith scheduler b) :
      Fails scheduler r calls b

/-- An evaluation has gone through from one registry to another with these calls: each element that had
no value was called for, once, in the context that it has in the end, and has what came of it for its
value. -/
structure Completes (scheduler : Scheduler) (r r' : Registry) (calls : List Call) : Prop where
  evaluated : r'.Evaluated
  nodup : (calls.map (·.id)).Nodup
  mem_iff : ∀ {id}, id ∈ calls.map (·.id) ↔ (∃ e, r'.entry? id = some e) ∧ r.value? id = none
  below : ∀ c ∈ calls, ∀ x, TransGen r'.DependsOn c.id x →
    ∃ v, c.registry.value? x = some v ∧ r'.value? x = some v
  context : ∀ c ∈ calls, r'.IsContext c.id c.context
  value : ∀ c ∈ calls, ∃ e v, r'.entry? c.id = some e ∧ c.effect = e.factory c.context ∧
    c.effect.run scheduler = .ok v ∧ e.value = some v

theorem Call.Ripe.exists_value {c : Call} (h : c.Ripe) (hgrows : c.registry.Grows r)
    (hc : r.CoherentBy Effect.ComesTo) (hr : r.Evaluated) :
    ∃ e v, r.entry? c.id = some e ∧ c.effect = e.factory c.context ∧ c.effect.ComesTo (.ok v) ∧
      e.value = some v := by
  obtain ⟨e, he, heffect⟩ := h.effect
  obtain ⟨w, he'⟩ := entry?_of_blank hgrows.blank.symm he
  obtain ⟨v, hv⟩ := hr he'
  obtain ⟨e₁, c₁, he₁, hc₁, ho⟩ := hc.holds hv
  obtain ⟨e₂, he₂, hv₂⟩ := value?_eq_some_iff.1 hv
  rw [he', Option.some.injEq] at he₁ he₂
  subst he₁ he₂
  obtain rfl := (hgrows.isContext h.below h.context).unique hc₁
  exact ⟨_, v, he', heffect, heffect ▸ ho, hv₂⟩

theorem completes_of_calls {calls : List Call} (hgrows : r.Grows r') (hc : r'.CoherentBy Effect.ComesTo)
    (hr : r'.Evaluated) (hcalls : ∀ c ∈ calls, c.Ripe ∧ c.registry.Grows r')
    (hperm : (calls.map (·.id)).Perm r.pendingIds)
    (hsync : scheduler = .sync → ∀ c ∈ calls, c.effect.isAsync = false) :
    Completes scheduler r r' calls where
  evaluated := hr
  nodup := hperm.nodup_iff.2 (nodup_pendingIds r)
  mem_iff := by
    intro id
    rw [hperm.mem_iff, mem_pendingIds_iff, hgrows.exists_entry_iff]
  below := by
    intro c hmem x hx
    obtain ⟨hripe, hgrows'⟩ := hcalls c hmem
    rw [dependsOn_congr (dependenciesOf_congr hgrows'.blank)] at hx
    obtain ⟨v, hv⟩ := (grounded_of_below hripe.below hx).value
    exact ⟨v, hv, hgrows'.kept hv⟩
  context := by
    intro c hmem
    obtain ⟨hripe, hgrows'⟩ := hcalls c hmem
    exact hgrows'.isContext hripe.below hripe.context
  value := by
    intro c hmem
    obtain ⟨hripe, hgrows'⟩ := hcalls c hmem
    obtain ⟨e, v, he, heffect, ho, hv⟩ := hripe.exists_value hgrows' hc hr
    refine ⟨e, v, he, heffect, ?_, hv⟩
    cases scheduler with
    | async => exact ho
    | sync => rw [Effect.run_sync_eq (hsync rfl c hmem), ho]

theorem callPending_spec (scheduler : Scheduler) (hc : r.CoherentBy Effect.ComesTo) :
    let told := r.callPending scheduler
    match told.2.1 with
    | .ok n => Completes scheduler r told.2.2 told.1 ∧ n = told.1.length
    | .error b => Fails scheduler told.2.2 told.1 b := by
  cases hmissing : r.missing? with
  | some b =>
      simp only [callPending, levels, hmissing]
      obtain ⟨id, hid, hfirst⟩ := List.exists_of_findSome?_eq_some hmissing
      obtain ⟨x, hfind, rfl⟩ := Option.map_eq_some_iff.1 hfirst
      have hnone : r.entry? x = none := by simpa [contains] using List.find?_some hfind
      exact .missing hid (List.mem_of_find?_eq_some hfind) hnone
  | none =>
      cases hlevels : r.levelsFrom r.entries.size r.pendingIds with
      | error b =>
          simp only [callPending, levels, hmissing, hlevels]
          obtain ⟨ids, hne, -, hcircle⟩ := exists_circle_of_levelsFrom hlevels (length_pendingIds_le r)
          obtain ⟨a, ha⟩ := exists_loop hne hcircle
          obtain ⟨ids', rfl⟩ := levelsFrom_eq_error hlevels
          exact .circular ids' ha
      | ok levels =>
          simp only [callPending, Registry.levels, hmissing, hlevels]
          have hremains := remains_of_missing? hmissing
          obtain ⟨hgrows, hcalls, hresult⟩ :=
            callLevels_spec scheduler _ _ levels 0 hlevels hc hremains
          obtain ⟨hcoherent, -, hevaluated⟩ :=
            evaluateLevels_spec scheduler _ _ levels 0 hlevels hc hremains
          rw [← snd_callLevels] at hcoherent hevaluated
          generalize callLevels scheduler r 0 levels = told at *
          obtain ⟨calls, result, r'⟩ := told
          cases result with
          | error b =>
              obtain ⟨c, hmem, hends⟩ := hresult
              exact .ended hmem hends
          | ok n =>
              obtain ⟨hperm, hn, hsync⟩ := hresult
              refine ⟨completes_of_calls hgrows hcoherent @hevaluated hcalls hperm hsync, by simpa using hn⟩

/-! ### Evaluating in a state that can be reached -/

theorem evaluatePending_of_evaluated (h : r.Evaluated) (scheduler : Scheduler) :
    r.evaluatePending scheduler = (.ok 0, r) := by
  have hnone : r.pendingIds = [] := by
    refine List.eq_nil_iff_forall_not_mem.2 fun id hid => ?_
    obtain ⟨⟨e, he⟩, hv⟩ := mem_pendingIds_iff.1 hid
    obtain ⟨v, hv'⟩ := h he
    simp [hv] at hv'
  have hlevels : r.levels = .ok [] := by
    simp [levels, missing?, hnone, levelsFrom]
  simp only [evaluatePending, hlevels, evaluateLevels]

/-- A failure that says of a dependency that it has not been evaluated is a factory's own. -/
theorem Fails.of_notEvaluated {calls : List Call} (h : Fails scheduler r calls (notEvaluated id x)) :
    ∃ c ∈ calls, c.id = id ∧
      c.effect.run scheduler = .error (.failed s!"dependency {x.text} has not been evaluated") := by
  generalize hb : notEvaluated id x = b at h
  cases h with
  | missing pending dependency unregistered =>
      -- the two texts part at their seventh letter
      cases hb
  | circular ids loop => cases hb
  | ended called ends =>
      cases ends with
      | refused sync isAsync => cases hb
      | @failed failure fails =>
          cases failure with
          | failed message =>
              cases hb
              exact ⟨_, called, rfl, fails⟩
          | asyncInSync => cases hb

theorem Completes.adds {r₀ : Registry} {calls : List Call} (h : Completes scheduler r r' calls) (ha : r₀.Adds r) :
    Completes scheduler r₀ r' calls where
  evaluated := h.evaluated
  nodup := h.nodup
  mem_iff := by
    intro id
    rw [h.mem_iff, ha.value?_eq]
  below := h.below
  context := h.context
  value := h.value

/-- Whatever was done to a registry: an evaluation that goes through calls the factory of each element that
was pending, the newly registered ones included, once and no other, tells how many these were, and leaves
nothing to do for another one; if it fails then for a reason of the elements, and only a factory itself
can say that a dependency has not been evaluated. -/
theorem Reachable.evaluate_calls (h : Reachable r) (scheduler : Scheduler) :
    (evaluateRecorded scheduler r).2 = (evaluate scheduler).run.run r ∧
      (∀ n r', (evaluate scheduler).run.run r = (.ok (.ok n), r') →
        Completes scheduler r r' (evaluateRecorded scheduler r).1 ∧
          n = (evaluateRecorded scheduler r).1.length ∧
            ∀ scheduler', (evaluate scheduler').run.run r' = (.ok (.ok 0), r')) ∧
      ∀ b r', (evaluate scheduler).run.run r = (.ok (.error b), r') →
        Fails scheduler r' (evaluateRecorded scheduler r).1 b ∧
          ∀ id x, b = notEvaluated id x → ∃ c ∈ (evaluateRecorded scheduler r).1, c.id = id ∧
            c.effect.run scheduler = .error (.failed s!"dependency {x.text} has not been evaluated") := by
  have hrecorded : ∀ {result r'}, (evaluate scheduler).run.run r = (.ok result, r') → ∃ r₁, r.Adds r₁ ∧
      r₁.CoherentBy Effect.ComesTo ∧ (r₁.callPending scheduler).2 = (result, r') ∧
        (evaluateRecorded scheduler r).1 = (r₁.callPending scheduler).1 := by
    intro result r' hrun
    obtain ⟨⟨n, r₁, hall, hadds, hc, hpending⟩, -⟩ := exists_of_run_evaluate h.coherent hrun
    refine ⟨r₁, hadds, hc, by rw [snd_callPending, hpending], ?_⟩
    rw [evaluateRecorded, hall]
  refine ⟨snd_evaluateRecorded scheduler r, fun n r' hrun => ?_, fun b r' hrun => ?_⟩
  · obtain ⟨r₁, hadds, hc, hresult, hcalls⟩ := hrecorded hrun
    have hspec := callPending_spec scheduler hc
    simp only [hresult] at hspec
    obtain ⟨hcompletes, hn⟩ := hspec
    rw [hcalls]
    refine ⟨hcompletes.adds hadds, hn, fun scheduler' => ?_⟩
    rw [evaluate_of_not_awaits (exists_of_run_evaluate h.coherent hrun).2,
      evaluatePending_of_evaluated hcompletes.evaluated]
  · obtain ⟨r₁, hadds, hc, hresult, hcalls⟩ := hrecorded hrun
    have hspec := callPending_spec scheduler hc
    simp only [hresult] at hspec
    rw [hcalls]
    refine ⟨hspec, fun id x hb => ?_⟩
    subst hb
    exact hspec.of_notEvaluated

/-- The lowest of four elements is evaluated before the others are there. -/
def diamond : Registry :=
  runOperations [.command (.install (tally "/a" "A" [] [])), .command (.evaluate .async),
    .command (.install (tally "/b" "B" ["/c"] [⟨"A"⟩])), .command (.install (tally "/c" "C" ["/b"] [⟨"A"⟩])),
    .add "/d" ⟨⟨"D"⟩, .define, [⟨"C"⟩, ⟨"B"⟩], fun c => .pure (.define (.nat c.transitive.size))⟩] .empty

/-- The others are called for, and the highest one is shown the lowest once. -/
theorem calls_diamond :
    (evaluateRecorded .sync diamond).1.map (fun c =>
        (c.id.text, c.context.dependencies.map (·.1.text), c.context.transitive.keys)) =
      [("B", ["A"], ["A"]), ("C", ["A"], ["A"]), ("D", ["C", "B"], ["A", "B", "C"])] ∧
      Completes .sync diamond ((evaluate .sync).run.run diamond).2 (evaluateRecorded .sync diamond).1 := by
  have hspec := Reachable.evaluate_calls (.runOperations _ .empty : Reachable diamond) .sync
  exact ⟨by decide +kernel, (hspec.2.1 3 _ (Prod.ext (by decide +kernel) rfl)).1⟩

end StaticGql.Registry
