import StaticGql.Proofs.Registry.Schedulers

/-!
The states that a registry can be brought into, those included that an operation leaves where it stops
halfway. All values hold in each of them, and once everything has been registered there is nothing left
to register.
-/

namespace StaticGql.Registry

variable {r r' : Registry} {id : CanonicalId} {file : String} {m : Module} {scheduler : Scheduler}

/-! ### Operations -/

/-- Whatever may be done to a registry, also without a module. -/
inductive Operation where
  | command (c : Command)
  | add (file : String) (d : Definition)

def Operation.run : Operation → Step Unit
  | command c => c.run
  | add file d => Registry.add file d

inductive Reachable : Registry → Prop
  | empty : Reachable empty
  /-- An operation that stops at an id added twice leaves what it has done up to there. -/
  | operation {r : Registry} (h : Reachable r) (o : Operation) : Reachable (o.run.run.run r).2

/-- Operations one after the other, also past one that has stopped. -/
def runOperations (l : List Operation) (r : Registry) : Registry := l.foldl (fun r o => (o.run.run.run r).2) r

theorem Reachable.runOperations (l : List Operation) (h : Reachable r) : Reachable (runOperations l r) := by
  induction l generalizing r with
  | nil => exact h
  | cons o rest ih => exact ih (h.operation o)

theorem lasting_adds (r : Registry) : Lasting (fun _ => True) r.Adds where
  element _ _ _ := trivial
  withModule _ _ _ h := ⟨h.kept, h.fresh⟩
  withEntry {r' d} file _ hnew h := by
    have hentry : ∀ id, Registry.entry? { r' with entries := r'.entries.insert d.id.text (entryOf file d) } id =
        if d.id.text = id.text then some (entryOf file d) else r'.entry? id :=
      fun id => Dict.get?_insert _ _ _ _
    constructor
    · intro id e he
      rw [hentry, if_neg, h.kept he]
      intro hid
      have hsame : r'.entry? d.id = r'.entry? id := by rw [Registry.entry?, hid, Registry.entry?]
      simp [hsame, h.kept he] at hnew
    · intro id e he
      rw [hentry] at he
      split at he
      · cases he
        exact .inr rfl
      · exact h.fresh he

theorem Step.leaves_of_adds {α : Type} {x : Step α} {P : Effect Value → Outcome Value → Prop}
    (hx : Leaves x r r.Adds) (h : r.CoherentBy P) : Leaves x r (CoherentBy P) :=
  h.adds hx

theorem Command.run_coherentBy (c : Command) (h : r.CoherentBy Effect.ComesTo) :
    Step.Leaves c.run r (CoherentBy Effect.ComesTo) := by
  have hadds := lasting_adds r
  have hr := Adds.refl r
  cases c with
  | install d => exact h.install d
  | remove file => exact h.dropModule file
  | exports file => exact Step.leaves_of_adds (hadds.exports? file hr).discard h
  | registerAll => exact Step.leaves_of_adds (hadds.registerAll hr).discard h
  | invalidate ids => exact h.invalidate ids
  | evaluate scheduler =>
      refine .discard (.bind (Step.leaves_of_adds (hadds.registerAll hr).discard h) fun _ r₁ _ h₁ => ?_)
      exact .get_bind (evaluatePending_coherentBy scheduler h₁).1
  | clear => exact ⟨nofun, nofun⟩

/-- Values are what the factories of their elements come to, over other values, in every state. -/
theorem Reachable.coherent (h : Reachable r) : r.CoherentBy Effect.ComesTo := by
  induction h with
  | empty => exact ⟨nofun, nofun⟩
  | @operation r _ o ih =>
      cases o with
      | command c => exact c.run_coherentBy ih
      | add file d => exact Step.leaves_of_adds ((lasting_adds r).add trivial file (.refl r)) ih

/-! ### Nothing left to register -/

/-- Whether a module is there that is still to be registered. -/
def Awaits (r : Registry) (file : String) : Prop := r.moduleState? file = some .unregistered

theorem lasting_not_awaits (file : String) : Lasting (fun _ => True) fun r => ¬ r.Awaits file where
  element _ _ _ := trivial
  withModule {r f} file' _ hf h hawaits := by
    obtain ⟨m, hm, hs⟩ := Option.map_eq_some_iff.1 hawaits
    rw [get?_withModule] at hm
    split at hm
    · obtain ⟨m₀, hm₀, rfl⟩ := Option.map_eq_some_iff.1 hm
      exact h (Option.map_eq_some_iff.2 ⟨m₀, hm₀, hf m₀ hs⟩)
    · exact h (Option.map_eq_some_iff.2 ⟨m, hm, hs⟩)
  withEntry _ _ _ h := h

theorem not_awaits_of_registerModule (fuel : Nat) (file : String) (r : Registry) :
    Step.Leads (registerModule (fuel + 1) file) r fun _ r' => ¬ r'.Awaits file := by
  rw [registerModule]
  refine (moduleIn?_spec r file).leads.bind ?_
  rintro _ r ⟨rfl, rfl⟩
  split
  · intro _ _ hrun hawaits
    obtain ⟨_, _, -, hrun⟩ := Step.run_bind_eq_ok hrun
    obtain ⟨_, _, -, hrun⟩ := Step.run_bind_eq_ok hrun
    obtain ⟨_, r₁, -, hrun⟩ := Step.run_bind_eq_ok hrun
    cases hrun
    obtain ⟨m, hm, hs⟩ := Option.map_eq_some_iff.1 hawaits
    have hm' : ((r₁.withModule file fun m => { m with state := .registered }).withModule file fun m =>
        { m with registrations := m.registrations + 1 }).modules.get? file = some m := hm
    rw [get?_withModule, if_pos rfl, get?_withModule, if_pos rfl, Option.map_map] at hm'
    obtain ⟨m₀, -, rfl⟩ := Option.map_eq_some_iff.1 hm'
    cases hs
  · rename_i hnot
    refine .pure fun hawaits => ?_
    obtain ⟨⟨d, state, n⟩, hm, rfl⟩ := Option.map_eq_some_iff.1 hawaits
    exact hnot d n hm

theorem not_awaits_of_registerNew (count : Nat) (file : String) (r : Registry) :
    Step.Leads (registerNew count file) r fun _ r' => ¬ r'.Awaits file := by
  refine .bind (P := fun a r' => a = r ∧ r' = r) (.get ⟨rfl, rfl⟩) ?_
  rintro _ r ⟨rfl, rfl⟩
  split
  · refine .bind (.bind (P := fun a r' => a = r ∧ r' = r) (.get ⟨rfl, rfl⟩) ?_) fun _ _ h => .pure h
    rintro _ r ⟨rfl, rfl⟩
    exact not_awaits_of_registerModule _ file r
  · rename_i hstate
    exact .pure hstate

/-- Registering everything, where it goes through, leaves no module behind. -/
theorem not_awaits_of_registerAll (r : Registry) :
    Step.Leads registerAll r fun _ r' => ∀ file, ¬ r'.Awaits file := by
  have hfold : ∀ (l : List String) (count : Nat) (r₁ : Registry),
      Step.Leads (l.foldlM registerNew count) r₁ fun _ r' => ∀ file ∈ l, ¬ r'.Awaits file := by
    intro l
    induction l with
    | nil => exact fun _ _ => .pure (by simp)
    | cons file rest ih =>
        intro count r₁ n r' hrun
        rw [List.foldlM_cons] at hrun
        obtain ⟨n₁, r₂, hfile, hrest⟩ := Step.run_bind_eq_ok hrun
        refine List.forall_mem_cons.2 ⟨?_, ih n₁ r₂ n r' hrest⟩
        have hlasts : Step.Leaves (rest.foldlM registerNew n₁) r₂ fun r => ¬ r.Awaits file :=
          Step.Leaves.foldlM (not_awaits_of_registerNew count file r₁ n₁ r₂ hfile) fun count file' _ h =>
            (lasting_not_awaits file).registerNew count file' h
        rwa [Step.Leaves, hrest] at hlasts
  intro n r' hrun file
  by_cases hfile : file ∈ r.modules.keys
  · exact hfold r.modules.keys 0 r n r' hrun file hfile
  · have hlasts := (lasting_not_awaits file).registerAll (r := r) fun hawaits => by
      obtain ⟨m, hm, -⟩ := Option.map_eq_some_iff.1 hawaits
      simp [Dict.mem_keys_iff, hm] at hfile
    rwa [Step.Leaves, hrun] at hlasts

theorem registerAll_of_not_awaits (h : ∀ file, ¬ r.Awaits file) : registerAll.run.run r = (.ok 0, r) := by
  have hfold : ∀ l : List String, (l.foldlM registerNew 0).run.run r = (.ok 0, r) := by
    intro l
    induction l with
    | nil => rfl
    | cons file rest ih =>
        have hfile : (registerNew 0 file).run.run r = (.ok 0, r) := by
          show ((if r.moduleState? file = some .unregistered then _ else _ : Step Nat)).run.run r = _
          rw [if_neg (show ¬ r.moduleState? file = _ from h file)]
          rfl
        rw [List.foldlM_cons, ExceptT.run_bind, StateT.run_bind, hfile]
        exact ih
  exact hfold r.modules.keys

theorem evaluate_of_not_awaits (h : ∀ file, ¬ r.Awaits file) (scheduler : Scheduler) :
    (evaluate scheduler).run.run r =
      (.ok (r.evaluatePending scheduler).1, (r.evaluatePending scheduler).2) := by
  rw [run_evaluate, registerAll_of_not_awaits h]

/-- An evaluation that does not stop at an id added twice registers what is left, and evaluates what is
pending then. Another one after it finds nothing left to register. -/
theorem exists_of_run_evaluate (h : r.CoherentBy Effect.ComesTo) {result : Build Nat}
    (hrun : (evaluate scheduler).run.run r = (.ok result, r')) :
    (∃ n r₁, registerAll.run.run r = (.ok n, r₁) ∧ r.Adds r₁ ∧ r₁.CoherentBy Effect.ComesTo ∧
      r₁.evaluatePending scheduler = (result, r')) ∧ ∀ file, ¬ r'.Awaits file := by
  rw [run_evaluate] at hrun
  rcases hall : registerAll.run.run r with ⟨twice | n, r₁⟩
  · rw [hall] at hrun
    cases hrun
  · rw [hall] at hrun
    cases hrun
    have hadds := (lasting_adds r).registerAll (.refl r)
    rw [Step.Leaves, hall] at hadds
    refine ⟨⟨n, r₁, rfl, hadds, h.adds hadds, rfl⟩, fun file => ?_⟩
    have hnone := not_awaits_of_registerAll r n r₁ hall file
    rwa [Awaits, moduleState?, modules_of_blank (blank_evaluatePending r₁)]

end StaticGql.Registry
