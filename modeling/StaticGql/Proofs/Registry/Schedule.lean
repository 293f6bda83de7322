import Mathlib.Data.Fintype.Pigeonhole
import Mathlib.Data.Set.Finite.List
import StaticGql.Proofs.Graph.Check
import StaticGql.Proofs.Registry.Elements

/-!
When evaluating refuses a circle. It goes by all dependencies, whereas the check of a graph follows
compositions alone, so a graph that has passed may be refused still: if a loop of references runs through
a declaration that is not composed, and only then.
-/

namespace StaticGql

namespace Registry

open Relation

variable {r : Registry} {id x : CanonicalId} {scheduler : Scheduler} {b : BuildError}

/-! ### Circles and loops -/

/-- A loop comes up among what an element depends on, or the element is on one. -/
def RunsIntoLoop (r : Registry) (id : CanonicalId) : Prop :=
  ∃ a, ReflTransGen r.DependsOn id a ∧ TransGen r.DependsOn a a

theorem RunsIntoLoop.of_loop (h : TransGen r.DependsOn x x) : r.RunsIntoLoop x := ⟨x, .refl, h⟩

/-- Going on from one of finitely many elements that each depend on another, one comes by some element
twice. -/
theorem runsIntoLoop_of_mem {ids : List CanonicalId} (h : ∀ id ∈ ids, ∃ x ∈ ids, r.DependsOn id x)
    (hid : id ∈ ids) : r.RunsIntoLoop id := by
  choose next hnext hdepends using h
  let go : { a // a ∈ ids } → { a // a ∈ ids } := fun a => ⟨next a a.2, hnext a a.2⟩
  have hstep : ∀ a, r.DependsOn a.1 (go a).1 := fun a => hdepends a a.2
  have hsteps : ∀ n a, TransGen r.DependsOn a.1 (go^[n + 1] a).1 := by
    intro n
    induction n with
    | zero => exact fun a => .single (hstep a)
    | succ n ih =>
        intro a
        rw [Function.iterate_succ_apply]
        exact .head (hstep a) (ih (go a))
  have : Finite { a // a ∈ ids } := ids.finite_toSet.to_subtype
  obtain ⟨m, n, hne, heq⟩ := Finite.exists_ne_map_eq_of_infinite fun n => go^[n + 1] ⟨id, hid⟩
  wlog hlt : m < n generalizing m n
  · exact this n m hne.symm heq.symm (by omega)
  have hback : go^[n - m - 1 + 1] (go^[m + 1] ⟨id, hid⟩) = go^[m + 1] ⟨id, hid⟩ := by
    rw [← Function.iterate_add_apply, show n - m - 1 + 1 + (m + 1) = n + 1 by omega]
    exact heq.symm
  refine ⟨(go^[m + 1] ⟨id, hid⟩).1, (hsteps m ⟨id, hid⟩).to_reflTransGen, ?_⟩
  have hloop := hsteps (n - m - 1) (go^[m + 1] ⟨id, hid⟩)
  rwa [hback] at hloop

/-- Among finitely many elements that each depend on another there is a loop. -/
theorem exists_loop {ids : List CanonicalId} (hne : ids ≠ [])
    (h : ∀ id ∈ ids, ∃ x ∈ ids, r.DependsOn id x) : ∃ a, TransGen r.DependsOn a a := by
  obtain ⟨id, hid⟩ := List.exists_mem_of_ne_nil ids hne
  obtain ⟨a, -, ha⟩ := runsIntoLoop_of_mem h hid
  exact ⟨a, ha⟩

/-- Elements of a loop never come to the front. -/
theorem not_loop_of_levelsFrom {fuel : Nat} {remaining : List CanonicalId}
    {levels : List (List CanonicalId)} (h : r.levelsFrom fuel remaining = .ok levels)
    (hloops : ∀ x, TransGen r.DependsOn x x → x ∈ remaining) (x : CanonicalId) :
    ¬ TransGen r.DependsOn x x := by
  induction fuel generalizing remaining levels with
  | zero =>
      cases remaining with
      | nil => exact fun hx => List.not_mem_nil (hloops x hx)
      | cons a rest => cases h
  | succ fuel ih =>
      by_cases hne : remaining = []
      · subst hne
        exact fun hx => List.not_mem_nil (hloops x hx)
      rw [levelsFrom_succ hne] at h
      split at h
      · cases h
      · obtain ⟨rest, hrest, -⟩ := map_eq_ok_iff.1 h
        refine ih hrest fun y hy => List.mem_filter.2 ⟨hloops y hy, ?_⟩
        obtain ⟨z, hz, hzy⟩ := TransGen.head'_iff.1 hy
        have hloop : TransGen r.DependsOn z z := TransGen.trans_right hzy (.single hz)
        simpa using fun hready : y ∈ r.readyOf remaining =>
          (mem_readyOf_iff.1 hready).2 z hz (hloops z hloop)

theorem levelsFrom_eq_error {fuel : Nat} {remaining : List CanonicalId}
    (h : r.levelsFrom fuel remaining = .error b) : ∃ ids, b = .circularDependency ids := by
  induction fuel generalizing remaining with
  | zero =>
      cases remaining with
      | nil => cases h
      | cons a rest =>
          cases h
          exact ⟨_, rfl⟩
  | succ fuel ih =>
      by_cases hne : remaining = []
      · subst hne
        cases h
      rw [levelsFrom_succ hne] at h
      split at h
      · cases h
        exact ⟨_, rfl⟩
      · cases hrest : r.levelsFrom fuel (remaining.filter (· ∉ r.readyOf remaining)) with
        | ok levels =>
            rw [hrest] at h
            cases h
        | error b' =>
            rw [hrest] at h
            cases h
            exact ih hrest

/-! ### What evaluating refuses -/

theorem StopsAt.ne_circular (h : StopsAt scheduler r b) (ids : List CanonicalId) :
    b ≠ .circularDependency ids := by
  cases h with
  | failing failure _ told =>
      rw [told]
      cases failure <;> simp [BuildError.ofEvaluation]
  | refused isLevel refusal =>
      obtain ⟨effects, heffects⟩ := exists_effects isLevel
      rw [heffects] at refusal
      simp only [Except.bind, run_eq] at refusal
      split at refusal
      · cases refusal
        simp
      · cases refusal

theorem exists_loop_of_circular (hc : r.CoherentBy Effect.ComesTo) {ids : List CanonicalId}
    (h : (r.evaluatePending scheduler).1 = .error (.circularDependency ids)) :
    ∃ a, TransGen r.DependsOn a a := by
  rw [evaluatePending, levels] at h
  cases hmissing : r.missing? with
  | some b =>
      simp only [hmissing] at h
      cases h
      obtain ⟨id, -, hx⟩ := List.exists_of_findSome?_eq_some hmissing
      obtain ⟨x, -, hx⟩ := Option.map_eq_some_iff.1 hx
      cases hx
  | none =>
      simp only [hmissing] at h
      cases hlevels : r.levelsFrom r.entries.size r.pendingIds with
      | error b =>
          obtain ⟨ids, hne, -, hcircle⟩ := exists_circle_of_levelsFrom hlevels (length_pendingIds_le r)
          exact exists_loop hne hcircle
      | ok levels =>
          simp only [hlevels] at h
          obtain ⟨-, -, hresult⟩ :=
            evaluateLevels_spec scheduler _ _ levels 0 hlevels hc (remains_of_missing? hmissing)
          rw [h] at hresult
          exact absurd rfl (hresult.ne_circular ids)

theorem circular_of_loop (hc : r.CoherentBy Effect.ComesTo)
    (hregistered : ∀ {id x}, r.DependsOn id x → ∃ e, r.entry? x = some e)
    (hx : TransGen r.DependsOn x x) :
    ∃ ids, (r.evaluatePending scheduler).1 = .error (.circularDependency ids) := by
  have hmissing : r.missing? = none := by
    rw [missing?, List.findSome?_eq_none_iff]
    intro id _
    rw [Option.map_eq_none_iff, List.find?_eq_none]
    intro x hx
    obtain ⟨e, he⟩ := hregistered hx
    simp [contains, he]
  have hloops : ∀ x, TransGen r.DependsOn x x → x ∈ r.pendingIds := by
    intro x hx
    obtain ⟨y, hy, -⟩ := TransGen.head'_iff.1 hx
    obtain ⟨e, he, -⟩ := hy.exists_entry
    refine mem_pendingIds_iff.2 ⟨⟨e, he⟩, ?_⟩
    cases hv : r.value? x with
    | none => rfl
    | some v => exact absurd hx (hc.grounded hv).not_loop
  simp only [evaluatePending, levels, hmissing]
  cases hlevels : r.levelsFrom r.entries.size r.pendingIds with
  | ok levels => exact absurd hx (not_loop_of_levelsFrom hlevels hloops x)
  | error b =>
      obtain ⟨ids, rfl⟩ := levelsFrom_eq_error hlevels
      exact ⟨ids, rfl⟩

/-! ### Declarations registered by themselves -/

/-- A registry with the declarations of a graph for its elements. -/
structure Mirrors (r : Registry) (g : Graph) : Prop where
  dependencies : ∀ id, r.dependenciesOf id = g.dependencies id
  registered : ∀ {id d}, g.get? id = some d → ∃ e, r.entry? id = some e

theorem Mirrors.dependsOn {g : Graph} (h : r.Mirrors g) : r.DependsOn = g.Refers := by
  funext x y
  rw [DependsOn, Graph.Refers, h.dependencies]

/-- The declarations of a graph registered, with nothing evaluated. -/
theorem addDeclarations_spec {g : Graph} (hg : g.Keyed) :
    Step.Ensures (addDeclarations g.toList) empty fun _ r =>
      r.modules = ∅ ∧ r.Mirrors g ∧ ∀ id, r.value? id = none := by
  have hnew : ∀ d ∈ g.toList, Registry.entry? empty d.definition.id = none := fun _ _ => rfl
  refine (addAll_spec (·.definition) g.toList (Graph.nodup_ids hg) hnew).mono fun _ r h => ?_
  obtain ⟨hmodules, hself, hothers⟩ := h
  have hdeclared : ∀ {id d}, g.get? id = some d → r.entry? id = some (entryOf d.file d.definition) := by
    intro id d hd
    obtain rfl := hg.id_of_get? hd
    exact hself d (hg.mem_toList_iff.2 hd)
  have hnone : ∀ {id}, g.get? id = none → r.entry? id = none := by
    intro id hid
    refine hothers id fun hmem => ?_
    obtain ⟨d, hd, rfl⟩ := List.mem_map.1 hmem
    have hsome : g.get? d.id = none := hid
    simp [hg.mem_toList_iff.1 hd] at hsome
  refine ⟨hmodules, ⟨fun id => ?_, fun hd => ⟨_, hdeclared hd⟩⟩, fun id => ?_⟩
  · rw [dependenciesOf, Graph.dependencies]
    cases hd : g.get? id with
    | none => rw [hnone hd]; rfl
    | some d => rw [hdeclared hd]; rfl
  · rw [value?]
    cases hd : g.get? id with
    | none => rw [hnone hd]; rfl
    | some d => rw [hdeclared hd]; rfl

end Registry

namespace Graph

open Relation

variable {g : Graph} {mode : IdMode} {analyses : Dict Analysis} {onDisk : String → Bool}

/-- Declarations registered by themselves are refused for a circle where their references run in a
loop. -/
theorem evaluate_circular_iff (hg : build mode analyses onDisk = .ok g) (scheduler : Scheduler) :
    (∃ ids, g.evaluate scheduler = .error (.circularDependency ids)) ↔ ∃ a, TransGen g.Refers a a := by
  have hevaluate : Registry.Step.Ensures (Registry.evaluateDeclarations scheduler g.toList) .empty
      fun result _ => ∃ r : Registry, r.Mirrors g ∧ (∀ id, r.value? id = none) ∧
        result = (r.evaluatePending scheduler).1 := by
    refine .bind (Registry.addDeclarations_spec (keyed_of_build hg)) fun _ r h => ?_
    exact ⟨_, _, Registry.evaluate_of_no_modules scheduler h.1, r, h.2.1, h.2.2, rfl⟩
  obtain ⟨_, r', hrun, r, hmirrors, hvalue, rfl⟩ := hevaluate
  have hresult : ∀ ids, g.evaluate scheduler = .error (.circularDependency ids) ↔
      (r.evaluatePending scheduler).1 = .error (.circularDependency ids) := by
    intro ids
    rw [evaluate, hrun]
    cases (r.evaluatePending scheduler).1 <;> simp
  have hc : r.CoherentBy Effect.ComesTo :=
    ⟨fun hv => by simp [hvalue] at hv, fun hv => by simp [hvalue] at hv⟩
  simp only [hresult]
  rw [← hmirrors.dependsOn]
  constructor
  · rintro ⟨ids, h⟩
    exact Registry.exists_loop_of_circular hc h
  · rintro ⟨a, ha⟩
    refine Registry.circular_of_loop hc (fun {id x} hx => ?_) ha
    rw [hmirrors.dependsOn] at hx
    obtain ⟨d, hd⟩ := hx.exists_right hg
    exact hmirrors.registered hd

end Graph

/-! ### Modules brought to a registry -/

namespace Registry

open Relation

variable {mode : IdMode} {p : Project mode} {modules : Dict ModuleDefinition}

/-- What the elements of a project's modules depend on is what its declarations refer to. -/
theorem Registered.refers {r : Registry} {id x : CanonicalId} (hp : IsProject (IsOne modules) modules)
    (h : p.modules = .ok modules) (hr : Registered (IsOne modules) modules r) (hx : r.DependsOn id x) :
    p.graph.Refers id x := by
  obtain ⟨e, he, hmem⟩ := hx.exists_entry
  obtain ⟨m, d, hm, -, hd, rfl, hentry⟩ := hr.settled.filed.entry he
  have hU := told_isOne hp.file (Project.static_of_modules h)
  obtain ⟨D, hD, halike⟩ := hr.exists_definition hU hp hm
  obtain ⟨f, hf, hdf⟩ := exists_of_forall₂ halike hd
  obtain ⟨-, file, a, -, hD⟩ := ModuleDefinition.get?_ofAnalyses h hD
  obtain ⟨-, -, helements, -⟩ := ModuleDefinition.ofAnalysis_spec hD
  rw [helements] at hf
  obtain ⟨d', hd', rfl⟩ := List.mem_map.1 hf
  have hkeyed := Graph.keyed_of_build p.built
  have hget : p.graph.get? d'.id = some d' :=
    hkeyed.mem_toList_iff.1 (Dict.mem_values_iff.2 (Graph.mem_declarationsIn.1 hd').1)
  have hdependencies : e.dependencies = d'.references :=
    (congrArg Entry.dependencies hentry).trans hdf.dependencies
  have hid : d.id = d'.id := hdf.id
  rw [Graph.Refers, Graph.dependencies, hid, hget, Option.map_some, Option.getD_some, ← hdependencies]
  exact hmem

end Registry

namespace Session

open Relation

variable {mode : IdMode}

/-- A session without a history refuses a project for a circle only where references run in a loop. -/
theorem exists_loop_of_take (s : Session) (p : Project mode) (scheduler : Scheduler)
    {ids : List CanonicalId} (h : ({ s with registry := .empty }.take scheduler p).1 =
      .error (.build (.circularDependency ids))) : ∃ a, TransGen p.graph.Refers a a := by
  rw [take] at h
  cases hm : p.modules with
  | error e => simp [hm] at h
  | ok modules =>
      have hp : Registry.IsProject (Registry.IsOne modules) modules := by
        have hproject := p.isProject (fun _ hm => hm) hm
        exact ⟨fun hm => ⟨_, hm⟩, hproject.file, hproject.nodup, hproject.apart⟩
      have hU := Registry.told_isOne hp.file (Project.static_of_modules hm)
      obtain ⟨r, hr, hbring⟩ := Registry.bring_eq scheduler hU hp (.empty _)
      have hc := (hr.static hU hp).coherent_iff.1 hr.settled.coherent
      have hresult : (r.evaluatePending scheduler).1 = .error (.circularDependency ids) := by
        simp only [hm, evaluate] at h
        rw [Registry.bring] at hbring
        rw [hbring] at h
        cases hr : (r.evaluatePending scheduler).1 with
        | ok n => simp [hr] at h
        | error b => simpa [hr] using h
      obtain ⟨a, ha⟩ := Registry.exists_loop_of_circular hc hresult
      exact ⟨a, TransGen.mono (fun _ _ hx => hr.refers hp hm hx) _ _ ha⟩

end Session

namespace Project

open Relation

variable {mode : IdMode}

/-- A graph that has been built and has passed its check is refused for a circle, where its declarations
are evaluated, exactly if a loop of references runs through a declaration that is not composed; as a
project of a new session it is refused so only in that case. -/
theorem circular_iff (p : Project mode) (scheduler : Scheduler) :
    ((∃ ids, p.graph.evaluate scheduler = .error (.circularDependency ids)) ↔ p.graph.LoopsOutside) ∧
      ∀ s : Session, (∃ ids, ({ s with registry := .empty }.take scheduler p).1 =
        .error (.build (.circularDependency ids))) → p.graph.LoopsOutside := by
  have hloop : ∀ {a}, TransGen p.graph.Refers a a → p.graph.LoopsOutside :=
    Graph.loopsOutside_of_check (Graph.keyed_of_build p.built) p.checked
  refine ⟨?_, fun s ⟨ids, h⟩ => ?_⟩
  · rw [Graph.evaluate_circular_iff p.built]
    constructor
    · rintro ⟨a, ha⟩
      exact hloop ha
    · rintro ⟨a, -, -, -, ha⟩
      exact ⟨a, ha⟩
  · obtain ⟨a, ha⟩ := s.exists_loop_of_take p scheduler h
    exact hloop ha

/-- A query and a slice that refer to each other. -/
def mutualAnalyses : Dict Analysis :=
  .ofList [("/a.ts", ⟨"/a.ts", [], [],
    [⟨"Q", .operation, ⟨["query", "operation"], none, some "query", [("name", .str "Q")]⟩, ["S"], true,
        none, ⟨0, 1, 1, 1⟩⟩,
      ⟨"S", .slice, ⟨["query", "slice"], none, some "query", []⟩, ["Q"], true, none, ⟨2, 3, 1, 3⟩⟩],
    []⟩)]

theorem check_mutualAnalyses :
    ((Graph.build .absolute mutualAnalyses fun _ => false).bind Graph.check).isOk = true := by
  decide +kernel

def mutualProject : Project .absolute where
  analyses := mutualAnalyses
  onDisk _ := false
  graph := _
  built := (Session.eq_ok_of_isOk check_mutualAnalyses).1
  checked := (Session.eq_ok_of_isOk check_mutualAnalyses).2

/-- Passing the check is not enough. -/
theorem circular_mutualProject : ¬ ∀ (p : Project .absolute) (scheduler : Scheduler) (ids : List CanonicalId),
    p.graph.evaluate scheduler ≠ .error (.circularDependency ids) := by
  intro h
  have hquery : mutualProject.graph.Refers ⟨"/a.ts::Q"⟩ ⟨"/a.ts::S"⟩ := by
    show _ ∈ _
    decide +kernel
  have hslice : mutualProject.graph.Refers ⟨"/a.ts::S"⟩ ⟨"/a.ts::Q"⟩ := by
    show _ ∈ _
    decide +kernel
  obtain ⟨ids, hids⟩ :=
    (Graph.evaluate_circular_iff mutualProject.built .sync).2 ⟨_, .tail (.single hquery) hslice⟩
  exact h mutualProject .sync ids hids

end Project
end StaticGql
