import StaticGql.BuildError
import StaticGql.Value

/-!
The registry of a build: modules, each with the elements that it adds when it is registered, and
the values of the elements. Whatever an element depends on is evaluated before it, and an element
keeps its value until something that it depends on goes.
-/

namespace StaticGql

/-- An element that a module adds. -/
structure Definition where
  id : CanonicalId
  kind : Kind
  dependencies : List CanonicalId
  factory : Factory

structure ModuleDefinition where
  file : String
  /-- The files of imported modules. -/
  imports : List String
  exports : Dict CanonicalId
  elements : List Definition
  /-- What tells whether the module has changed. -/
  signature : String

inductive ModuleState where
  | unregistered
  /-- Its imports are being registered; a module that imports itself through others is in this
  state when it is reached again. -/
  | registering
  | registered
  deriving DecidableEq, Repr

namespace Registry

structure Module where
  definition : ModuleDefinition
  state : ModuleState
  /-- How often it was registered. -/
  registrations : Nat

structure Entry where
  kind : Kind
  file : String
  dependencies : List CanonicalId
  factory : Factory
  value : Option Value

def Entry.isPending (e : Entry) : Bool := e.value.isNone

end Registry

structure Registry where
  modules : Dict Registry.Module
  /-- By the texts of their ids. -/
  entries : Dict Registry.Entry

/-- An id that was to be added a second time. -/
structure RegisteredTwice where
  id : CanonicalId
  deriving DecidableEq, Repr

def RegisteredTwice.message (e : RegisteredTwice) : String :=
  s!"element {e.id.text} registered twice"

namespace Registry

def empty : Registry := ⟨∅, ∅⟩

variable (r : Registry)

def entry? (id : CanonicalId) : Option Entry := r.entries.get? id.text

def value? (id : CanonicalId) : Option Value := (r.entry? id).bind (·.value)

def contains (id : CanonicalId) : Bool := (r.entry? id).isSome

def moduleState? (file : String) : Option ModuleState := (r.modules.get? file).map (·.state)

def registrations (file : String) : Nat := ((r.modules.get? file).map (·.registrations)).getD 0

/-- The evaluated elements that belong into an artifact. -/
def elements : Dict Element :=
  .ofList (r.entries.toList.filterMap fun (id, e) =>
    if e.kind.producesElement then (e.value.bind (·.element?)).map fun v => (id, v) else none)

def evaluatedIds : List CanonicalId :=
  (r.entries.toList.filter fun (_, e) => !e.isPending).map fun (id, _) => ⟨id⟩

/-! ### Forgetting -/

/-- The ids of the elements that depend directly on one of `ids`. -/
def dependentsOf (ids : List CanonicalId) : List CanonicalId :=
  (r.entries.toList.filter fun (_, e) => e.dependencies.any (· ∈ ids)).map fun (id, _) => ⟨id⟩

/-- The ids with all that depend on them; each step but the last adds an element. -/
def affected : Nat → List CanonicalId → List CanonicalId
  | 0, ids => ids
  | fuel + 1, ids =>
    let more := (r.dependentsOf ids).filter (· ∉ ids)
    if more.isEmpty then ids else affected fuel (ids ++ more)

/-- Takes the values of `ids` and of all that depend on them away. The ids that are known come
back in order. -/
def invalidate (ids : List CanonicalId) : List CanonicalId × Registry :=
  let all := r.affected r.entries.size ids
  let known := r.entries.toList.filter fun (id, _) => ⟨id⟩ ∈ all
  (known.map fun (id, _) => ⟨id⟩,
    { r with entries := r.entries.map fun id e => if ⟨id⟩ ∈ all then { e with value := none } else e })

/-- The removed ids, those that were invalidated, and the registry without the module. -/
def dropModule (file : String) : List CanonicalId × List CanonicalId × Registry :=
  let removed := (r.entries.toList.filter fun (_, e) => e.file = file).map fun (id, _) => ⟨id⟩
  let r : Registry := ⟨r.modules.erase file, r.entries.filter fun _ e => e.file ≠ file⟩
  let (invalidated, r) := r.invalidate removed
  (removed, invalidated, r)

def removeModule (file : String) : List CanonicalId × Registry :=
  let (removed, _, r) := r.dropModule file
  (removed, r)

/-- A module in place of what was under its file; the ids that were invalidated come back. -/
def install (d : ModuleDefinition) : List CanonicalId × Registry :=
  let (invalidated, r) :=
    if r.modules.contains d.file then
      let (_, invalidated, r) := r.dropModule d.file
      (invalidated, r)
    else ([], r)
  (invalidated, { r with modules := r.modules.insert d.file ⟨d, .unregistered, 0⟩ })

/-! ### Registering -/

/-- A step that may stop at an id added twice; what was done up to there stays done. -/
abbrev Step (α : Type) := ExceptT RegisteredTwice (StateM Registry) α

def add (file : String) (d : Definition) : Step Unit := do
  let r ← get
  if r.contains d.id then throw ⟨d.id⟩
  set { r with entries := r.entries.insert d.id.text ⟨d.kind, file, d.dependencies, d.factory, none⟩ }

def setState (file : String) (state : ModuleState) : Step Unit :=
  modify fun r => { r with modules := r.modules.modify file fun m => { m with state } }

def countRegistration (file : String) : Step Unit :=
  modify fun r =>
    { r with modules := r.modules.modify file fun m =>
        { m with registrations := m.registrations + 1 } }

def moduleIn? (file : String) : Step (Option Module) := return (← get).modules.get? file

/-- Registers a module, its imports before it. One that is registered, or being registered, is
left alone, so no more modules than there are nest. -/
def registerModule : Nat → String → Step Unit
  | 0, _ => pure ()
  | fuel + 1, file => do
    match ← moduleIn? file with
    | some ⟨d, .unregistered, _⟩ =>
      setState file .registering
      d.imports.forM (registerModule fuel)
      d.elements.forM (add file)
      setState file .registered
      countRegistration file
    | _ => pure ()

def register (file : String) : Step Unit := do registerModule ((← get).modules.size + 1) file

/-- The exports of a module, which is registered first. -/
def exports? (file : String) : Step (Option (Dict CanonicalId)) := do
  register file
  return (← moduleIn? file).map (·.definition.exports)

/-- Registers a module that is not registered yet and counts it. -/
def registerNew (count : Nat) (file : String) : Step Nat := do
  if (← get).moduleState? file = some .unregistered then
    register file
    return count + 1
  else return count

def registerAll : Step Nat := do (← get).modules.keys.foldlM registerNew 0

/-! ### Evaluating -/

def pendingIds : List CanonicalId :=
  (r.entries.toList.filter fun (_, e) => e.isPending).map fun (id, _) => ⟨id⟩

def dependenciesOf (id : CanonicalId) : List CanonicalId :=
  ((r.entry? id).map (·.dependencies)).getD []

/-- The first pending element that depends on what is not registered. -/
def missing? : Option BuildError :=
  r.pendingIds.findSome? fun id =>
    ((r.dependenciesOf id).find? fun d => !r.contains d).map fun d =>
      .evaluationFailed id s!"depends on {d.text}, which is not registered"

/-- The remaining ids in levels, each of which depends on those before it alone. -/
def levelsFrom : Nat → List CanonicalId → Build (List (List CanonicalId))
  | _, [] => .ok []
  | 0, remaining => .error (.circularDependency remaining)
  | fuel + 1, remaining =>
    let ready := remaining.filter fun id => (r.dependenciesOf id).all (· ∉ remaining)
    if ready.isEmpty then .error (.circularDependency remaining)
    else (levelsFrom fuel (remaining.filter (· ∉ ready))).map (ready :: ·)

def levels : Build (List (List CanonicalId)) :=
  match r.missing? with
  | some e => .error e
  | none => r.levelsFrom r.entries.size r.pendingIds

def notEvaluated (id dependency : CanonicalId) : BuildError :=
  .evaluationFailed id s!"dependency {dependency.text} has not been evaluated"

def valueFor (id dependency : CanonicalId) : Build (CanonicalId × Value) :=
  match r.value? dependency with
  | some v => .ok (dependency, v)
  | none => .error (notEvaluated id dependency)

/-- The values of everything on the stack and of what it depends on, but for `id` itself. -/
def reach (id : CanonicalId) : Nat → List CanonicalId → Dict Value → Build (Dict Value)
  | 0, _, acc => .ok acc
  | _, [], acc => .ok acc
  | fuel + 1, next :: stack, acc =>
    if next = id || acc.contains next.text then reach id fuel stack acc
    else do
      let (_, v) ← r.valueFor id next
      reach id fuel ((r.dependenciesOf next).reverse ++ stack) (acc.insert next.text v)

/-- No more dependencies than this come up in a search. -/
def reachBound (id : CanonicalId) : Nat :=
  (r.dependenciesOf id).length + r.entries.values.foldr (fun e n => e.dependencies.length + n) 0

def context (id : CanonicalId) : Build Context := do
  let direct := r.dependenciesOf id
  let dependencies ← direct.mapM (r.valueFor id)
  let transitive ← r.reach id (r.reachBound id) direct.reverse ∅
  return ⟨id, dependencies, transitive⟩

/-- The effects of one level, in the order of its ids. -/
def effects (level : List CanonicalId) : Build (List (CanonicalId × Effect Value)) :=
  (level.filterMap fun id => (r.entry? id).map fun e => (id, e.factory)).mapM fun (id, factory) =>
    (r.context id).map fun c => (id, factory c)

def store (id : CanonicalId) (v : Value) : Registry :=
  { r with entries := r.entries.modify id.text fun e => { e with value := some v } }

/-- Keeps the values up to the first failure, which is told. -/
def commit : Registry → List (CanonicalId × Outcome Value) → Option BuildError × Registry
  | r, [] => (none, r)
  | r, (id, .ok v) :: rest => commit (r.store id v) rest
  | r, (id, .error e) :: _ => (some (.ofEvaluation id e), r)

/-- The effect that the scheduler cannot run, if there is one. -/
def unrunnable? (scheduler : Scheduler) (effects : List (CanonicalId × Effect Value)) :
    Option CanonicalId :=
  match scheduler with
  | .sync => (effects.find? (·.2.isAsync)).map (·.1)
  | .async => none

/-- What is told of a level whose group fails as a whole. -/
def levelError (ids : List CanonicalId) (e : EvaluationError) : BuildError :=
  match ids.head? with
  | some id => .ofEvaluation id e
  | none => .configuration e.message

/-- The outcomes of one level. Its effects are run as one group, each of them attempted, so that one
that fails does not end the others. -/
def run (scheduler : Scheduler) (effects : List (CanonicalId × Effect Value)) :
    Build (List (CanonicalId × Outcome Value)) :=
  match unrunnable? scheduler effects with
  | some id => .error (.asyncEffect id)
  | none =>
    match (Effect.all (effects.map (·.2.attempt))).run scheduler with
    | .error e => .error (levelError (effects.map (·.1)) e)
    | .ok outcomes => .ok ((effects.map (·.1)).zip outcomes)

/-- One level after another; `count` elements were evaluated before. -/
def evaluateLevels (scheduler : Scheduler) :
    Registry → Nat → List (List CanonicalId) → Build Nat × Registry
  | r, count, [] => (.ok count, r)
  | r, count, level :: rest =>
    match (r.effects level).bind (run scheduler) with
    | .error e => (.error e, r)
    | .ok outcomes =>
      match r.commit outcomes with
      | (some e, r) => (.error e, r)
      | (none, r) => evaluateLevels scheduler r (count + outcomes.length) rest

/-- Evaluates what is pending and counts it. -/
def evaluatePending (scheduler : Scheduler) : Build Nat × Registry :=
  match r.levels with
  | .error e => (.error e, r)
  | .ok levels => evaluateLevels scheduler r 0 levels

/-- Registers everything, then evaluates what is pending. -/
def evaluate (scheduler : Scheduler) : Step (Build Nat) := do
  discard registerAll
  let (result, r) := (← get).evaluatePending scheduler
  set r
  return result

end Registry
end StaticGql
