import StaticGql.Graph.Check
import StaticGql.Graph.Link
import StaticGql.Registry.Modules
import StaticGql.Session.Collect

/-!
Building: collect, compare with the last build, link, register, evaluate, assemble. Where nothing
has changed the last artifact stands, and a build that fails is as if it had not been, but for what
the cache and the registry have learnt.
-/

namespace StaticGql.Session

/-- Why there is no artifact. -/
inductive Failure where
  | build (e : BuildError)
  | twice (e : RegisteredTwice)
  deriving DecidableEq, Repr

/-- An artifact, and whether this build has made it. -/
structure Built where
  artifact : Artifact
  isNew : Bool

variable (s : Session)

/-- The modules of what was collected, if all its references hold. -/
def link (d : Disk) (analyses : Dict Analysis) : Build (Dict ModuleDefinition) := do
  let mode := s.config.idMode
  let g ← Graph.build mode analyses d.isFile
  g.check
  (ModuleDefinition.ofAnalyses mode analyses g).mapError .invalidId

/-- The last artifact, if the files are still those that it was made of. -/
def unchanged? (diff : Diff) : Option Artifact :=
  if diff.isEmpty && !s.dirty then s.artifact else none

/-- The artifact of an evaluated registry, kept with all that the next build compares with. -/
def finish (d : Disk) (c : Collection) (diff : Diff) (r : Registry) : Built × Session × Disk :=
  let assembly := c.analyses.values.foldl Assembly.addDiagnostics c.assembly
  let artifact := assembly.finish r.elements
  let cache := c.cache.retain c.analyses.keys
  (⟨artifact, true⟩,
    { s with
      registry := r
      tracker := s.tracker.commit diff
      cache := cache
      artifact := some artifact
      dirty := false },
    storeCache cache d s.config.build.cacheDir)

/-- Brings the registry to the modules and evaluates it. -/
def evaluate (scheduler : Scheduler) (modules : Dict ModuleDefinition) :
    Except Failure Unit × Registry :=
  match (Registry.evaluate scheduler).run.run (s.registry.sync modules) with
  | (.ok (.ok _), r) => (.ok (), r)
  | (.ok (.error e), r) => (.error (.build e), r)
  | (.error e, r) => (.error (.twice e), r)

/-- What follows on the collection of all files. -/
def buildFrom (scheduler : Scheduler) (d : Disk) (c : Collection) :
    Except Failure Built × Session × Disk :=
  let diff := s.tracker.diff c.fingerprints
  match s.unchanged? diff with
  | some artifact => (.ok ⟨artifact, false⟩, s, d)
  | none =>
    match s.link d c.analyses with
    | .error e => (.error (.build e), s, d)
    | .ok modules =>
      match s.evaluate scheduler modules with
      | (.error e, r) => (.error e, { s with registry := r }, d)
      | (.ok (), r) =>
        let (built, s, d) := s.finish d c diff r
        (.ok built, s, d)

def build (scheduler : Scheduler) (d : Disk) : Except Failure Built × Session × Disk :=
  match s.entryFiles d with
  | .error e => (.error (.build e), s, d)
  | .ok entries =>
    match s.collect d entries with
    | (.error e, c) => (.error (.build e), { s with cache := c.cache }, d)
    | (.ok (), c) => buildFrom { s with cache := c.cache } scheduler d c

end StaticGql.Session
