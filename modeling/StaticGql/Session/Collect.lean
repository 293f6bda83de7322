import StaticGql.Assembly
import StaticGql.Frontend
import StaticGql.ModuleRef
import StaticGql.Session

/-!
Collecting the files of a build: the entry files and, round by round, what they reach through
relative imports. A file that the cache knows is not analysed again.
-/

namespace StaticGql.Session

structure Collection where
  cache : Cache
  assembly : Assembly
  /-- By the paths that they carry. -/
  analyses : Dict Analysis
  fingerprints : Dict Fingerprint
  /-- Every path that was ever pending. -/
  seen : List String

/-- A step that may end the build; what was put into the cache stays there. -/
abbrev Collect (α : Type) := ExceptT BuildError (StateM Collection) α

/-- A file that has to be analysed. -/
structure Unread where
  path : String
  fingerprint : Fingerprint
  text : String

namespace Collect

variable (s : Session) (d : Disk)

def record (r : Reading) : Collect Unit := modify fun c => { c with assembly := c.assembly.record r }

def remember (path : String) (e : CacheEntry) : Collect Unit :=
  modify fun c => { c with cache := c.cache.insert path e }

def setFingerprint (path : String) (f : Fingerprint) : Collect Unit :=
  modify fun c => { c with fingerprints := c.fingerprints.insert path f }

/-- The analysis of a file, where it is known without its frontend. A file that vanished is
neither known nor to be read. -/
def look (path : String) : Collect (List Analysis × List Unread) := do
  match d.read path with
  | .error .notFound => return ([], [])
  | .error e => throw (.io path e.message)
  | .ok text =>
    let now := Fingerprint.ofText text 0
    setFingerprint path now
    if !s.config.marker.mayContribute text then
      record .skip
      remember path ⟨now, .empty path, []⟩
      return ([.empty path], [])
    match (← get).cache.lookup? path now with
    | some a =>
      record .hit
      return ([a], [])
    | none => return ([], [⟨path, now, text⟩])

def analyse (u : Unread) : Collect Analysis := do
  match s.config.build.frontend.analyze s.config.marker u.path u.text with
  | .error e => throw (.parseFailed u.path e.message)
  | .ok a =>
    match a.canonicalIds s.config.idMode with
    | .error e => throw (.invalidId e)
    | .ok ids =>
      record .miss
      remember u.path ⟨u.fingerprint, a, ids⟩
      return a

/-- Whether an import may lead to a file. -/
def mayFollow (path : String) : Bool := d.isFile path && !s.discovery.isExcluded path

/-- The files that an analysed file reaches. -/
def targets (a : Analysis) : List String :=
  if s.config.build.followImports then
    a.relativeSources.filterMap fun source => ModuleRef.resolve? a.file source (mayFollow s d)
  else []

/-- Takes an analysis in; the files that it is the first to reach come back. -/
def take (a : Analysis) : Collect (List String) := do
  let c ← get
  let new := (targets s d a).foldl (fun l t => if t ∈ c.seen ++ l then l else l ++ [t]) []
  set { c with seen := c.seen ++ new, analyses := c.analyses.insert a.file a }
  return new

def round (pending : List String) : Collect (List String) := do
  let found ← pending.mapM (look s d)
  let fresh ← (found.flatMap (·.2)).mapM (analyse s)
  let reached ← (found.flatMap (·.1) ++ fresh).mapM (take s d)
  return reached.flatten

/-- Rounds until nothing is pending. Each but the last reads a file that was not read before. -/
def rounds : Nat → List String → Collect Unit
  | 0, _ | _, [] => pure ()
  | fuel + 1, pending => do rounds fuel (← round s d pending)

end Collect

/-- Collects from the entry files on. -/
def collect (s : Session) (d : Disk) (entries : List String) : Build Unit × Collection :=
  (Collect.rounds s d (d.files.size + 1) entries).run.run ⟨s.cache, .start, ∅, ∅, entries⟩

end StaticGql.Session
