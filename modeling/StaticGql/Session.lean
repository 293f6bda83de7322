import StaticGql.Artifact
import StaticGql.Cache.Codec
import StaticGql.Config.Check
import StaticGql.Discovery
import StaticGql.Disk
import StaticGql.Registry
import StaticGql.Tracker

/-!
A build session: what one build leaves for the next.
-/

namespace StaticGql

structure Session where
  config : Config
  discovery : Discovery
  registry : Registry
  tracker : Tracker
  cache : Cache
  /-- Of the last build that succeeded. -/
  artifact : Option Artifact
  /-- Something other than the content of files has made the last artifact void. -/
  dirty : Bool

namespace Session

/-- The cache that is stored in a directory. -/
def loadCache (d : Disk) (key : String) : Option String → Cache
  | none => .empty key
  | some folder =>
    match d.read (Path.append folder Cache.fileName) with
    | .ok text => .ofText key text
    | .error _ => .empty key

/-- A session under a configuration that can drive a build. A stored cache tells which files the
last build has seen. -/
def start (c : Config) (d : Disk) : Build Session := do
  c.check.mapError ConfigError.toBuildError
  let discovery ← Discovery.ofProject c.project
  let cache := loadCache d c.cacheKey c.build.cacheDir
  return ⟨c, discovery, .empty, ⟨cache.fingerprints⟩, cache, none, false⟩

/-- The cache stored in its directory, where that can be done. -/
def storeCache (c : Cache) (d : Disk) : Option String → Disk
  | none => d
  | some folder =>
    match d.createFolders folder with
    | .error _ => d
    | .ok d =>
      match d.write (Path.append folder Cache.fileName) (.text c.text) with
      | .ok d => d
      | .error _ => d

variable (s : Session)

/-- The normal paths of the files that a build starts from, in order. -/
def entryFiles (d : Disk) : Build (List String) :=
  let root := s.discovery.root
  if d.isFolder root then
    let paths := (d.filesBelow root).map (Path.append root)
    .ok (Dict.sortedTexts ((paths.filter s.discovery.isEntry).map Path.normalize))
  else .error (.io (Path.normalize root) "project root is not a directory")

/-- The fingerprint of a file, if it is there. -/
def fingerprint? (d : Disk) (path : String) : Build (Option (String × Fingerprint)) :=
  let path' := Path.normalize path
  match d.read path with
  | .ok text => .ok (some (path', .ofText text 0))
  | .error .notFound => .ok none
  | .error e => .error (.io path' e.message)

/-- What has changed among the entry files and the files of the last build. -/
def scan (d : Disk) : Build Diff := do
  let entries ← s.entryFiles d
  let paths := Dict.sortedTexts (entries ++ s.tracker.files.keys)
  let now ← paths.mapM (fingerprint? d)
  return s.tracker.diff (.ofList (now.filterMap id))

/-- The session without the module and the analysis of one file, and the ids that it had. -/
def removeModule (path : String) : Build (List CanonicalId × Session) := do
  let file := Path.normalize path
  let key ← (CanonicalId.fileKey s.config.idMode file).mapError .invalidId
  let (removed, registry) := s.registry.removeModule key
  let (_, cache) := s.cache.remove file
  let (_, tracker) := s.tracker.forget file
  return (removed, { s with registry, cache, tracker, dirty := true })

end Session
end StaticGql
