import StaticGql.BuildError
import StaticGql.Config
import StaticGql.Config.Codec
import StaticGql.Disk
import StaticGql.Glob
import StaticGql.Path
import StaticGql.Text.Split

/-!
Configurations made ready for a build: paths resolved against the directory of the configuration,
and values that cannot drive a build rejected. Configuration files, found and read.
-/

namespace StaticGql

inductive ConfigError where
  | io (path message : String)
  /-- A text that is not of its format, or not a configuration. -/
  | unreadable
  | invalidMarker (pattern reason : String)
  | invalid (message : String)
  | relativeRoot (root : String)
  deriving DecidableEq, Repr

namespace ConfigError

def message : ConfigError → String
  | io path message => s!"I/O error on {path}: {message}"
  | unreadable => "unreadable configuration"
  | invalidMarker pattern reason => s!"invalid marker pattern '{pattern}': {reason}"
  | invalid message => s!"invalid configuration: {message}"
  | relativeRoot root => s!"project root '{root}' must be absolute"

def toBuildError : ConfigError → BuildError
  | io path message => .io (Path.normalize path) message
  | invalidMarker pattern reason => .invalidMarkerPattern pattern reason
  | relativeRoot root => .invalidId (.requiresAbsolutePath root)
  | e => .configuration e.message

end ConfigError

namespace Config

/-- Relative paths seen from the directory `base`. -/
def resolveRoot (base : String) (c : Config) : Config :=
  let root :=
    if Path.startsAtRoot c.project.root then c.project.root
    else Path.clean (Path.append base c.project.root)
  { c with
    project := { c.project with root }
    build := { c.build with cacheDir := c.build.cacheDir.map (Path.append root) }
    marker := { c.marker with systemPath := c.marker.systemPath.map (Path.append root) } }

def isIdentifierStart (c : Char) : Bool := c.isAlpha || c = '_' || c = '$'

def isIdentifier (s : String) : Bool :=
  match s.toList with
  | [] => false
  | c :: cs => isIdentifierStart c && cs.all fun c => isIdentifierStart c || c.isDigit

def checkMarker (m : Marker) : Except ConfigError Unit :=
  if !isIdentifier m.identifier then
    .error (.invalidMarker m.identifier "marker identifier must be a valid JavaScript identifier")
  else
    match m.importSources.find? Text.isBlank with
    | some source => .error (.invalidMarker source "import source must not be empty")
    | none => .ok ()

def checkGlobs (p : ProjectConfig) : Except ConfigError Unit :=
  if p.entries.isEmpty then .error (.invalid "project.entries must list at least one glob")
  else ((Glob.parseAll (p.entries ++ p.exclude)).mapError .invalid).map fun _ => ()

/-- The first thing for which a configuration cannot drive a build. -/
def check (c : Config) : Except ConfigError Unit := do
  if !Path.startsAtRoot c.project.root then throw (.relativeRoot c.project.root)
  checkMarker c.marker
  checkGlobs c.project
  if Text.isBlank c.transform.runtimeModule then
    throw (.invalid "transform.runtime_module must not be empty")

/-! ### Configuration files -/

/-- The configuration file that is looked for in a project. -/
def fileName : String := "tessera.toml"

/-- What follows the last dot of a file name, unless the name starts with it. -/
def extension? (path : String) : Option String :=
  match (Path.components path.toList).getLast? with
  | none => none
  | some name =>
    if name = ['.', '.'] || !name.contains '.' then none
    else
      let ending := (name.reverse.takeWhile (· ≠ '.')).reverse
      if ending.length + 1 = name.length then none else some (String.ofList ending)

def parse? (path text : String) : Option Config :=
  if extension? path = some "json" then parseJson? text else parseToml? text

/-- A configuration ready for a build, its paths seen from a folder. -/
def ready (base : String) (c : Config) : Except ConfigError Config := do
  let c := c.resolveRoot base
  c.check
  return c

/-- The folder that holds a file, from the root. -/
def folderOf (d : Disk) (path : String) : String :=
  match Path.above? path with
  | none | some "" => Path.append d.current "."
  | some folder => Path.append d.current folder

/-- The configuration in a file, its paths seen from the folder of the file. -/
def load (d : Disk) (path : String) : Except ConfigError Config :=
  match d.read path with
  | .error e => .error (.io path e.message)
  | .ok text =>
    match parse? path text with
    | none => .error .unreadable
    | some c => c.ready (folderOf d path)

/-- The configuration of the current folder, or the standard one seen from there. -/
def discover (d : Disk) : Except ConfigError Config :=
  let path := Path.append d.current fileName
  if d.contains path then load d path else standard.ready d.current

end Config
end StaticGql
