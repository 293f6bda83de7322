import StaticGql.Effect
import StaticGql.Marker

/-!
The configuration of a project: its files, its marker, how it is built and how its sources are
replaced.
-/

namespace StaticGql

/-- How source files are read: through an abstract syntax tree, through a concrete one, or by
their tokens alone. -/
inductive Frontend where
  | abstractTree
  | concreteTree
  | scanner
  deriving DecidableEq, Repr

namespace Frontend

def all : List Frontend := [abstractTree, concreteTree, scanner]

def name : Frontend → String
  | abstractTree => "swc"
  | concreteTree => "tree-sitter"
  | scanner => "scanner"

def ofName? (s : String) : Option Frontend := all.find? (·.name = s)

/-- Names that a user may write. -/
def ofText (s : String) : Except String Frontend :=
  if s = "treesitter" then .ok concreteTree
  else
    match ofName? s with
    | some f => .ok f
    | none => .error s!"unknown frontend '{s}'"

end Frontend

/-- A replaced call goes through the runtime, or gives way to its value. -/
inductive TransformMode where
  | runtime
  | zeroRuntime
  deriving DecidableEq, Repr

namespace TransformMode

def name : TransformMode → String
  | runtime => "runtime"
  | zeroRuntime => "zero-runtime"

def ofName? (s : String) : Option TransformMode := [runtime, zeroRuntime].find? (·.name = s)

end TransformMode

inductive ModuleFormat where
  | esm
  | cjs
  deriving DecidableEq, Repr

namespace ModuleFormat

def name : ModuleFormat → String
  | esm => "esm"
  | cjs => "cjs"

def ofName? (s : String) : Option ModuleFormat := [esm, cjs].find? (·.name = s)

end ModuleFormat

structure ProjectConfig where
  root : String
  /-- Globs of the files that a build starts from. -/
  entries : List String
  exclude : List String
  deriving DecidableEq, Repr

def ProjectConfig.standard : ProjectConfig :=
  ⟨".", ["src/**/*.ts", "src/**/*.tsx"], ["**/node_modules/**", "**/*.d.ts"]⟩

structure BuildConfig where
  frontend : Frontend
  relativeIds : Bool
  cacheDir : Option String
  evaluation : Scheduler
  followImports : Bool
  deriving DecidableEq, Repr

def BuildConfig.standard : BuildConfig := ⟨.abstractTree, false, none, .sync, true⟩

structure TransformConfig where
  mode : TransformMode
  moduleFormat : ModuleFormat
  runtimeModule : String
  deriving DecidableEq, Repr

def TransformConfig.standard : TransformConfig := ⟨.runtime, .esm, "@tessera/runtime"⟩

structure Config where
  project : ProjectConfig
  marker : Marker
  build : BuildConfig
  transform : TransformConfig
  deriving DecidableEq, Repr

namespace Config

def standard : Config := ⟨.standard, .standard, .standard, .standard⟩

def idMode (c : Config) : IdMode :=
  if c.build.relativeIds then .relativeTo c.project.root else .absolute

end Config
end StaticGql
