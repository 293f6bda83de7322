import StaticGql.Cli.Arguments
import StaticGql.Config.Check
import StaticGql.Session.Build
import StaticGql.Transform.File
import StaticGql.Transform.Plan

/-!
The commands of the command line, run on the files of a disk.
-/

namespace StaticGql.Cli

/-- Why a command came to nothing. -/
inductive Error where
  | build (e : BuildError)
  | other (message : String)
  /-- Something that no input should bring about. -/
  | broken (message : String)
  deriving DecidableEq, Repr

namespace Error

def payload : Error → Json
  | build e => e.payload
  | other message | broken message =>
    .obj [("error", .obj [("code", .str "CLI_ERROR"), ("message", .str message)])]

def ofFailure : Session.Failure → Error
  | .build e => build e
  | .twice e => broken e.message

end Error

/-- What a command leaves. -/
structure Outcome where
  exitCode : Nat
  stdout : String
  stderr : String
  disk : Disk

def loadConfig (d : Disk) (path : Option String) : Except Error Config :=
  let loaded :=
    match path with
    | some path => Config.load d path
    | none => Config.discover d
  loaded.mapError fun e => .build e.toBuildError

/-! ### Building -/

def BuildArgs.apply (a : BuildArgs) (c : Config) : Config :=
  let project := if a.entries.isEmpty then c.project else { c.project with entries := a.entries }
  { c with
    project
    build := { c.build with
      frontend := a.frontend.getD c.build.frontend
      relativeIds := a.relativeIds || c.build.relativeIds
      evaluation := if a.async then .async else c.build.evaluation } }

def warningLine (w : Warning) : String := s!"warning[{w.code}]: {w.message}\n"

/-- The artifact, and the disk with the cache that the build has stored. -/
def buildArtifact (a : BuildArgs) (d : Disk) : Except Error Artifact × Disk :=
  let started : Except Error Session := do
    let c ← loadConfig d a.config
    (Session.start (a.apply c) d).mapError .build
  match started with
  | .error e => (.error e, d)
  | .ok s =>
    let (result, _, d) := s.build s.config.build.evaluation d
    ((result.map (·.artifact)).mapError .ofFailure, d)

def writeArtifact (d : Disk) (out : String) (a : Artifact) : Except Error Disk :=
  (d.create out (.text (a.stableText ++ "\n"))).mapError fun e =>
    .other s!"Failed to write artifact to '{out}': {e.message}"

def failed (e : Error) (stderr : String) (d : Disk) : Outcome :=
  ⟨1, e.payload.sorted.compact ++ "\n", stderr, d⟩

def build (a : BuildArgs) (d : Disk) : Outcome :=
  match buildArtifact a d with
  | (.error e, d) => failed e "" d
  | (.ok artifact, d) =>
    let warnings := String.join (artifact.report.warnings.map warningLine)
    match a.out with
    | none => ⟨0, artifact.stableText ++ "\n", warnings, d⟩
    | some out =>
      match writeArtifact d out artifact with
      | .ok d => ⟨0, "", warnings, d⟩
      | .error e => failed e warnings d

/-! ### Transforming -/

def readArtifact (d : Disk) (path : String) : Except Error Artifact := do
  let fail (reason : String) : Error := .other s!"Failed to read artifact '{path}': {reason}"
  let text ← (d.read path).mapError fun e => fail e.message
  match Artifact.parse? text with
  | some a => return a
  | none => throw (fail (Artifact.fault text))

def failureMessage (path : String) : Transform.Failure → String
  | .source e => s!"failed to parse {path}: {e.message}"
  | .id e => e.message

def TransformArgs.options (a : TransformArgs) (c : Config) : Transform.Options :=
  let o := Transform.Options.ofConfig c
  { o with
    mode := a.mode.getD o.mode
    moduleFormat := if a.cjs then .cjs else o.moduleFormat }

/-- The file is known by its normal path as it was given. -/
def transformFile (a : TransformArgs) (d : Disk) : Except Error Transform.Output := do
  let c ← loadConfig d a.config
  let artifact ← readArtifact d a.artifact
  let text ← (d.read a.file).mapError fun e =>
    .other s!"Failed to read '{a.file}': {e.message}"
  let path := Path.normalize a.file
  (Transform.file c.build.frontend artifact (a.options c) path text).mapError fun e =>
    .other s!"Failed to transform '{path}': {failureMessage path e}"

def transform (a : TransformArgs) (d : Disk) : Outcome :=
  match transformFile a d with
  | .error e => failed e "" d
  | .ok out =>
    let errors := out.errors.map fun e => e.toJson.compact ++ "\n"
    ⟨if out.errors.isEmpty then 0 else 1, out.code, String.join errors, d⟩

/-! ### Scanning -/

def scanDiff (config : Option String) (d : Disk) : Except Error Diff := do
  let c ← loadConfig d config
  let s ← (Session.start c d).mapError .build
  (s.scan d).mapError .build

def scan (config : Option String) (d : Disk) : Outcome :=
  match scanDiff config d with
  | .error e => failed e "" d
  | .ok diff => ⟨0, diff.toJson.pretty ++ "\n", "", d⟩

def run (c : Command) (d : Disk) : Outcome :=
  match c with
  | .build a => build a d
  | .transform a => transform a d
  | .scan config => scan config d

end StaticGql.Cli
