import StaticGql.Analysis
import StaticGql.Artifact.Codec
import StaticGql.Config
import StaticGql.Text.Edits

/-!
The code that stands in place of a call.

What a transform of one file does: the calls to replace, the imports to remove, the statements to
add, and the calls that stay as they are.
-/

namespace StaticGql.Transform

structure Options where
  mode : TransformMode
  moduleFormat : ModuleFormat
  runtimeModule : String
  marker : Marker
  /-- The mode of ids with which the artifact was built. -/
  idMode : IdMode
  /-- The normal path of the generated file that is emptied. -/
  systemPath : Option String
  deriving DecidableEq, Repr

namespace Options

def standard : Options :=
  ⟨.runtime, .esm, TransformConfig.standard.runtimeModule, .standard, .absolute, none⟩

def ofConfig (c : Config) : Options :=
  { mode := c.transform.mode
    moduleFormat := c.transform.moduleFormat
    runtimeModule := c.transform.runtimeModule
    marker := c.marker
    idMode := c.idMode
    systemPath := c.marker.systemPath.map Path.normalize }

end Options

/-- The name under which the runtime is imported. -/
def runtimeBinding : String := "gqlRuntime"

/-- The name of the module object that holds the runtime where modules are required. -/
def moduleBinding : String := "__tessera_runtime"

def quoted (s : String) : String := String.ofList (Json.quote s)

def runtimeImport (o : Options) : String :=
  let source := quoted o.runtimeModule
  match o.moduleFormat with
  | .esm => "import \x7b " ++ runtimeBinding ++ " \x7d from " ++ source ++ ";"
  | .cjs => "const " ++ moduleBinding ++ " = require(" ++ source ++ ");"

def accessor : ModuleFormat → String
  | .esm => runtimeBinding
  | .cjs => moduleBinding ++ "." ++ runtimeBinding

/-- The description of an element, quoted once more as text. -/
def prebuild (descriptor : Json) : String :=
  "\x7b prebuild: JSON.parse(" ++ quoted descriptor.sorted.compact ++ "), runtime: \x7b\x7d \x7d"

/-- An expression, and a statement that goes before everything that may use it. -/
structure Replacement where
  expression : String
  hoisted : Option String
  deriving DecidableEq, Repr

def render (o : Options) (e : Element) : Replacement :=
  match o.mode with
  | .zeroRuntime => ⟨"(" ++ e.precomputed ++ ")", none⟩
  | .runtime =>
    let access := accessor o.moduleFormat
    let argument := prebuild e.descriptor
    match e with
    | .operation op =>
      ⟨access ++ ".getOperation(" ++ quoted op.operationName ++ ")",
        some (access ++ ".operation(" ++ argument ++ ");")⟩
    | e => ⟨access ++ "." ++ e.kind.name ++ "(" ++ argument ++ ")", none⟩

/-- Why a call is left alone. -/
inductive Fault where
  | noMetadata
  | noElement (id : CanonicalId) (builder : Kind)
  | otherKind (id : CanonicalId) (artifact builder : Kind)
  deriving DecidableEq, Repr

structure SiteError where
  fault : Fault
  file : String
  line : Nat
  column : Nat
  deriving DecidableEq, Repr

namespace Fault

def code : Fault → String
  | noMetadata => "METADATA_NOT_FOUND"
  | noElement .. => "ANALYSIS_ARTIFACT_NOT_FOUND"
  | otherKind .. => "UNSUPPORTED_ARTIFACT_TYPE"

def message : Fault → String
  | noMetadata => "no declaration metadata for this marker call"
  | noElement id _ => s!"no artifact element for {id.text}"
  | otherKind id artifact builder =>
    s!"artifact element for {id.text} is a {artifact.name}, call-site builds a {builder.name}"

def details : Fault → List (String × Json)
  | noMetadata => []
  | noElement id builder => [("canonicalId", .str id.text), ("builderType", .str builder.name)]
  | otherKind id artifact builder =>
    [("canonicalId", .str id.text), ("artifactType", .str artifact.name),
      ("builderType", .str builder.name)]

end Fault

namespace SiteError

def message (e : SiteError) : String :=
  s!"[{e.fault.code}] {e.fault.message} ({e.file}:{e.line}:{e.column})"

def toJson (e : SiteError) : Json :=
  .obj ([("code", .str e.fault.code), ("message", .str e.fault.message), ("file", .str e.file),
    ("line", Json.nat e.line), ("column", Json.nat e.column)] ++ e.fault.details)

def le (a b : SiteError) : Bool := a.line < b.line || (a.line = b.line && a.column ≤ b.column)

end SiteError

structure Substitution where
  span : Span
  expression : String
  deriving DecidableEq, Repr

structure Plan where
  substitutions : List Substitution
  /-- Statements that go after the imports. -/
  header : List String
  errors : List SiteError
  removedImports : List Span
  /-- The end of the last import that stays; without one the header goes to the top. -/
  insertAfter : Option Nat
  deriving DecidableEq, Repr

namespace Plan

/-- What becomes of one declaration. -/
inductive Fate where
  | define
  | fault (e : SiteError)
  | substitute (s : Substitution) (hoisted : Option String)

def errorAt (file : String) (span : Span) (fault : Fault) : SiteError :=
  ⟨fault, file, span.line, span.column⟩

def fate (a : Artifact) (o : Options) (file : String) (s : Site) : Except IdError Fate :=
  if s.kind = .define then .ok .define
  else
    (CanonicalId.create o.idMode file s.structuralPath).map fun id =>
      match a.get? id with
      | none => .fault (errorAt file s.span (.noElement id s.kind))
      | some e =>
        if e.kind = s.kind then
          let r := render o e
          .substitute ⟨s.span, r.expression⟩ r.hoisted
        else .fault (errorAt file s.span (.otherKind id e.kind s.kind))

def Fate.error? : Fate → Option SiteError
  | .fault e => some e
  | _ => none

def Fate.substitution? : Fate → Option Substitution
  | .substitute s _ => some s
  | _ => none

def Fate.hoisted? : Fate → Option String
  | .substitute _ h => h
  | _ => none

def Fate.isDefine : Fate → Bool
  | .define => true
  | _ => false

/-- Required modules go by a name of their own, which no import covers. -/
def hasRuntime (o : Options) (imports : List Import) : Bool :=
  o.moduleFormat = .esm && imports.any fun i =>
    i.source = o.runtimeModule && i.specifiers.any (·.localName = runtimeBinding)

def build (analysis : Analysis) (a : Artifact) (o : Options) : Except IdError Plan := do
  let fates ← analysis.declarations.mapM (fate a o analysis.file)
  let rejected := (analysis.diagnostics.filter (·.isRejection)).map fun d =>
    errorAt analysis.file d.span .noMetadata
  let errors := (rejected ++ fates.filterMap (·.error?)).mergeSort SiteError.le
  let substitutions := fates.filterMap (·.substitution?)
  if substitutions.isEmpty then return ⟨[], [], errors, [], none⟩
  let removed :=
    if errors.isEmpty && !fates.any (·.isDefine) then
      (analysis.imports.filter fun i => o.marker.isSource i.source).map (·.span)
    else []
  let kept := (analysis.imports.map (·.span)).filter (· ∉ removed)
  let imported :=
    if o.mode = .runtime && !hasRuntime o analysis.imports then [runtimeImport o] else []
  return ⟨substitutions, imported ++ fates.filterMap (·.hoisted?), errors, removed,
    (kept.map (·.stop)).max?⟩

/-- An offset moved over one line break behind it. -/
def pastBreak (source : List Char) (offset : Nat) : Nat :=
  match Text.dropBytes? offset source with
  | some ('\r' :: '\n' :: _) => offset + 2
  | some ('\n' :: _) => offset + 1
  | _ => offset

def headerEdit (p : Plan) : List Text.Edit :=
  if p.header.isEmpty then []
  else
    let header := "\n".intercalate p.header
    match p.insertAfter with
    | some offset => [.insert offset ("\n" ++ header)]
    | none => [.insert 0 (header ++ "\n")]

def edits (p : Plan) (source : String) : List Text.Edit :=
  p.substitutions.map (fun s => ⟨s.span.start, s.span.stop, s.expression⟩) ++
    p.removedImports.map (fun s => .remove s.start (pastBreak source.toList s.stop)) ++
    p.headerEdit

/-- The text with the plan carried out. The spans of an analysis never cut a character; for other
spans the text stays. -/
def apply (p : Plan) (source : String) : String :=
  (Text.applyEdits source (p.edits source)).getD source

end Plan
end StaticGql.Transform
