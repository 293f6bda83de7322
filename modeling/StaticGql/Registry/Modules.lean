import StaticGql.Analysis.Codec
import StaticGql.Blake3
import StaticGql.Json.Printer
import StaticGql.ModuleRef
import StaticGql.Registry.Declarations

/-!
The files of a project as modules of a registry. A module carries a signature of all that its
elements are made from, so that a file that did not really change keeps its values.
-/

namespace StaticGql

namespace Declaration

/-- What of a declaration its value depends on. -/
def essence (d : Declaration) : Json :=
  .obj [("id", .str d.id.text), ("kind", .str d.kind.name), ("builder", d.builder.toJson),
    ("references", Json.strs (d.references.map (·.text)))]

end Declaration

namespace ModuleDefinition

/-- All that the elements of a module are made from, as text. -/
def signatureText (imports : List String) (exports : Dict CanonicalId)
    (declarations : List Declaration) : String :=
  let exports := exports.toList.map fun (name, id) => (name, Json.str id.text)
  let essence : Json := .obj [("imports", Json.strs imports), ("exports", .obj exports),
    ("declarations", .arr (declarations.map (·.essence)))]
  essence.sorted.compact

def signatureOf (imports : List String) (exports : Dict CanonicalId)
    (declarations : List Declaration) : String :=
  Blake3.ofText (signatureText imports exports declarations)

/-- The local exports that stand for declarations. -/
def exportsOf (a : Analysis) (declarations : List Declaration) : Dict CanonicalId :=
  .ofList (a.exports.filterMap fun
    | .named exported localName =>
      (declarations.find? (·.id.structural = localName)).map fun d => (exported, d.id)
    | _ => none)

/-- The keys of the analysed files that a file imports from, each once. -/
def importsOf (mode : IdMode) (analyses : Dict Analysis) (file : String) (a : Analysis) :
    Except IdError (List String) := do
  let targets := a.relativeSources.filterMap fun source =>
    ModuleRef.resolve? file source analyses.contains
  let keys ← targets.mapM (CanonicalId.fileKey mode)
  return keys.foldl (fun l key => if key ∈ l then l else l ++ [key]) []

/-- The module of one file. -/
def ofAnalysis (mode : IdMode) (analyses : Dict Analysis) (g : Graph) (file : String)
    (a : Analysis) : Except IdError ModuleDefinition := do
  let key ← CanonicalId.fileKey mode file
  let imports ← importsOf mode analyses file a
  let declarations := g.declarationsIn file
  let exports := exportsOf a declarations
  return ⟨key, imports, exports, declarations.map (·.definition),
    signatureOf imports exports declarations⟩

/-- The modules of all files under their keys. -/
def ofAnalyses (mode : IdMode) (analyses : Dict Analysis) (g : Graph) :
    Except IdError (Dict ModuleDefinition) := do
  let modules ← analyses.toList.mapM fun (file, a) => ofAnalysis mode analyses g file a
  return .ofList (modules.map fun m => (m.file, m))

end ModuleDefinition

namespace Registry

variable (r : Registry)

def signature? (file : String) : Option String :=
  (r.modules.get? file).map (·.definition.signature)

def removeStale (modules : Dict ModuleDefinition) : Registry :=
  (r.modules.keys.filter fun file => !modules.contains file).foldl
    (fun r file => (r.removeModule file).2) r

/-- A module that differs from the one under its file. -/
def renew (m : ModuleDefinition) : Registry :=
  if r.signature? m.file = some m.signature then r else (r.install m).2

/-- The registry with these modules and no others; unchanged ones stay as they are. -/
def sync (modules : Dict ModuleDefinition) : Registry :=
  modules.values.foldl renew (r.removeStale modules)

end Registry
end StaticGql
