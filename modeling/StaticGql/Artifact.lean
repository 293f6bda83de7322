import StaticGql.Declaration
import StaticGql.Dict

/-!
The outcome of a build: the evaluated elements by canonical id, and a report.
-/

namespace StaticGql

/-- A fragment, or a model, which has the same form. -/
structure FragmentElement where
  name : String
  typename : String
  fields : List String
  variableTypes : Dict String
  /-- `fragment Name on Type { … }` -/
  definition : String
  /-- The definition, and after it every definition it needs. -/
  document : String
  dependencies : List CanonicalId
  deriving DecidableEq

structure SliceElement where
  operationType : String
  /-- The slice's own fields and those of the slices in it. -/
  fields : List String
  spreads : List String
  variableTypes : Dict String
  document : String
  dependencies : List CanonicalId
  deriving DecidableEq

structure OperationElement where
  operationType : String
  operationName : String
  variableTypes : Dict String
  /-- The operation, and after it every definition it needs. -/
  document : String
  dependencies : List CanonicalId
  deriving DecidableEq

inductive Element where
  | model (e : FragmentElement)
  | slice (e : SliceElement)
  | operation (e : OperationElement)
  | fragment (e : FragmentElement)
  deriving DecidableEq

namespace Element

def kind : Element → Kind
  | model _ => .model
  | slice _ => .slice
  | operation _ => .operation
  | fragment _ => .fragment

def dependencies : Element → List CanonicalId
  | model e | fragment e => e.dependencies
  | slice e => e.dependencies
  | operation e => e.dependencies

def variableTypes : Element → Dict String
  | model e | fragment e => e.variableTypes
  | slice e => e.variableTypes
  | operation e => e.variableTypes

def document : Element → String
  | model e | fragment e => e.document
  | slice e => e.document
  | operation e => e.document

/-- The little that the running program is told about an element. -/
def descriptor : Element → Json
  | model e => .obj [("typename", .str e.typename)]
  | fragment e => .obj [("name", .str e.name), ("typename", .str e.typename)]
  | slice e => .obj [("operationType", .str e.operationType)]
  | operation e =>
    .obj [("document", .str e.document), ("operationName", .str e.operationName),
      ("operationType", .str e.operationType), ("variableNames", Json.strs e.variableTypes.keys)]

end Element

structure Warning where
  code : String
  message : String
  file : Option String
  canonicalId : Option CanonicalId
  deriving DecidableEq, Repr

/-- How many files were taken from the cache, were analysed, and could not contribute. -/
structure CacheStats where
  hits : Nat
  misses : Nat
  skips : Nat
  deriving DecidableEq, Repr

def CacheStats.zero : CacheStats := ⟨0, 0, 0⟩

structure Report where
  durationMs : Nat
  warnings : List Warning
  stats : CacheStats
  deriving DecidableEq

structure Artifact where
  /-- Under the texts of their ids. -/
  elements : Dict Element
  report : Report
  deriving DecidableEq

namespace Artifact

def get? (a : Artifact) (id : CanonicalId) : Option Element := a.elements.get? id.text

/-- The artifact without what differs between two builds of the same project. -/
def stable (a : Artifact) : Artifact := ⟨a.elements, ⟨0, a.report.warnings, .zero⟩⟩

end Artifact
end StaticGql
