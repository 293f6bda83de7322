import StaticGql.CanonicalId
import StaticGql.Json.Basic
import StaticGql.Text.Split

/-!
Declarations: the builder calls found in a project, before they are evaluated.
-/

namespace StaticGql

inductive Kind where
  | model
  | slice
  | operation
  | fragment
  /-- It carries metadata, is evaluated, and never becomes part of an artifact. -/
  | define
  deriving DecidableEq, Repr

namespace Kind

def all : List Kind := [model, slice, operation, fragment, define]

def name : Kind → String
  | model => "model"
  | slice => "slice"
  | operation => "operation"
  | fragment => "fragment"
  | define => "define"

def ofName? (s : String) : Option Kind := all.find? (·.name = s)

/-- The kinds among which a cycle of references is an error. -/
def isComposable : Kind → Bool
  | model | slice | fragment => true
  | operation | define => false

def producesElement : Kind → Bool
  | define => false
  | _ => true

end Kind

/-- A builder call such as `fragment.User({ … })`. The options are the fields of its first
argument that are literals. -/
structure Builder where
  callee : List String
  typename : Option String
  operationType : Option String
  options : List (String × Json)

namespace Builder

def option? (b : Builder) (key : String) : Option Json := Json.field? b.options key

def optionText? (b : Builder) (key : String) : Option String := (b.option? key).bind Json.asStr?

/-- The texts of a list option; other entries do not count. -/
def optionTexts (b : Builder) (key : String) : List String :=
  (((b.option? key).bind Json.asArr?).getD []).filterMap Json.asStr?

end Builder

/-- A declaration as it stands in one file. -/
structure Site where
  structuralPath : String
  kind : Kind
  builder : Builder
  /-- Names bound in the module that the call refers to, in increasing order. -/
  references : List String
  isTopLevel : Bool
  exportBinding : Option String
  span : Span

/-- A declaration with its id and the ids it refers to. -/
structure Declaration where
  id : CanonicalId
  kind : Kind
  builder : Builder
  references : List CanonicalId
  file : String
  span : Span

/-- The name under which an operation is known outside. -/
def Declaration.operationName? (d : Declaration) : Option String :=
  match d.kind with
  | .operation => d.builder.optionText? "name"
  | _ => none

end StaticGql
