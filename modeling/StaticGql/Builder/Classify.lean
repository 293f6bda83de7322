import StaticGql.Declaration

/-!
What a builder callee builds. The first segment that names a kind decides.

| callee               | kind      | typename | operation type |
|----------------------|-----------|----------|----------------|
| `fragment.User`      | fragment  | `User`   |                |
| `model.User`         | model     | `User`   |                |
| `query.slice`        | slice     |          | `query`        |
| `querySlice`         | slice     |          | `query`        |
| `mutation.operation` | operation |          | `mutation`     |
| `query.composed`     | operation |          | `query`        |
| `define`             | define    |          |                |
-/

namespace StaticGql.Builder

structure Shape where
  kind : Kind
  typename : Option String
  operationType : Option String
  /-- A spelling that is out of use, and the one to use. -/
  deprecated : Option (String × String)
  deriving DecidableEq, Repr

def operationTypes : List String := ["query", "mutation", "subscription"]

/-- The operation type that the segment before a kind names. -/
def operationTypeOf (before : Option String) : String :=
  ((before.filter (· ∈ operationTypes))).getD "query"

/-- What one segment says, given its neighbours. -/
def shapeOf? (before : Option String) (segment : String) (after : Option String) : Option Shape :=
  if segment = "model" then some ⟨.model, after, none, none⟩
  else if segment = "fragment" then some ⟨.fragment, after, none, none⟩
  else if segment = "slice" then some ⟨.slice, none, some (operationTypeOf before), none⟩
  else if segment = "querySlice" then
    some ⟨.slice, none, some "query", some ("querySlice", "query.slice")⟩
  else if segment = "operation" ∨ segment = "composed" then
    some ⟨.operation, none, some (operationTypeOf before), none⟩
  else if segment = "define" then some ⟨.define, none, none, none⟩
  else none

def classifyFrom (before : Option String) : List String → Option Shape
  | [] => none
  | segment :: rest =>
    match shapeOf? before segment rest.head? with
    | some shape => some shape
    | none => classifyFrom (some segment) rest

def classify? (callee : List String) : Option Shape := classifyFrom none callee

end StaticGql.Builder
