import StaticGql.Analysis

/-!
The marker: the name behind which declarations stand, and the modules it is imported from.
-/

namespace StaticGql

structure Marker where
  identifier : String
  /-- Module specifiers; what lies below one of them counts too. -/
  importSources : List String
  /-- The generated file that the marker comes from. -/
  systemPath : Option String
  deriving DecidableEq, Repr

namespace Marker

def standard : Marker := ⟨"gql", ["@/graphql-system"], none⟩

def isSource (m : Marker) (source : String) : Bool :=
  m.importSources.any fun s => source = s || (s ++ "/").toList.isPrefixOf source.toList

/-- The names by which one file reaches the marker. -/
structure Scope where
  identifier : String
  locals : List String
  deriving DecidableEq, Repr

/-- Whatever a file imports from a marker source is a root. -/
def scope (m : Marker) (imports : List (String × List Specifier)) : Scope :=
  ⟨m.identifier, (imports.filter (m.isSource ·.1)).flatMap fun i => i.2.map (·.localName)⟩

namespace Scope

def isRoot (s : Scope) (name : String) : Bool := name = s.identifier || name ∈ s.locals

/-- Whether a called chain of members goes through the marker: it starts at a root, or the
identifier stands strictly inside it. -/
def matchesCallee (s : Scope) : List String → Bool
  | first :: second :: rest =>
    s.isRoot first || (second :: rest).dropLast.any (· = s.identifier)
  | _ => false

end Scope
end Marker
end StaticGql
