import StaticGql.Declaration
import StaticGql.Dict

/-!
The dependency graph: every declaration of a project with the declarations it refers to.
-/

namespace StaticGql

structure Graph where
  /-- Under the texts of their ids. -/
  declarations : Dict Declaration

namespace Graph

/-- Of two declarations with one id the later one counts. -/
def ofList (l : List Declaration) : Graph := ⟨.ofList (l.map fun d => (d.id.text, d))⟩

/-- The declarations in the order of their ids. -/
def toList (g : Graph) : List Declaration := g.declarations.values

def get? (g : Graph) (id : CanonicalId) : Option Declaration := g.declarations.get? id.text

def size (g : Graph) : Nat := g.declarations.size

def dependencies (g : Graph) (id : CanonicalId) : List CanonicalId :=
  ((g.get? id).map (·.references)).getD []

def dependents (g : Graph) (id : CanonicalId) : List CanonicalId :=
  (g.toList.filter fun d => id ∈ d.references).map (·.id)

def kind? (g : Graph) (id : CanonicalId) : Option Kind := (g.get? id).map (·.kind)

/-- Whether an id stands for a declaration whose cycles are errors. -/
def isComposable (g : Graph) (id : CanonicalId) : Bool := (g.kind? id).any (·.isComposable)

def declarationsIn (g : Graph) (file : String) : List Declaration :=
  g.toList.filter (·.file = file)

end Graph
end StaticGql
