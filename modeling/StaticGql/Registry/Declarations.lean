import StaticGql.Element.OfDeclaration
import StaticGql.Graph
import StaticGql.Registry

/-!
Registering declarations whose values derive from themselves alone.
-/

namespace StaticGql

def Declaration.definition (d : Declaration) : Definition :=
  ⟨d.id, d.kind, d.references, d.factory⟩

namespace Registry

def addDeclarations (l : List Declaration) : Step Unit := l.forM fun d => add d.file d.definition

/-- Adds the declarations and evaluates them all. -/
def evaluateDeclarations (scheduler : Scheduler) (l : List Declaration) : Step (Build Nat) := do
  addDeclarations l
  evaluate scheduler

end Registry

/-- The elements of a graph; its declarations differ in their ids. -/
def Graph.evaluate (g : Graph) (scheduler : Scheduler) : Build (Dict Element) :=
  match (Registry.evaluateDeclarations scheduler g.toList).run.run .empty with
  | (.ok (.ok _), r) => .ok r.elements
  | (.ok (.error e), _) => .error e
  | (.error twice, _) => .error (.evaluationFailed twice.id "is declared twice")

end StaticGql
