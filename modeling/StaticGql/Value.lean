import StaticGql.Artifact
import StaticGql.Effect

/-!
What a declaration evaluates to, and what it may look at meanwhile.
-/

namespace StaticGql

inductive Value where
  | element (e : Element)
  /-- The metadata of a `define`. -/
  | define (metadata : Json)

namespace Value

def element? : Value → Option Element
  | element e => some e
  | define _ => none

def kind : Value → Kind
  | element e => e.kind
  | define _ => .define

end Value

structure Context where
  id : CanonicalId
  /-- The values of the direct dependencies, in the order in which they are declared. -/
  dependencies : List (CanonicalId × Value)
  /-- The values of all dependencies but the declaration itself, by the texts of their ids. -/
  transitive : Dict Value

namespace Context

def directElements (c : Context) : List Element := c.dependencies.filterMap (·.2.element?)

def allElements (c : Context) : List Element := c.transitive.values.filterMap (·.element?)

end Context

/-- How a declaration is evaluated; it may be done again. -/
abbrev Factory := Context → Effect Value

end StaticGql
