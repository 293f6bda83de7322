import StaticGql.Analysis

/-!
What a reading of a source file reports, in the order in which it comes upon it. Analyses are
computed from these reports alone, so two readings that report alike agree.
-/

namespace StaticGql

/-- What stands inside a marker call. -/
inductive CallShape where
  /-- Not exactly one function is passed. -/
  | notAFunction
  /-- The function yields the call of a plain chain of names with literal options, or else
  something that is no such call. -/
  | builder (callee : Option (List String)) (options : List (String × Json))

inductive Event where
  /-- A name bound at the top of the module. -/
  | binding (name : String)
  | exported (e : Export)
  /-- A property of `exports` or of `module.exports` is assigned. -/
  | assignedExport (name : String)
  | enter (segment : String)
  | enterAnonymous
  | exit
  /-- The marker itself is called. -/
  | directCall (start stop : Nat)
  /-- A member of the marker is called; the names in it are all that may refer to something. -/
  | call (callee : List String) (shape : CallShape) (names : List String) (start stop : Nat)

/-- An import statement with its range of bytes. -/
structure ImportEvent where
  source : String
  specifiers : List Specifier
  start : Nat
  stop : Nat
  deriving DecidableEq, Repr

end StaticGql
