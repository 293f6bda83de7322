import StaticGql.Config
import StaticGql.Scan.Walk
import StaticGql.Script.Walk

/-!
Reading a source file by any of the frontends.
-/

namespace StaticGql

/-- Why a text cannot be read. -/
inductive SourceError where
  /-- A bracket without a partner, with its offset. -/
  | unbalanced (offset : Nat)
  | notAProgram
  deriving DecidableEq, Repr

def SourceError.message : SourceError → String
  | unbalanced offset => s!"unbalanced bracket at byte {offset}"
  | notAProgram => "syntax error"

namespace Frontend

/-- Whether a file may hold elements in angle brackets. -/
def holdsElements (file : String) : Bool := file.endsWith ".tsx" || file.endsWith ".jsx"

/-- The analysis of the text of a file, whose path is normal. -/
def analyze (f : Frontend) (marker : Marker) (file text : String) : Except SourceError Analysis :=
  let read (form : Script.Form) : Except SourceError Analysis :=
    match Script.analyze? form (holdsElements file) marker file text with
    | some a => .ok a
    | none => .error .notAProgram
  match f with
  | .scanner => (Scan.analyze marker file text).mapError .unbalanced
  | .abstractTree => read .abstract
  | .concreteTree => read .concrete

end Frontend
end StaticGql
