import StaticGql.Analysis
import StaticGql.Artifact

/-!
The assembly of an artifact: warnings and counts are gathered while a build runs, and put with the
elements at its end.
-/

namespace StaticGql

namespace Warning

/-- What stands where a warning names no file comes first. -/
def fileLe : Option String → Option String → Bool
  | none, _ => true
  | some _, none => false
  | some a, some b => a ≤ b

/-- By file, then by code, then by text. -/
def le (a b : Warning) : Bool :=
  if a.file = b.file then a.code < b.code || (a.code = b.code && a.message ≤ b.message)
  else fileLe a.file b.file

def ofDiagnostic (file : String) (d : Diagnostic) : Warning :=
  ⟨d.code.name, s!"{d.message} ({file}:{d.span.line}:{d.span.column})", some file, none⟩

end Warning

/-- What came of one file that was read. -/
inductive Reading where
  | hit
  | miss
  | skip
  deriving DecidableEq, Repr

structure Assembly where
  warnings : List Warning
  stats : CacheStats
  deriving DecidableEq, Repr

namespace Assembly

def start : Assembly := ⟨[], .zero⟩

variable (a : Assembly)

def warn (w : Warning) : Assembly := { a with warnings := a.warnings ++ [w] }

def addDiagnostics (analysis : Analysis) : Assembly :=
  { a with warnings :=
      a.warnings ++ analysis.diagnostics.map (Warning.ofDiagnostic analysis.file) }

def record : Reading → Assembly
  | .hit => { a with stats := { a.stats with hits := a.stats.hits + 1 } }
  | .miss => { a with stats := { a.stats with misses := a.stats.misses + 1 } }
  | .skip => { a with stats := { a.stats with skips := a.stats.skips + 1 } }

/-- Warnings that compare equal stay in the order in which they came. -/
def finish (elements : Dict Element) : Artifact :=
  ⟨elements, ⟨0, a.warnings.mergeSort Warning.le, a.stats⟩⟩

end Assembly
end StaticGql
