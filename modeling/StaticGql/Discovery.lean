import StaticGql.BuildError
import StaticGql.Config
import StaticGql.Glob
import StaticGql.Path

/-!
Discovery: which files of a project a build starts from, and which it never reads.
-/

namespace StaticGql

structure Discovery where
  root : String
  entries : List Glob
  exclude : List Glob

namespace Discovery

def ofPatterns (root : String) (entries exclude : List String) : Build Discovery := do
  let entries ← (Glob.parseAll entries).mapError .configuration
  let exclude ← (Glob.parseAll exclude).mapError .configuration
  return ⟨root, entries, exclude⟩

def ofProject (p : ProjectConfig) : Build Discovery := ofPatterns p.root p.entries p.exclude

variable (d : Discovery)

/-- What globs are matched against; a path outside the root stays whole. -/
def relative (path : String) : String := (Path.below? d.root path).getD path

def isExcluded (path : String) : Bool := d.exclude.any (·.accepts (d.relative path))

def isEntry (path : String) : Bool :=
  d.entries.any (·.accepts (d.relative path)) && !d.isExcluded path

end Discovery
end StaticGql
