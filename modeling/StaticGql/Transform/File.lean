import StaticGql.Frontend
import StaticGql.Transform.Plan

/-!
The transform of one source file.
-/

namespace StaticGql.Transform

/-- What stops the transform of a file. -/
inductive Failure where
  | source (e : SourceError)
  | id (e : IdError)
  deriving DecidableEq, Repr

structure Output where
  code : String
  transformed : Bool
  /-- The calls that were left alone. -/
  errors : List SiteError
  deriving DecidableEq, Repr

/-- A module without content. -/
def stub : Output := ⟨"export \x7b\x7d;\n", true, []⟩

def ofPlan (p : Plan) (text : String) : Output :=
  if p.substitutions.isEmpty then ⟨text, false, p.errors⟩ else ⟨p.apply text, true, p.errors⟩

/-- The text of the file at a normal path with its calls replaced. The generated file that the
marker comes from is emptied without being read. -/
def file (f : Frontend) (a : Artifact) (o : Options) (path text : String) :
    Except Failure Output :=
  if o.systemPath = some path then .ok stub
  else do
    let analysis ← (f.analyze o.marker path text).mapError .source
    let plan ← (Plan.build analysis a o).mapError .id
    return ofPlan plan text

end StaticGql.Transform
