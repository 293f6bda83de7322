import StaticGql.BuildError
import StaticGql.Graph

/-!
Cycles of references among declarations that are composed into one another, found by a search
that goes on from each declaration to those it refers to.

What has to hold of a graph before its declarations are evaluated: no cycle among composed
declarations, and no two operations of one name.
-/

namespace StaticGql.Graph

/-- A list of texts comes before another as in a dictionary. -/
def idsLe : List CanonicalId → List CanonicalId → Bool
  | [], _ => true
  | _ :: _, [] => false
  | a :: l, b :: m => a.text < b.text || (a = b && idsLe l m)

def smallest : CanonicalId → List CanonicalId → CanonicalId
  | a, [] => a
  | a, b :: l => smallest (if b.text < a.text then b else a) l

/-- A cycle begun at its smallest member. -/
def rotated (cycle : List CanonicalId) : List CanonicalId :=
  match cycle with
  | [] => []
  | a :: l =>
    let least := smallest a l
    cycle.dropWhile (· ≠ least) ++ cycle.takeWhile (· ≠ least)

/-- What the search has seen. -/
structure Search where
  visited : List CanonicalId
  cycles : List (List CanonicalId)

variable (g : Graph)

/-- One reference from the first declaration of `path`: it closes a cycle, leads to what was
visited, or is gone along. -/
def alongReference (next : List CanonicalId → CanonicalId → Search → Search)
    (path : List CanonicalId) (s : Search) (id : CanonicalId) : Search :=
  if !g.isComposable id then s
  else if id ∈ path then
    { s with cycles := rotated (id :: (path.takeWhile (· ≠ id)).reverse) :: s.cycles }
  else if id ∈ s.visited then s
  else next path id s

/-- The search from a declaration not yet visited; `path` leads to it, the last step first. It
never gets longer than there are declarations. -/
def visit : Nat → List CanonicalId → CanonicalId → Search → Search
  | 0, _, _, s => s
  | fuel + 1, path, id, s =>
    (g.dependencies id).foldl (g.alongReference (visit fuel) (id :: path))
      { s with visited := id :: s.visited }

def searchFrom (s : Search) (id : CanonicalId) : Search :=
  if id ∈ s.visited || !g.isComposable id then s else g.visit (g.size + 1) [] id s

/-- Every cycle that the search meets, each once, in order. -/
def cycles : List (List CanonicalId) :=
  let s := (g.toList.map (·.id)).foldl g.searchFrom ⟨[], []⟩
  s.cycles.eraseDups.mergeSort idsLe

end StaticGql.Graph

namespace StaticGql.Graph

variable (g : Graph)

/-- The operations under their names, wherever they are declared. -/
def operationsByName : Dict (List CanonicalId) :=
  g.toList.foldl (fun acc d =>
    match d.operationName? with
    | some name => acc.insert name ((acc.get? name).getD [] ++ [d.id])
    | none => acc) ∅

/-- The names that several operations share. -/
def duplicates : List (String × List CanonicalId) :=
  g.operationsByName.toList.filter fun (_, ids) => 1 < ids.length

def faults : List BuildError :=
  g.cycles.map .circularDependency ++ g.duplicates.map fun (name, ids) => .duplicateDocument name ids

/-- The first fault ends a build. -/
def check : Build Unit :=
  match g.faults with
  | [] => .ok ()
  | e :: _ => .error e

end StaticGql.Graph
