import StaticGql.Scan.Range

/-!
What a forest tells about each of its tokens, by their numbers.
-/

namespace StaticGql.Scan

/-- A level of a forest with the number of the token behind it. -/
structure Level where
  place : Place
  stop : Nat

mutual

/-- The levels inside a piece. -/
def levelsOf : Piece → List Level
  | .token _ => []
  | .group _ c inner => ⟨inner, c.index⟩ :: levelsIn inner

def levelsIn : List Piece → List Level
  | [] => []
  | p :: ps => levelsOf p ++ levelsIn ps

end

namespace Level

def indexAt (stop : Nat) : Place → Nat
  | [] => stop
  | p :: _ => p.head.index

def places : Place → List Place
  | [] => []
  | p :: ps => (p :: ps) :: places ps

def groups (l : Level) : List (Token × Token × List Piece × Place) :=
  (places l.place).filterMap fun
    | .group o c inner :: rest => some (o, c, inner, rest)
    | _ => none

/-- A stretch of the level as the numbers of its first token and of the one behind it. -/
def bounds (l : Level) (r : Range) : Nat × Nat :=
  (indexAt l.stop r.place, indexAt l.stop (r.place.drop (r.place.length - r.after)))

end Level

structure Survey where
  levels : List Level

namespace Survey

def ofForest (forest : List Piece) : Survey :=
  ⟨⟨forest, (Piece.allTokens forest).length⟩ :: levelsIn forest⟩

variable (s : Survey)

/-- Every bracket with its partner. -/
def partners : List (Nat × Nat) :=
  s.levels.flatMap fun l => l.groups.flatMap fun (o, c, _) => [(o.index, c.index), (c.index, o.index)]

/-- The places at which type arguments begin, with the token after them. -/
def typeArguments : List (Nat × Nat) :=
  s.levels.flatMap fun l => (Level.places l.place).filterMap fun place =>
    (Place.typeArguments? place).map fun next =>
      (Level.indexAt l.stop place, Level.indexAt l.stop next)

/-- The parentheses that close the parameters of arrow functions. -/
def arrowParameters : List Nat :=
  s.levels.flatMap fun l => l.groups.filterMap fun (o, c, _, rest) =>
    if o.kind = .openParen ∧ Place.afterArrowParameters rest then some c.index else none

def objects : List Nat :=
  s.levels.flatMap fun l => l.groups.filterMap fun (o, _) =>
    if o.kind = .openBrace ∧ o.opensObject then some o.index else none

/-- The parts between the commas of a level. -/
def splits (l : Level) : List (Nat × Nat) := (Range.whole l.place).parts.map l.bounds

def groupSplits : List (Nat × List (Nat × Nat)) :=
  s.levels.flatMap fun l => l.groups.map fun (o, c, inner, _) => (o.index, splits ⟨inner, c.index⟩)

end Survey
end StaticGql.Scan
