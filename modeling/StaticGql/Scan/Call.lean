import StaticGql.Event
import StaticGql.Marker
import StaticGql.Scan.Names
import StaticGql.Scan.Options

/-!
Calls of the marker, and the builder calls that the functions passed to it yield.
-/

namespace StaticGql.Scan.Call

open Place

/-- What a function yields: the value of its body, or what the body returns first. -/
inductive Body where
  | block (inner : List Piece)
  | value (r : Range)

/-- A block if that is all there is, and a value otherwise. -/
def arrowBody? (r : Range) : Option Body :=
  if r.isEmpty then none
  else
    match group? .openBrace r.place with
    | some (inner, rest) => some (if rest.length = r.after then .block inner else .value r)
    | none => some (.value r)

/-- Over the blocks that are types of what is returned. -/
def lastBlock? (after : Nat) : Place → Option Body
  | .group o _ inner :: rest =>
    if o.kind = .openBrace then
      if rest.length = after then some (.block inner)
      else if after < rest.length then lastBlock? after rest
      else none
    else none
  | _ => none

/-- The body of a function expression; `place` is behind its keyword. -/
def functionBody? (after : Nat) (place : Place) : Option Body :=
  let place := skipTypeArguments (Names.skipWord (Names.skipStar place))
  match group? .openParen place with
  | none => none
  | some (_, rest) => lastBlock? after (find after (at? .openBrace) rest)

/-- The body of the function that a stretch consists of. -/
def body? (r : Range) : Option Body :=
  let place := r.place
  let place :=
    if atWord "async" place && !at? .arrow place.tail && r.after + 1 < place.length then place.tail
    else place
  if atWord "function" place then functionBody? r.after place.tail
  else
    let place := skipTypeArguments place
    match place with
    | .token t :: rest =>
      if t.kind = .word ∧ at? .arrow rest then arrowBody? ⟨rest.tail, r.after⟩ else none
    | .group o _ _ :: rest =>
      if o.kind = .openParen ∧ afterArrowParameters rest then
        arrowBody? ⟨(find r.after (at? .arrow) rest).tail, r.after⟩
      else none
    | [] => none

/-- What the first return statement of a block returns. -/
def firstReturn? : List Piece → Option Range
  | [] => none
  | .token t :: rest =>
    if t.kind = .word ∧ t.text = "return" ∧ !t.isMember then
      some ⟨rest, (statementEnd 0 false rest).length⟩
    else firstReturn? rest
  | _ :: rest => firstReturn? rest

/-- A stretch without the parentheses around it. -/
def unwrap : Nat → Range → Range
  | 0, r => r
  | fuel + 1, r =>
    match group? .openParen r.place with
    | some (inner, rest) =>
      if rest.length = r.after then unwrap fuel (Range.whole inner) else r
    | none => r

def noChain : CallShape := .builder none []

def options (arguments : List Piece) : List (String × Json) :=
  match (Range.whole arguments).parts with
  | r :: _ =>
    match group? .openBrace r.place with
    | some (inner, rest) => if rest.length = r.after then Piece.objectFields inner else []
    | none => []
  | [] => []

/-- The builder call that a stretch consists of. -/
def builder (r : Range) : CallShape :=
  let r := unwrap (Piece.sizes r.place + 1) r
  match r.place with
  | .token t :: rest =>
    if t.kind = .word ∧ t.text ≠ "this" ∧ t.text ≠ "super" ∧ t.text ≠ "new" then
      let (names, place) := chain rest
      match group? .openParen (skipTypeArguments place) with
      | some (arguments, rest) =>
        if rest.length = r.after then .builder (some (t.text :: names)) (options arguments)
        else noChain
      | none => noChain
    else noChain
  | _ => noChain

def shape (arguments : List Piece) : CallShape :=
  match (Range.whole arguments).parts with
  | [r] =>
    match body? r with
    | some (.block inner) =>
      match firstReturn? inner with
      | some r => builder r
      | none => noChain
    | some (.value r) => builder r
    | none => .notAFunction
  | _ => .notAFunction

/-- The marker call that begins at a place, and the place after it. -/
def marker? (scope : Marker.Scope) (place : Place) : Option (Event × Place) :=
  match place with
  | .token t :: rest =>
    if t.text ∈ ["this", "super", "new", "function"] ∨ t.follows "new" ∨ t.follows "function" then
      none
    else
      let (names, callee) := chain rest
      match skipTypeArguments callee with
      | .group o c inner :: next =>
        if o.kind ≠ .openParen then none
        else if names.isEmpty then
          if scope.isRoot t.text then some (.directCall t.start c.stop, next) else none
        else if scope.matchesCallee (t.text :: names) then
          some (.call (t.text :: names) (shape inner) (Names.ofRange ⟨place, next.length⟩)
            t.start c.stop, next)
        else none
      | _ => none
  | _ => none

end StaticGql.Scan.Call
