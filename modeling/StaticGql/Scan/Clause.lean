import StaticGql.Event
import StaticGql.Literal
import StaticGql.Scan.Range

/-!
Import statements, and the clauses of export statements.
-/

namespace StaticGql.Scan.Clause

open Place

/-- A word or a string that names what is imported or exported. -/
def bindingName? (place : Place) : Option String :=
  if at? .word place then some (text place)
  else if at? .str place then Literal.string? (text place)
  else none

/-- After the source of an import or export: attributes and a semicolon. -/
def tail (place : Place) : Place :=
  let place :=
    if (atWord "with" place || atWord "assert" place) && !startsLine place then
      match group? .openBrace place.tail with
      | some (_, rest) => rest
      | none => place
    else place
  if at? .semicolon place then place.tail else place

/-- `[type] name [as local]` -/
def specifier? (part : List Piece) : Option Specifier := do
  let part := if atWord "type" part && 1 < part.length then part.tail else part
  let imported ← bindingName? part
  let localName := if atWord "as" part.tail && 2 < part.length then text (part.drop 2) else imported
  some ⟨localName, imported⟩

/-- Whether a statement that begins with the word `import` is an import. -/
def isImport (place : Place) : Bool :=
  atWord "import" place && !isMember place && !at? .openParen place.tail && !at? .dot place.tail

/-- Over the keyword `type` of an import of types. -/
def skipType (place : Place) : Place :=
  if atWord "type" place && !(atWord "from" place.tail && at? .str (place.drop 2)) &&
      (at? .word place.tail || at? .openBrace place.tail || at? .operator place.tail) then
    place.tail
  else place

/-- The default name of an import, if there is one, and the place after its comma; none for
`import x = …`. -/
def defaultName? (place : Place) : Option (List Specifier × Place) :=
  if at? .word place && !atWord "from" place then
    if at? .assign place.tail then none
    else
      let rest := place.tail
      some ([⟨text place, "default"⟩], if at? .comma rest then rest.tail else rest)
  else some ([], place)

def otherNames? (place : Place) : Option (List Specifier × Place) :=
  if atOperator "*" place then
    if atWord "as" place.tail && at? .word (place.drop 2) then
      some ([⟨text (place.drop 2), "*"⟩], place.drop 3)
    else none
  else
    match group? .openBrace place with
    | some (inner, rest) =>
      some ((Range.whole inner).parts.filterMap fun r => specifier? r.pieces, rest)
    | none => some ([], place)

/-- The source and the names of the import at a place, and the place after it. -/
def import? (place : Place) : Option (String × List Specifier × Place) := do
  let place := place.tail
  if at? .str place then
    let source ← Literal.string? (text place)
    some (source, [], tail place.tail)
  else
    let (first, place) ← defaultName? (skipType place)
    let (others, place) ← otherNames? place
    if atWord "from" place && at? .str place.tail then
      let source ← Literal.string? (text place.tail)
      some (source, first ++ others, tail (place.drop 2))
    else none

/-- The end of the last piece before `next`. -/
def stopBefore (place next : Place) : Nat :=
  match (place.take (place.length - next.length)).getLast? with
  | some p => p.last.stop
  | none => 0

/-- The imports of a module, in their order. -/
def imports : Nat → Place → List ImportEvent
  | 0, _ => []
  | _, [] => []
  | fuel + 1, p :: rest =>
    if isImport (p :: rest) then
      match import? (p :: rest) with
      | some (source, specifiers, next) =>
        ⟨source, specifiers, p.head.start, stopBefore (p :: rest) next⟩ :: imports fuel next
      | none => imports fuel rest
    else imports fuel rest

/-- `name [as exported]`, passed on from a source if there is one. -/
def exportOf? (source : Option String) (part : List Piece) : Option Export := do
  let part := if atWord "type" part && 1 < part.length then part.tail else part
  let localName ← bindingName? part
  let exported :=
    if atWord "as" part.tail && 2 < part.length then (bindingName? (part.drop 2)).getD localName
    else localName
  some (match source with
    | some source => .reExport exported localName source
    | none => .named exported localName)

/-- The exports of a clause in braces, and the place after the statement. -/
def exports (inner : List Piece) (rest : Place) : List Export × Place :=
  let sourced := atWord "from" rest && at? .str rest.tail
  let source := if sourced then Literal.string? (text rest.tail) else none
  ((Range.whole inner).parts.filterMap fun r => exportOf? source r.pieces,
    tail (if sourced then rest.drop 2 else rest))

/-- The place behind one more token, whatever it is: inside a group, or behind the level if that ends here. -/
def behindToken (behind : Place) : Place → Place
  | [] => behind
  | .token _ :: rest => rest
  | .group _ c inner :: rest => inner ++ .token c :: rest

/-- Over `as` and the token that follows it, whether or not that is a name. -/
def behindAs (rest behind : Place) : Place := if atWord "as" rest then behindToken behind rest.tail else rest

/-- The export of everything after its star; none where no source follows. Where a level ends just
after `as`, its closing bracket is taken for the name, and the source may stand `behind` it. -/
def exportAll? (rest behind : Place) : Option (List Export × Place) :=
  let name := if atWord "as" rest then bindingName? rest.tail else none
  let source := behindAs rest behind
  if atWord "from" source && at? .str source.tail then
    let e := (Literal.string? (text source.tail)).map fun source =>
      match name with
      | some exported => Export.reExport exported "*" source
      | none => .reExportAll source
    some (e.toList, tail ((behindAs rest []).drop 2))
  else none

end StaticGql.Scan.Clause
