import StaticGql.Script.Cursor

/-!
The constructs of the language that contain one another. Each module of the grammar reads its
constructs given a way to read these.
-/

namespace StaticGql.Script

/-- Where an expression stands. -/
structure Place where
  /-- In the head of a loop, where `in` ends it. -/
  noIn : Bool
  /-- Between a question mark and its colon, where a colon gives no type to an arrow. -/
  bareArrows : Bool

def Place.plain : Place := ⟨false, false⟩

inductive Goal where
  | assignment (place : Place)
  | operand
  /-- An operand without signs before or behind it. -/
  | head
  | type
  | binding
  | element
  | statement

abbrev Reader := Goal → Parse Tree

namespace Grammar

open Parse

variable (sub : Reader)

def assigned : Parse Tree := sub (.assignment .plain)

/-- The names for values in a type. -/
def typeNames : Parse (List Tree) := (·.children) <$> sub .type

/-- A type, whatever it says. -/
def skipType : Parse Unit := discard (sub .type)

/-- A type behind a colon. -/
def ofType : Parse Unit := do
  sign ":"
  skipType sub

def ofType? : Parse Unit := discard (optional (ofType sub))

/-- The marks of variance and the bounds of type parameters are passed over. -/
def typeParameter : Parse Unit := do
  discard <| many do
    discard (keywords ["const", "in", "out"])
    require (← ahead word)
  discard name
  discard <| optional do
    keyword "extends"
    skipType sub
  discard <| optional do
    sign "="
    skipType sub

def typeParameters : Parse Unit := do
  char '<'
  discard (commas (char '>') (typeParameter sub))

def typeParameters? : Parse Unit := discard (optional (typeParameters sub))

def typeArgumentsTo (stop : Parse Unit) : Parse Unit := do
  char '<'
  discard (commas stop (skipType sub))

def typeArguments : Parse Unit := typeArgumentsTo sub (char '>')

def typeArguments? : Parse Unit := discard (optional (typeArguments sub))

def bracketed : Parse Tree := do
  sign "["
  let e ← assigned sub
  sign "]"
  pure e

/-- The key of a property. -/
def key : Parse Tree :=
  (named .propertyName do pure (← word, []))
    <|> (named .quoted do pure (← quoted, []))
    <|> (named .number do pure (← number, []))
    <|> (tree .computed do pure [← bracketed sub])
    <|> (tree .atom do char '#'; discard word; pure [])

def default? (target : Tree) (start : Cursor) : Parse Tree := do
  let value ← optional do
    sign "="
    assigned sub
  match value with
  | some value => close start .pattern "" [target, value]
  | none => pure target

/-! ### Patterns -/

def withDefault (p : Parse Tree) : Parse Tree := do
  let start ← cursor
  default? sub (← p) start

def restPattern : Parse Tree :=
  tree .pattern do
    sign "..."
    pure [← sub .binding]

def hole : Parse (List Tree) := do
  sign ","
  pure []

/-- The entries between brackets; a hole among them leaves nothing. -/
def entries (p : Parse Tree) : Parse (List Tree) := do
  let groups ← upTo (sign "]") <| hole <|> do
    let e ← p
    let comma ← optional (sign ",")
    require (comma.isSome || (← ahead (sign "]")))
    pure [e]
  pure groups.flatten

def propertyPattern : Parse Tree :=
  restPattern sub
    <|> (tree .patternPair do
      let k ← key sub
      sign ":"
      pure [k, ← withDefault sub (sub .binding)])
    <|> (named .shorthandTarget do
      let n ← name
      let value ← optional do
        sign "="
        assigned sub
      pure (n, value.toList))

def binding : Parse Tree :=
  (tree .pattern do
    sign "["
    entries (restPattern sub <|> withDefault sub (sub .binding)))
    <|> (tree .pattern do
      sign "\x7b"
      commas (sign "\x7d") (propertyPattern sub))
    <|> (named .bindingName do pure (← name, []))

/-! ### Parameters -/

def decorator (node : Node) : Parse Tree :=
  tree node do
    sign "@"
    pure [← sub .head]

def parameterModifiers : List String :=
  ["public", "private", "protected", "readonly", "override"]

def receiver : Parse (List Tree) := do
  keyword "this"
  ofType? sub
  pure []

def parameter : Parse (List Tree) := do
  let decorators ← many (decorator sub .decorator)
  discard <| many do
    discard (keywords parameterModifiers)
    require (← ahead (sub .binding))
  let parameter ← receiver sub <|> do
    let start ← cursor
    let target ← restPattern sub <|> sub .binding
    discard (optional (sign "?"))
    ofType? sub
    pure [← default? sub target start]
  pure (decorators ++ parameter)

def parameters (node : Node) : Parse Tree :=
  tree node do
    sign "("
    let groups ← commas (sign ")") (parameter sub)
    pure groups.flatten

def block : Parse Tree :=
  tree .block do
    sign "\x7b"
    upTo (sign "\x7d") (sub .statement)

/-- Parameters and body of a function; a body may be missing where only its type is declared. -/
def functionRest : Parse (List Tree) := do
  typeParameters? sub
  let ps ← parameters sub .parameters
  ofType? sub
  let body ← (some <$> block sub) <|> (do semicolon; pure none)
  pure (ps :: body.toList)

end Grammar
end StaticGql.Script
