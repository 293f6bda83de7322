import StaticGql.Scan.Range
import StaticGql.Unfold

/-!
The words of a stretch that may refer to something: no property names, no parameters, no names
that are declared there, no labels and no types.
-/

namespace StaticGql.Scan.Names

open Place

/-- Words that never refer to a binding of the module. -/
def reserved : List String :=
  ["this", "super", "new", "typeof", "void", "delete", "instanceof", "in", "of", "return", "if",
    "else", "true", "false", "null", "undefined", "await", "yield", "async", "import", "export",
    "default", "case", "switch", "for", "while", "do", "break", "continue", "throw", "try",
    "catch", "finally", "extends", "static"]

inductive Task where
  | stretch (r : Range)
  /-- The inside of an object. -/
  | object (inner : List Piece)

abbrev Step := List (String ⊕ Task)

def skipStar (place : Place) : Place := if atOperator "*" place then place.tail else place

def skipWord (place : Place) : Place := if (word? place).isSome then place.tail else place

/-- The place after a type annotation, which ends at one of the given kinds. -/
def skipAnnotation (after : Nat) (stops : List TokenKind) (place : Place) : Place :=
  if at? .colon place then
    find after (fun q => (kind? q).any (· ∈ stops)) place
  else place

/-- After the keyword of a declaration of variables: over the first name or pattern and its type. -/
def afterVariable (after : Nat) (place : Place) : Place :=
  let place :=
    match place with
    | .group _ _ _ :: rest => rest
    | place => skipWord place
  skipAnnotation after [.assign, .semicolon, .comma] place

/-- After the keyword of a function: up to its body. -/
def afterFunction (after : Nat) (place : Place) : Place :=
  let place := skipTypeArguments (skipWord (skipStar place))
  let place :=
    match group? .openParen place with
    | some (_, rest) => rest
    | none => place
  skipAnnotation after [.openBrace] place

def beforeCast : List TokenKind :=
  [.word, .closeParen, .closeBracket, .closeBrace, .str, .number]

/-- After `as` or `satisfies`: over a plain type with its arguments. -/
def afterCast (after : Nat) (place : Place) : Place :=
  skipTypeArguments (find after (fun q => !((word? q).isSome || at? .dot q)) place)

/-- What the word `t` refers to, and the place to go on from; `rest` is the place behind it. -/
def ofWord (after : Nat) (t : Token) (rest : Place) : List String × Place :=
  if t.isMember then ([], rest)
  else if t.text = "const" ∨ t.text = "let" ∨ t.text = "var" then ([], afterVariable after rest)
  else if t.text = "function" then ([], afterFunction after rest)
  else if t.text = "class" then
    ([], if (word? rest).isSome ∧ !atWord "extends" rest then rest.tail else rest)
  else if (t.text = "as" ∨ t.text = "satisfies") ∧ t.previousKind.any (· ∈ beforeCast) then
    ([], afterCast after rest)
  else if t.text ∈ reserved then ([], rest)
  else if at? .arrow rest then ([], rest)
  else if at? .colon rest ∧
      (t.previousKind = some .openBrace ∨ t.previousKind = some .semicolon) then
    ([], rest.tail)
  else ([t.text], rest)

def go (after : Nat) (place : Place) : Step := [.inr (.stretch ⟨place, after⟩)]

def stretchStep (r : Range) : Step :=
  if r.isEmpty then []
  else
    match r.place with
    | [] => []
    | .group o _ inner :: rest =>
      let inside : Step :=
        match o.kind with
        | .openParen =>
          if afterArrowParameters rest || o.follows "catch" then []
          else go 0 inner
        | .openBrace => if o.opensObject then [.inr (.object inner)] else go 0 inner
        | _ => go 0 inner
      inside ++ go r.after rest
    | .token t :: rest =>
      if t.kind = .word then
        let (names, next) := ofWord r.after t rest
        names.map .inl ++ go r.after next
      else if t.kind = .operator ∧ t.text.startsWith "<" then
        match typeArguments? r.place with
        | some next => go r.after (if at? .openParen next then next else rest)
        | none => go r.after rest
      else go r.after rest

/-- A method: its key and its parameters are passed over. -/
def methodStep (r : Range) : Step :=
  let paren := find r.after (at? .openParen) r.place
  let place := if paren.length ≤ r.after then paren else paren.tail
  let body := find r.after (at? .openBrace) place
  if body.length ≤ r.after then []
  else
    match group? .openBrace body with
    | some (inner, _) => go 0 inner
    | none => []

def fieldStep (r : Range) : Step :=
  match r.place with
  | [] => []
  | .group o _ inner :: rest =>
    if o.kind = .openBracket ∧ at? .colon rest then go 0 inner ++ go r.after rest.tail
    else methodStep r
  | .token t :: rest =>
    if t.kind = .ellipsis then go r.after rest
    else if (t.kind = .word ∨ t.kind = .str ∨ t.kind = .number) ∧ at? .colon rest then
      go r.after rest.tail
    else if t.kind = .word ∧ rest.length = r.after then
      if t.text ∈ reserved then [] else [.inl t.text]
    else methodStep r

def step : Task → Step
  | .stretch r => stretchStep r
  | .object inner => (Range.whole inner).parts.flatMap fieldStep

/-- The names in a stretch, in the order in which they stand. -/
def ofRange (r : Range) : List String := unfold step (Piece.sizes r.place + 1) (.stretch r)

end StaticGql.Scan.Names
