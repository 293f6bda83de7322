import StaticGql.Analysis.OfEvents
import StaticGql.Scan.Call
import StaticGql.Scan.Clause

/-!
Walking through a forest. Just enough of the statements is recognised to know under which names an
expression stands; an expression is searched for marker calls piece by piece.
-/

namespace StaticGql.Scan.Walk

open Place

inductive Task where
  | expression (r : Range)
  /-- Statements up to the end of their level, and what stands behind that level. -/
  | statements (place : Place) (top : Bool) (behind : Place)

abbrev Part := Event ⊕ Task

/-- What one construct gives, and the place after it. -/
abbrev Step := List Part × Place

def expr (r : Range) : Part := .inr (.expression r)

def block (inner : List Piece) (behind : Place) : Part := .inr (.statements inner false behind)

def exportsName (name : String) : Part := .inl (.exported (.named name name))

def exportsDefault (name : Option String) : Part :=
  .inl (.exported (.named "default" (name.getD "default")))

def entering (name : String) (parts : List Part) : List Part :=
  .inl (.enter name) :: parts ++ [.inl .exit]

def bindingIf (top : Bool) (name : String) : List Part :=
  if top then [.inl (.binding name)] else []

/-- An expression up to the end of its statement. -/
def expressionStatement (place : Place) : Step :=
  let stop := statementEnd 0 false place
  ([expr ⟨place, stop.length⟩], stop.tail)

/-- Over everything up to a body in braces, and over that. -/
def skipBody (place : Place) : Place := (find 0 (at? .openBrace) place).tail

/-- One declarator after another; `fuel` bounds their number. -/
def declarators (top exported : Bool) : Nat → Place → Step
  | 0, place => ([], place)
  | fuel + 1, place =>
    let named : Option (Option String × Place) :=
      match place with
      | .token t :: rest => if t.kind = .word then some (some t.text, rest) else none
      | .group o _ _ :: rest =>
        if o.kind = .openBrace ∨ o.kind = .openBracket then some (none, rest) else none
      | [] => none
    match named with
    | none => ([], if at? .semicolon place then place.tail else place)
    | some (name, place) =>
      let place := if atOperator "!" place then place.tail else place
      let place :=
        if at? .colon place then
          find 0 (fun q => (kind? q).any (· ∈ [TokenKind.assign, .comma, .semicolon])) place.tail
        else place
      let bound : List Part :=
        match name with
        | some name => bindingIf top name ++ (if exported then [exportsName name] else [])
        | none => []
      let (value, place) : Step :=
        if at? .assign place then
          let stop := statementEnd 0 true place.tail
          let inside := [expr ⟨place.tail, stop.length⟩]
          (match name with
            | some name => entering name inside
            | none => .inl .enterAnonymous :: inside ++ [.inl .exit], stop)
        else ([], place)
      if at? .comma place then
        let (more, next) := declarators top exported fuel place.tail
        (bound ++ value ++ more, next)
      else (bound ++ value, if at? .semicolon place then place.tail else place)

/-- The declarators after a keyword. -/
def variableStatement (top exported : Bool) (place : Place) : Step :=
  declarators top exported place.length place

/-- Over the blocks that are types of what is returned. -/
def bodyBlock : Place → Place
  | .group o c inner :: rest =>
    if o.kind = .openBrace ∧ at? .openBrace rest then bodyBlock rest else .group o c inner :: rest
  | place => place

/-- Type parameters, parameters, the type returned and the body of a function. -/
def functionRest (after : Nat) (place : Place) : Step :=
  let place := skipTypeArguments place
  match group? .openParen place with
  | none => ([], place)
  | some (parameters, rest) =>
    let body := bodyBlock (find after (fun q => at? .openBrace q || at? .semicolon q) rest)
    match group? .openBrace body with
    | some (inner, next) => ([expr (.whole parameters), block inner next], next)
    | none =>
      ([expr (.whole parameters)], if at? .semicolon body then body.tail else body)

/-- A function declaration; `place` is behind its keyword. -/
def function (after : Nat) (top : Bool) (place : Place) : Step :=
  let place := Names.skipStar place
  match word? place with
  | some name =>
    let (parts, next) := functionRest after place.tail
    (bindingIf top name ++ entering name parts, next)
  | none => functionRest after place

def functionName? (place : Place) : Option String := word? (Names.skipStar place)

/-- The heritage and the body of a class; a class enters no name. -/
def classRest (after : Nat) (place : Place) : Step :=
  let body := find after (at? .openBrace) place
  if body.length ≤ after then ([expr ⟨place, body.length⟩], body)
  else
    match group? .openBrace body with
    | some (inner, next) => ([expr ⟨place, body.length⟩, block inner next], next)
    | none => ([expr ⟨place, body.length⟩], body)

def className? (place : Place) : Option String :=
  (word? place).filter fun w => w ≠ "extends" && w ≠ "implements"

/-- A class; `place` is behind its keyword. -/
def classDeclaration (after : Nat) (top : Bool) (place : Place) : Step :=
  match className? place with
  | some name =>
    let (parts, next) := classRest after place.tail
    (bindingIf top name ++ parts, next)
  | none => classRest after place

/-- The first block from here on, and the place after it. A block inside another group takes the
rest of that group along. -/
def firstBlock? : List Piece → Option (List Piece × Place)
  | [] => none
  | .token _ :: rest => firstBlock? rest
  | .group o c inner :: rest =>
    if o.kind = .openBrace then some (inner, rest)
    else
      match firstBlock? inner with
      | some (block, left) => some (block, left ++ .token c :: rest)
      | none => firstBlock? rest

def defaultValue (place : Place) : Step :=
  let place := if atWord "async" place && atWord "function" place.tail then place.tail else place
  let place := if atWord "abstract" place && atWord "class" place.tail then place.tail else place
  if atWord "function" place then
    let name := functionName? place.tail
    let (parts, next) := function 0 false place.tail
    (exportsDefault name :: (name.toList.flatMap (bindingIf true)) ++ parts, next)
  else if atWord "class" place then
    let name := className? place.tail
    let (parts, next) := classRest 0 (if name.isSome then place.drop 2 else place.tail)
    (exportsDefault name :: (name.toList.flatMap (bindingIf true)) ++ parts, next)
  else if atWord "interface" place && at? .word place.tail then
    ([exportsDefault (some (text place.tail))], skipBody place)
  else
    let stop := statementEnd 0 false place
    if at? .word place && stop.length + 1 = place.length then
      ([exportsDefault (some (text place))], stop.tail)
    else ([exportsDefault none, expr ⟨place, stop.length⟩], stop.tail)

def namedIf (name : Option String) : List Part := name.toList.map exportsName

def withName (name : Option String) (s : Step) : Step := (namedIf name ++ s.1, s.2)

/-- What follows the word `export`, unless it is a statement of another kind. -/
def exported? (top : Bool) (behind place : Place) : Option Step :=
  let place := if atWord "type" place && at? .openBrace place.tail then place.tail else place
  let place := if atWord "declare" place then place.tail else place
  match place with
  | .group o _ inner :: rest =>
    if o.kind = .openBrace then
      let (es, next) := Clause.exports inner rest
      some (es.map fun e => .inl (.exported e), next)
    else some ([], (statementEnd 0 false place).tail)
  | .token t :: rest =>
    if t.kind = .operator ∧ t.text = "*" then
      match Clause.exportAll? rest behind with
      | some (es, next) => some (es.map fun e => .inl (.exported e), next)
      | none => some ([], (statementEnd 0 false (Clause.behindAs rest [])).tail)
    else if t.kind ≠ .word then some ([], (statementEnd 0 false place).tail)
    else if t.text = "default" then
      let (parts, next) := defaultValue rest
      some (entering "default" parts, next)
    else if t.text = "const" ∧ atWord "enum" rest then
      some (withName (word? rest.tail) ([], skipBody place))
    else if t.text = "const" ∨ t.text = "let" ∨ t.text = "var" then some (variableStatement top true rest)
    else if t.text = "async" ∧ atWord "function" rest then
      some (withName (functionName? rest.tail) (function 0 top rest.tail))
    else if t.text = "function" then some (withName (functionName? rest) (function 0 top rest))
    else if t.text = "abstract" ∧ atWord "class" rest then
      some (withName (word? rest.tail) (classDeclaration 0 top rest.tail))
    else if t.text = "class" then some (withName (word? rest) (classDeclaration 0 top rest))
    else if t.text = "interface" ∨ t.text = "enum" then
      some (withName (word? rest) ([], skipBody place))
    else if t.text = "type" then
      some (withName (word? rest) ([], (statementEnd 0 false place).tail))
    else none
  | [] => some ([], [])

/-- The place of the statement that stands behind `export`. -/
def afterExport (place : Place) : Place :=
  let place := if atWord "type" place && at? .openBrace place.tail then place.tail else place
  if atWord "declare" place then place.tail else place

def conditionWords : List String := ["if", "while", "for", "switch", "with", "catch"]

/-- A statement that begins with the word `w` and is no export; `rest` is the place behind it. -/
def wordStatement (top : Bool) (w : String) (place rest : Place) : Step :=
  let named := (word? rest).isSome
  if w = "import" ∧ Clause.isImport place then
    match Clause.import? place with
    | some (_, _, next) => ([], next)
    | none => ([], (statementEnd 0 false place).tail)
  else if (w = "const" ∨ w = "let" ∨ w = "var") ∧
      (named ∨ at? .openBrace rest ∨ at? .openBracket rest) then variableStatement top false rest
  else if w = "async" ∧ atWord "function" rest then function 0 top rest.tail
  else if w = "function" then function 0 top rest
  else if w = "class" then classDeclaration 0 top rest
  else if (w = "declare" ∨ w = "abstract") ∧ named then ([], rest)
  else if (w = "interface" ∨ w = "enum") ∧ named then ([], skipBody place)
  else if w = "type" ∧ named then ([], (statementEnd 0 false place).tail)
  else if (w = "namespace" ∨ w = "module") ∧ (named ∨ at? .str rest) then
    match firstBlock? rest with
    | some (inner, next) => ([block inner next], next)
    | none => ([], [])
  else if w ∈ conditionWords ∧ at? .openParen rest then
    match group? .openParen rest with
    | some (inner, next) => ([expr (.whole inner)], next)
    | none => ([], rest)
  else if w = "for" ∧ atWord "await" rest ∧ at? .openParen rest.tail then
    match group? .openParen rest.tail with
    | some (inner, next) => ([expr (.whole inner)], next)
    | none => ([], rest)
  else if w ∈ ["else", "do", "try", "finally"] then ([], rest)
  else if w = "return" ∨ w = "throw" then expressionStatement rest
  else if w = "case" then
    let colon := find 0 (at? .colon) rest
    ([expr ⟨rest, colon.length⟩], colon.tail)
  else if at? .colon rest then ([], rest.tail)
  else expressionStatement place

/-- One statement of a level. -/
def statement (top : Bool) (behind : Place) : Place → Step
  | [] => ([], [])
  | .group o c inner :: rest =>
    if o.kind = .openBrace then ([block inner rest], rest)
    else expressionStatement (.group o c inner :: rest)
  | .token t :: rest =>
    if t.kind = .semicolon then ([], rest)
    else if t.kind ≠ .word then expressionStatement (.token t :: rest)
    else if t.text = "export" then
      match exported? top behind rest with
      | some step => step
      | none =>
        let next := afterExport rest
        if next.length < rest.length + 1 then statement false behind next else ([], rest)
    else wordStatement top t.text (.token t :: rest) rest
termination_by place => place.length
decreasing_by assumption

/-- An assignment to a property of `exports`: its name and the place of the equals sign. -/
def assignedExport? (t : Token) (rest : Place) : Option (String × Place) :=
  let (names, place) := chain rest
  if at? .assign place then
    match t.text :: names with
    | ["exports", name] | ["module", "exports", name] => some (name, place)
    | _ => none
  else none

def wordExpression (scope : Marker.Scope) (r : Range) (t : Token) (rest : Place) : Step :=
  if t.isMember then ([], rest)
  else
    match Call.marker? scope r.place with
    | some (e, next) => ([.inl e], next)
    | none =>
      match assignedExport? t rest with
      | some (name, place) =>
        let stop := statementEnd r.after true place.tail
        (.inl (.assignedExport name) :: entering name [expr ⟨place.tail, stop.length⟩], stop)
      | none =>
        if t.text = "function" then
          functionRest r.after (Names.skipWord (Names.skipStar rest))
        else if t.text = "class" then classDeclaration r.after false rest
        else ([], rest)

def keyedField (r : Range) (t : Token) (value : Range) : List Part :=
  match t.kind with
  | .word => entering t.text [expr value]
  | .str =>
    match Literal.string? t.text with
    | some key => entering key [expr value]
    | none => [expr value]
  | .number => [expr value]
  | _ => [expr r]

/-- One field of an object. -/
def field (r : Range) : List Part :=
  match r.place with
  | [] => []
  | .group o _ inner :: rest =>
    if o.kind = .openBracket ∧ at? .colon rest then
      [expr (.whole inner), expr ⟨rest.tail, r.after⟩]
    else [expr r]
  | .token t :: rest =>
    if t.kind = .ellipsis then [expr ⟨rest, r.after⟩]
    else if at? .colon rest then keyedField r t ⟨rest.tail, r.after⟩
    else [expr r]

def expressionStep (scope : Marker.Scope) (r : Range) : List Part :=
  if r.isEmpty then []
  else
    let (parts, next) : Step :=
      match r.place with
      | [] => ([], [])
      | .group o _ inner :: rest =>
        if o.kind = .openBrace then
          if o.opensObject then ((Range.whole inner).parts.flatMap field, rest)
          else ([block inner rest], rest)
        else ([expr (.whole inner)], rest)
      | .token t :: rest =>
        if t.kind = .word then wordExpression scope r t rest else ([], rest)
    parts ++ [expr ⟨next, r.after⟩]

/-- A statement always takes at least one piece. -/
def statementsStep (place : Place) (top : Bool) (behind : Place) : List Part :=
  match place with
  | [] => []
  | _ :: rest =>
    let (parts, next) := statement top behind place
    parts ++ [.inr (.statements
      (if Piece.sizes next < Piece.sizes place then next else rest) top behind)]

def step (scope : Marker.Scope) : Task → List Part
  | .expression r => expressionStep scope r
  | .statements place top behind => statementsStep place top behind

/-- What a forest reports. -/
def events (forest : List Piece) (scope : Marker.Scope) : List Event :=
  unfold (step scope) (2 * Piece.sizes forest + 2) (.statements forest true [])

end StaticGql.Scan.Walk

namespace StaticGql.Scan

/-- The analysis of a text by its tokens alone; the error is the offset of a bracket without a
partner. -/
def analyze (marker : Marker) (file text : String) : Except Nat Analysis :=
  (forest text).map fun f =>
    Analysis.ofEvents marker file text (Clause.imports (f.length + 1) f) (Walk.events f)

end StaticGql.Scan
