import StaticGql.Scan.Forest

/-!
Looking at a level of a forest. A place is the list of the pieces from there to the end of its
level, so that one may always look further than the range in hand.
-/

namespace StaticGql.Scan

abbrev Place := List Piece

/-- A stretch of one level: the place where it begins and the number of pieces behind its end. -/
structure Range where
  place : Place
  after : Nat

namespace Range

def whole (inner : List Piece) : Range := ⟨inner, 0⟩

def isEmpty (r : Range) : Bool := r.place.length ≤ r.after

/-- The pieces of the stretch itself. -/
def pieces (r : Range) : List Piece := r.place.take (r.place.length - r.after)

end Range

namespace Place

def kind? : Place → Option TokenKind
  | [] => none
  | p :: _ => some p.head.kind

def text : Place → String
  | [] => ""
  | p :: _ => p.head.text

def at? (k : TokenKind) (place : Place) : Bool := kind? place = some k

def word? : Place → Option String
  | .token t :: _ => if t.kind = .word then some t.text else none
  | _ => none

def atWord (w : String) (place : Place) : Bool := word? place = some w

def atOperator (op : String) (place : Place) : Bool :=
  at? .operator place && text place = op

def isMember : Place → Bool
  | [] => false
  | p :: _ => p.head.isMember

def startsLine : Place → Bool
  | [] => false
  | p :: _ => p.head.startsLine

/-- A group and the place after it. -/
def group? (k : TokenKind) : Place → Option (List Piece × Place)
  | .group o _ inner :: rest => if o.kind = k then some (inner, rest) else none
  | _ => none

/-- The stretch cut at its commas; an empty last part does not count. -/
def cut (after : Nat) : Place → Place → List Range
  | start, [] => if after < start.length then [⟨start, after⟩] else []
  | start, p :: rest =>
    if rest.length < after then (if after < start.length then [⟨start, after⟩] else [])
    else if p.head.kind = .comma then ⟨start, rest.length + 1⟩ :: cut after rest rest
    else cut after start rest

/-- The place where a condition first holds, at the latest the end of the stretch. -/
def find (after : Nat) (p : Place → Bool) : Place → Place
  | [] => []
  | q :: rest =>
    if rest.length < after then q :: rest
    else if p (q :: rest) then q :: rest
    else find after p rest

def angles (text : String) : Int :=
  (text.toList.count '<' : Int) - (text.toList.count '>' : Int)

/-- The place after type arguments whose angle brackets balance. -/
def typeArgumentsFrom : Int → Place → Option Place
  | _, [] => none
  | depth, p :: rest =>
    match p with
    | .group _ _ _ => typeArgumentsFrom depth rest
    | .token t =>
      match t.kind with
      | .operator | .arrow =>
        let depth := depth + angles t.text
        if depth ≤ 0 then (if depth = 0 then some rest else none)
        else typeArgumentsFrom depth rest
      | .word | .dot | .comma | .str | .number | .colon | .question =>
        typeArgumentsFrom depth rest
      | _ => none

def typeArguments? (place : Place) : Option Place :=
  if at? .operator place && (text place).startsWith "<" then typeArgumentsFrom 0 place else none

/-- The place after type arguments, or the same place where there are none. -/
def skipTypeArguments (place : Place) : Place := (typeArguments? place).getD place

/-- Whether a return type leads to an arrow. -/
def arrowAfterType : Place → Bool
  | [] => false
  | .group _ _ _ :: rest => arrowAfterType rest
  | .token t :: rest =>
    match t.kind with
    | .arrow => true
    | .word | .dot | .operator | .str | .number => arrowAfterType rest
    | _ => false

/-- Whether the parentheses just before this place hold the parameters of an arrow function. -/
def afterArrowParameters : Place → Bool
  | .token t :: rest =>
    match t.kind with
    | .arrow => true
    | .colon => arrowAfterType rest
    | _ => false
  | _ => false

/-- The names of a chain `a.b.c` after its first, and the place behind it. -/
def chain : Place → List String × Place
  | .token d :: .token w :: rest =>
    if d.kind = .dot ∧ w.kind = .word then
      let (names, place) := chain rest
      (w.text :: names, place)
    else ([], .token d :: .token w :: rest)
  | place => ([], place)

end Place

def Range.parts (r : Range) : List Range := Place.cut r.after r.place r.place

def wordsBeforeObject : List String :=
  ["return", "default", "yield", "await", "typeof", "case", "in", "of", "throw", "void", "delete"]

/-- Whether an opening brace begins an object and no block. -/
def Token.opensObject (t : Token) : Bool :=
  match t.previousKind with
  | some .word => t.previousText ∈ wordsBeforeObject
  | some .assign | some .openParen | some .comma | some .colon | some .openBracket
  | some .question | some .ellipsis | some .operator => true
  | _ => false

def blockWords : List String :=
  ["const", "let", "var", "function", "class", "export", "import", "return"]

/-- A word that begins a statement where it begins a line. -/
def startsStatement (place : Place) : Bool :=
  match Place.word? place with
  | some w => w ∈ blockWords && Place.startsLine place && !Place.isMember place
  | none => false

/-- Where the statement that begins here ends: at a semicolon, at the next line that begins a
statement, or, if asked for, at a comma. -/
def statementEnd (after : Nat) (stopAtComma : Bool) : Place → Place
  | [] => []
  | p :: rest =>
    if rest.length < after then p :: rest
    else if p.head.kind = .semicolon || (stopAtComma && p.head.kind = .comma) then p :: rest
    else
      Place.find after
        (fun q => Place.at? .semicolon q || (stopAtComma && Place.at? .comma q) ||
          startsStatement q)
        rest

end StaticGql.Scan
