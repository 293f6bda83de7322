import StaticGql.Literal
import StaticGql.Scan.Range

/-!
Literal values among pieces: what of an object can be known without running the program.
-/

namespace StaticGql.Scan

/-- A piece as a part of a value. -/
inductive Item where
  | token (t : Token)
  | object (fields : List (String × Json))
  | list (items : Option (List Json))
  | other

namespace Item

def isComma : Item → Bool
  | token t => t.kind = .comma
  | _ => false

/-- The items between commas; an empty last part does not count. -/
def cut : List Item → List (List Item)
  | [] => []
  | i :: rest =>
    if i.isComma then [] :: cut rest
    else
      match cut rest with
      | [] => [[i]]
      | part :: parts => (i :: part) :: parts

def tokenValue? (t : Token) : Option Json :=
  match t.kind with
  | .str => (Literal.string? t.text).map .str
  | .number => (Literal.number? t.text).bind Literal.numberJson?
  | .word =>
    if t.text = "true" then some (.bool true)
    else if t.text = "false" then some (.bool false)
    else if t.text = "null" then some .null
    else none
  | _ => none

def value? : List Item → Option Json
  | [token t] => tokenValue? t
  | [token sign, token t] =>
    if sign.kind = .operator ∧ sign.text = "-" ∧ t.kind = .number then
      (Literal.number? t.text).bind fun x => Literal.numberJson? x.neg
    else none
  | [object fields] => some (.obj fields)
  | [list items] => items.map .arr
  | _ => none

def key? (t : Token) : Option String :=
  match t.kind with
  | .word => some t.text
  | .str => Literal.string? t.text
  | _ => none

/-- A field with a plain key and a literal value. -/
def field? : List Item → Option (String × Json)
  | token k :: token c :: value =>
    if c.kind = .colon then do
      let key ← key? k
      let v ← value? value
      some (key, v)
    else none
  | _ => none

def fields (items : List Item) : List (String × Json) :=
  ((cut items).filterMap field?).foldl (fun acc f => Json.insertField f.1 f.2 acc) []

end Item

namespace Piece

mutual

def item : Piece → Item
  | token t => .token t
  | group o _ inner =>
    match o.kind with
    | .openBrace => .object (Item.fields (items inner))
    | .openBracket => .list ((Item.cut (items inner)).mapM Item.value?)
    | _ => .other

def items : List Piece → List Item
  | [] => []
  | p :: ps => item p :: items ps

end

/-- The literal fields of the object between two braces. -/
def objectFields (inner : List Piece) : List (String × Json) := Item.fields (items inner)

end Piece
end StaticGql.Scan
