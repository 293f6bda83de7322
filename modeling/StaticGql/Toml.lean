import StaticGql.Json.Basic
import StaticGql.Text.Split

/-!
TOML values. A document is a table.

TOML as text: the plain fields of a table on a line each, then its tables under their headers.
Strings stand on one line and keep only characters that need no escape as they are.
-/

namespace StaticGql

inductive Toml where
  | str (value : String)
  | int (value : Int)
  | real (value : Binary64)
  | bool (value : Bool)
  /-- A date, a time, or both, as it is written. -/
  | date (text : String)
  | arr (items : List Toml)
  | table (fields : List (String × Toml))

namespace Toml

mutual

/-- The same value in JSON, where a date has no counterpart. -/
def toJson : Toml → Json
  | str s => .str s
  | int i => .num (.int i)
  | real x => .num (.real x)
  | bool b => .bool b
  | date _ => .obj []
  | arr items => .arr (itemsToJson items)
  | table fields => .obj (fieldsToJson fields)

def itemsToJson : List Toml → List Json
  | [] => []
  | v :: rest => toJson v :: itemsToJson rest

def fieldsToJson : List (String × Toml) → List (String × Json)
  | [] => []
  | (k, v) :: rest => (k, toJson v) :: fieldsToJson rest

end

end Toml
end StaticGql

namespace StaticGql.Toml

def hexDigit (n : Nat) : Char := Nat.digitChar n

def escapeChar (c : Char) : List Char :=
  if c = '"' then ['\\', '"']
  else if c = '\\' then ['\\', '\\']
  else if c = '\n' then ['\\', 'n']
  else if c.toNat < 32 || c.toNat = 127 then
    ['\\', 'u', '0', '0', hexDigit (c.toNat / 16), hexDigit (c.toNat % 16)]
  else [c]

def quote (s : String) : List Char := '"' :: s.toList.flatMap escapeChar ++ ['"']

/-- A text, a truth value or a list of texts. -/
inductive Plain where
  | str (value : String)
  | bool (value : Bool)
  | strs (values : List String)

namespace Plain

def text : Plain → List Char
  | str s => quote s
  | bool true => ['t', 'r', 'u', 'e']
  | bool false => ['f', 'a', 'l', 's', 'e']
  | strs values => '[' :: Text.joinWith [',', ' '] (values.map quote) ++ [']']

end Plain

def fieldLine (field : String × Plain) : List Char :=
  field.1.toList ++ [' ', '=', ' '] ++ field.2.text ++ ['\n']

/-- A table under its header; both are named by bare keys. -/
def sectionText (part : String × List (String × Plain)) : List Char :=
  '[' :: part.1.toList ++ [']', '\n'] ++ part.2.flatMap fieldLine ++ ['\n']

def print (parts : List (String × List (String × Plain))) : String :=
  String.ofList (parts.flatMap sectionText)

end StaticGql.Toml
