import StaticGql.Number.Binary64

/-!
JSON values. The fields of an object keep the order in which they were written.
-/

namespace StaticGql

inductive Json.Number where
  | int (value : Int)
  | real (value : Binary64)
  deriving DecidableEq, Repr

inductive Json where
  | null
  | bool (value : Bool)
  | num (value : Json.Number)
  | str (value : String)
  | arr (items : List Json)
  | obj (fields : List (String × Json))

namespace Json

def nat (n : Nat) : Json := .num (.int n)

def strs (texts : List String) : Json := .arr (texts.map .str)

/-- The field written last under a name. -/
def field? (fields : List (String × Json)) (name : String) : Option Json :=
  (fields.reverse.find? (·.1 = name)).map (·.2)

def get? (name : String) : Json → Option Json
  | obj fields => field? fields name
  | _ => none

def asStr? : Json → Option String
  | str s => some s
  | _ => none

def asNat? : Json → Option Nat
  | num (.int (.ofNat n)) => some n
  | _ => none

def asBool? : Json → Option Bool
  | bool b => some b
  | _ => none

def asArr? : Json → Option (List Json)
  | arr items => some items
  | _ => none

def asObj? : Json → Option (List (String × Json))
  | obj fields => some fields
  | _ => none

/-- A field put in the order of its name; an equal name gives way. -/
def insertField (name : String) (value : Json) : List (String × Json) → List (String × Json)
  | [] => [(name, value)]
  | (k, v) :: rest =>
    if name < k then (name, value) :: (k, v) :: rest
    else if k < name then (k, v) :: insertField name value rest
    else (name, value) :: rest

mutual

/-- Every object with its fields in the order of their names, one field a name, the last one
written counting. -/
def sorted : Json → Json
  | arr items => arr (sortedItems items)
  | obj fields => obj (sortedFields fields [])
  | j => j

def sortedItems : List Json → List Json
  | [] => []
  | j :: rest => sorted j :: sortedItems rest

def sortedFields : List (String × Json) → List (String × Json) → List (String × Json)
  | [], acc => acc
  | (k, v) :: rest, acc => sortedFields rest (insertField k (sorted v) acc)

end

/-! ### Records

Records inside JSON. A record is written as an object, whose known fields may come in any order but
only once, or as an array of its fields in their order. Unknown fields of an object are ignored.
-/

/-- What becomes of a field that is left out. -/
inductive Presence where
  | required
  /-- Absent from an object it counts as `null`; an array has to write it. -/
  | nullable
  /-- It may be left out of an object, and of the end of an array. -/
  | defaulted
  deriving DecidableEq

def named (fields : List (String × Json)) (name : String) (p : Presence) : Option (Option Json) :=
  match fields.filter (·.1 = name) with
  | [] => if p = .required then none else some none
  | [(_, v)] => some (some v)
  | _ => none

def positional : List Presence → List Json → Option (List (Option Json))
  | [], [] => some []
  | [], _ :: _ => none
  | p :: ps, [] =>
    if p = .defaulted then (positional ps []).map (none :: ·) else none
  | _ :: ps, j :: js => (positional ps js).map (some j :: ·)

/-- The fields of a record in the order of the shape. -/
def record (shape : List (String × Presence)) : Json → Option (List (Option Json))
  | obj fields => shape.mapM fun (name, p) => named fields name p
  | arr items => positional (shape.map (·.2)) items
  | _ => none

variable {α : Type}

/-- A field that may be absent or `null`. -/
def optional (read : Json → Option α) : Option Json → Option (Option α)
  | none | some null => some none
  | some j => (read j).map some

def withDefault (default : α) (read : Json → Option α) : Option Json → Option α
  | none => some default
  | some j => read j

def needed (read : Json → Option α) : Option Json → Option α
  | none => none
  | some j => read j

def listOf (read : Json → Option α) : Json → Option (List α)
  | arr items => items.mapM read
  | _ => none

/-- A natural number of sixty-four bits. -/
def word (j : Json) : Option Nat := j.asNat?.filter (· < twoTo 64)

/-- A constant named by its text; an object with that one name over `null` says the same. -/
def constant : Json → Option String
  | str s => some s
  | obj [(s, null)] => some s
  | _ => none

/-- The tag of a tagged record and the record without it. -/
def tagged (tag : String) : Json → Option (String × Json)
  | obj fields =>
    match fields.filter (·.1 = tag) with
    | [(_, str s)] => some (s, obj (fields.filter (·.1 ≠ tag)))
    | _ => none
  | arr (str s :: items) => some (s, arr items)
  | _ => none

def optField (name : String) : Option Json → List (String × Json)
  | none => []
  | some j => [(name, j)]

end Json
end StaticGql
