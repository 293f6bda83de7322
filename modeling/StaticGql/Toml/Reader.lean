import StaticGql.Toml
import StaticGql.Toml.Scalar

/-!
The sections of a TOML document while it is read. A table may be written in several places, but
each of its fields only once, and a table has one form: it stands under a header, it was only
passed through on the way to one, or its fields are written with dots.

Reading TOML.
-/

namespace StaticGql.Toml

inductive Form where
  | header
  /-- It may still get a header. -/
  | passed
  | dotted
  deriving DecidableEq

inductive Item where
  | leaf (value : Toml)
  | branch (form : Form) (fields : List (String × Item))
  /-- Tables under one repeated header, the last one first. -/
  | branches (items : List (List (String × Item)))

abbrev Fields := List (String × Item)

namespace Item

mutual

def value : Item → Toml
  | leaf v => v
  | branch _ fields => .table (fieldValues fields)
  | branches items => .arr (tableValues items).reverse

def fieldValues : List (String × Item) → List (String × Toml)
  | [] => []
  | (k, i) :: rest => (k, value i) :: fieldValues rest

def tableValues : List (List (String × Item)) → List Toml
  | [] => []
  | fields :: rest => .table (fieldValues fields) :: tableValues rest

end

end Item

namespace Fields

def find? (fields : Fields) (key : String) : Option Item := (List.find? (·.1 = key) fields).map (·.2)

def replace (fields : Fields) (key : String) (item : Item) : Fields :=
  fields.map fun f => if f.1 = key then (key, item) else f

/-- What becomes of a table's fields; none where that is an error. -/
abbrev Change := Form → Fields → Option Fields

/-- A change made at the end of a path of keys. Tables on the way are made where they are missing;
a dotted path does not lead into a table with a header. -/
def changeAt (viaDots : Bool) (change : Change) : List String → Form → Fields → Option Fields
  | [], form, fields => change form fields
  | key :: path, _, fields =>
    match find? fields key with
    | none =>
      let form := if viaDots then .dotted else .passed
      (changeAt viaDots change path form []).map fun inner =>
        fields ++ [(key, .branch form inner)]
    | some (.branch form inner) =>
      if viaDots && form = .header then none
      else (changeAt viaDots change path form inner).map fun inner =>
        replace fields key (.branch form inner)
    | some (.branches (last :: before)) =>
      (changeAt viaDots change path .header last).map fun last =>
        replace fields key (.branches (last :: before))
    | some _ => none

/-- A field added at a dotted key. -/
def put (path : List String) (key : String) (v : Toml) : Change :=
  changeAt true (fun form fields =>
    if decide (form = .dotted) = path.isEmpty then none
    else if (find? fields key).isSome then none
    else some (fields ++ [(key, .leaf v)])) path

/-- The header of a table. -/
def openSection (path : List String) (key : String) : Change :=
  changeAt false (fun _ fields =>
    match find? fields key with
    | none => some (fields ++ [(key, .branch .header [])])
    | some (.branch .passed inner) => some (replace fields key (.branch .header inner))
    | some _ => none) path

/-- The header of one more table of a list. -/
def openItem (path : List String) (key : String) : Change :=
  changeAt false (fun _ fields =>
    match find? fields key with
    | none => some (fields ++ [(key, .branches [[]])])
    | some (.branches items) => some (replace fields key (.branches ([] :: items)))
    | some _ => none) path

end Fields

abbrev Reader (α : Type) := List Char → Option (α × List Char)

def isBlank (c : Char) : Bool := c = ' ' || c = '\t'

def skipBlanks (cs : List Char) : List Char := cs.dropWhile isBlank

/-- Characters that may stand in strings and comments. -/
def isPlain (c : Char) : Bool := c = '\t' || (32 ≤ c.toNat && c.toNat ≠ 127)

def skipComment : List Char → List Char
  | '#' :: cs => cs.dropWhile isPlain
  | cs => cs

def newline? : List Char → Option (List Char)
  | '\n' :: cs => some cs
  | '\r' :: '\n' :: cs => some cs
  | _ => none

/-- Blanks, comments and line ends dropped. -/
def skipLines : Nat → List Char → List Char
  | 0, cs => cs
  | fuel + 1, cs =>
    let cs := skipComment (skipBlanks cs)
    match newline? cs with
    | some cs => skipLines fuel cs
    | none => cs

def skipAll (cs : List Char) : List Char := skipLines (cs.length + 1) cs

/-! ### Strings -/

def hexDigits (n : Nat) (cs : List Char) : Option (Nat × List Char) :=
  let digits := cs.take n
  if digits.length = n && digits.all isHexDigit then some (ofDigits 16 digits, cs.drop n) else none

def scalarValue? (n : Nat) : Option Char :=
  if n < 0xD800 || (0xDFFF < n && n < 0x110000) then some (Char.ofNat n) else none

/-- What follows a backslash. -/
def escape : Reader Char
  | 'b' :: cs => some ('\x08', cs)
  | 't' :: cs => some ('\t', cs)
  | 'n' :: cs => some ('\n', cs)
  | 'f' :: cs => some ('\x0c', cs)
  | 'r' :: cs => some ('\r', cs)
  | '"' :: cs => some ('"', cs)
  | '\\' :: cs => some ('\\', cs)
  | 'u' :: cs => do
    let (n, cs) ← hexDigits 4 cs
    some (← scalarValue? n, cs)
  | 'U' :: cs => do
    let (n, cs) ← hexDigits 8 cs
    some (← scalarValue? n, cs)
  | _ => none

def consTo (c : Char) (r : List Char × List Char) : List Char × List Char := (c :: r.1, r.2)

/-- The rest of a string with escapes on one line. -/
def basicBody : Nat → Reader (List Char)
  | 0, _ => none
  | fuel + 1, cs =>
    match cs with
    | '"' :: cs => some ([], cs)
    | '\\' :: cs => do
      let (c, cs) ← escape cs
      (basicBody fuel cs).map (consTo c)
    | c :: cs => if isPlain c then (basicBody fuel cs).map (consTo c) else none
    | [] => none

/-- The rest of a string without escapes on one line. -/
def literalBody : Reader (List Char)
  | [] => none
  | c :: cs =>
    if c = '\x27' then some ([], cs)
    else if isPlain c then (literalBody cs).map (consTo c)
    else none

/-- A backslash at the end of a line takes the blank space after it with it. -/
def continuation? (cs : List Char) : Option (List Char) :=
  (newline? (skipBlanks cs)).map (·.dropWhile fun c => isBlank c || c = '\n' || c = '\r')

/-- Quotes at the end of a string over several lines: three close it, and up to two before them
belong to it. -/
def closingQuotes (quote : Char) (cs : List Char) : Option (List Char × List Char) :=
  let n := (cs.takeWhile (· = quote)).length
  if n < 3 then none
  else
    let own := min n 5 - 3
    some (List.replicate own quote, cs.drop (own + 3))

/-- The rest of a string over several lines. -/
def linesBody (quote : Char) (escapes : Bool) : Nat → Reader (List Char)
  | 0, _ => none
  | fuel + 1, cs =>
    match closingQuotes quote cs with
    | some closed => some closed
    | none =>
      match newline? cs with
      | some cs => (linesBody quote escapes fuel cs).map (consTo '\n')
      | none =>
        match cs with
        | [] => none
        | c :: cs =>
          if c = '\\' && escapes then
            match continuation? cs with
            | some cs => linesBody quote escapes fuel cs
            | none =>
              match escape cs with
              | some (c, cs) => (linesBody quote escapes fuel cs).map (consTo c)
              | none => none
          else if isPlain c then (linesBody quote escapes fuel cs).map (consTo c)
          else none

def afterNewline (cs : List Char) : List Char := (newline? cs).getD cs

def string? (cs : List Char) : Option (String × List Char) :=
  let chars :=
    match cs with
    | '"' :: '"' :: '"' :: cs => linesBody '"' true (cs.length + 1) (afterNewline cs)
    | '\x27' :: '\x27' :: '\x27' :: cs =>
      linesBody '\x27' false (cs.length + 1) (afterNewline cs)
    | '"' :: cs => basicBody (cs.length + 1) cs
    | '\x27' :: cs => literalBody cs
    | _ => none
  chars.map fun (s, cs) => (String.ofList s, cs)

/-! ### Keys -/

def isBareChar (c : Char) : Bool := c.isAlphanum || c = '_' || c = '-'

def simpleKey : Reader String
  | '"' :: cs => (basicBody (cs.length + 1) cs).map fun (s, cs) => (String.ofList s, cs)
  | '\x27' :: cs => (literalBody cs).map fun (s, cs) => (String.ofList s, cs)
  | cs =>
    let key := cs.takeWhile isBareChar
    if key.isEmpty then none else some (String.ofList key, cs.dropWhile isBareChar)

/-- Keys between dots: all but the last, and the last. -/
def dottedKey : Nat → Reader (List String × String)
  | 0, _ => none
  | fuel + 1, cs => do
    let (key, cs) ← simpleKey (skipBlanks cs)
    match skipBlanks cs with
    | '.' :: cs =>
      let ((path, last), cs) ← dottedKey fuel cs
      some ((key :: path, last), cs)
    | cs => some (([], key), cs)

def keyPath : Reader (List String × String) := fun cs => dottedKey (cs.length + 1) cs

/-! ### Values -/

/-- The rest of a list after its opening bracket; `value` reads one item. -/
def listBody (value : Reader Toml) : Nat → Reader (List Toml)
  | 0, _ => none
  | fuel + 1, cs =>
    match skipAll cs with
    | ']' :: cs => some ([], cs)
    | cs => do
      let (v, cs) ← value cs
      match skipAll cs with
      | ',' :: cs => (listBody value fuel cs).map fun (vs, cs) => (v :: vs, cs)
      | ']' :: cs => some ([v], cs)
      | _ => none

/-- The rest of a table on one line after its first brace or a comma. -/
def tableBody (value : Reader Toml) : Nat → Fields → Reader Fields
  | 0, _, _ => none
  | fuel + 1, fields, cs => do
    let ((path, key), cs) ← keyPath cs
    match cs with
    | '=' :: cs =>
      let (v, cs) ← value (skipBlanks cs)
      let fields ← Fields.put path key v .header fields
      match skipBlanks cs with
      | ',' :: cs => tableBody value fuel fields cs
      | '\x7d' :: cs => some (fields, cs)
      | _ => none
    | _ => none

/-- A value whose lists and tables nest at most as deep as the given depth. -/
def value : Nat → Reader Toml
  | 0, _ => none
  | depth + 1, cs =>
    match cs with
    | '"' :: _ | '\x27' :: _ => (string? cs).map fun (s, cs) => (.str s, cs)
    | '[' :: cs => (listBody (value depth) (cs.length + 1) cs).map fun (vs, cs) => (.arr vs, cs)
    | '\x7b' :: cs =>
      match skipBlanks cs with
      | '\x7d' :: cs => some (.table [], cs)
      | cs =>
        (tableBody (value depth) (cs.length + 1) [] cs).map fun (fields, cs) =>
          (.table (Item.fieldValues fields), cs)
    | cs =>
      let (word, cs) := splitWord cs
      (ofWord? word).map (·, cs)

def maxDepth : Nat := 80

/-! ### Documents -/

/-- The table that fields are added to, named by its header. -/
structure Document where
  fields : Fields
  header : Option (List String × String)

namespace Document

def start : Document := ⟨[], none⟩

def put (d : Document) (path : List String) (key : String) (v : Toml) : Option Document :=
  let change := Fields.put path key v
  let fields :=
    match d.header with
    | none => change .header d.fields
    | some (outer, name) => Fields.changeAt false change (outer ++ [name]) .header d.fields
  fields.map fun fields => { d with fields }

def openSection (d : Document) (path : List String) (key : String) : Option Document :=
  (Fields.openSection path key .header d.fields).map (⟨·, some (path, key)⟩)

def openItem (d : Document) (path : List String) (key : String) : Option Document :=
  (Fields.openItem path key .header d.fields).map (⟨·, some (path, key)⟩)

/-- One header or field. -/
def readLine (d : Document) : Reader Document
  | '[' :: '[' :: cs => do
    let ((path, key), cs) ← keyPath cs
    match cs with
    | ']' :: ']' :: cs => (d.openItem path key).map (·, cs)
    | _ => none
  | '[' :: cs => do
    let ((path, key), cs) ← keyPath cs
    match cs with
    | ']' :: cs => (d.openSection path key).map (·, cs)
    | _ => none
  | cs => do
    let ((path, key), cs) ← keyPath cs
    match cs with
    | '=' :: cs =>
      let (v, cs) ← value maxDepth (skipBlanks cs)
      (d.put path key v).map (·, cs)
    | _ => none

def readLines : Nat → Document → List Char → Option Document
  | 0, _, _ => none
  | fuel + 1, d, cs =>
    match skipAll cs with
    | [] => some d
    | cs => do
      let (d, cs) ← d.readLine cs
      match skipComment (skipBlanks cs) with
      | [] => some d
      | cs => readLines fuel d (← newline? cs)

end Document

def byteOrderMark : Char := '\uFEFF'

def parse? (text : String) : Option Toml :=
  let cs :=
    match text.toList with
    | [] => []
    | c :: cs => if c = byteOrderMark then cs else c :: cs
  (Document.readLines (cs.length + 1) .start cs).map fun d => .table (Item.fieldValues d.fields)

end StaticGql.Toml
