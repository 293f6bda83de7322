import StaticGql.Scan.Lexer
import StaticGql.Script.Tree
import StaticGql.Text.Split

/-!
Reading a program from left to right. A cursor stands at the start of a token, behind the blanks
and comments before it; what is tried and fails leaves no trace.
-/

namespace StaticGql.Script

structure Cursor where
  rest : List Char
  offset : Nat
  /-- Where the token before ends. -/
  stop : Nat
  /-- A line ends between the token before and this one. -/
  freshLine : Bool

abbrev Parse := StateT Cursor Option

namespace Cursor

def isLineEnd (c : Char) : Bool := c = '\n' || c = '\r' || c = '\u2028' || c = '\u2029'

def isSpace (c : Char) : Bool := Text.isSpace c || c = '\uFEFF'

/-- The length of a comment after its opening slash and star, nothing where it does not end. -/
def commentLength (cs : List Char) : Nat :=
  let n := Scan.toCommentEnd cs
  if ['/', '*'].isPrefixOf (cs.take n).reverse then n else 0

/-- How many characters of blanks and comments are at the front. -/
def blank : List Char → Nat → Nat
  | _, 0 => 0
  | '/' :: '/' :: cs, fuel + 1 =>
    let n := Scan.run (!isLineEnd ·) cs
    2 + n + blank (cs.drop n) fuel
  | '/' :: '*' :: cs, fuel + 1 =>
    let n := commentLength cs
    if n = 0 then 0 else 2 + n + blank (cs.drop n) fuel
  | c :: cs, fuel + 1 => if isSpace c then 1 + blank cs fuel else 0
  | [], _ => 0

/-- The cursor without moving over blanks. -/
def raw (c : Cursor) (n : Nat) : Cursor :=
  let offset := c.offset + Text.byteSize (c.rest.take n)
  ⟨c.rest.drop n, offset, offset, false⟩

def skip (c : Cursor) : Cursor :=
  let n := blank c.rest c.rest.length
  let skipped := c.rest.take n
  { c with
    rest := c.rest.drop n
    offset := c.offset + Text.byteSize skipped
    freshLine := skipped.any isLineEnd }

/-- Over a token of `n` characters and what is blank after it. -/
def advance (c : Cursor) (n : Nat) : Cursor := (c.raw n).skip

/-- A program may begin with a line for the shell. -/
def ofText (text : String) : Cursor :=
  let cs := text.toList
  let shell :=
    match cs with
    | '#' :: '!' :: rest => 2 + Scan.run (!isLineEnd ·) rest
    | _ => 0
  (raw ⟨cs, 0, 0, false⟩ shell).skip

end Cursor

namespace Parse

variable {α : Type}

def cursor : Parse Cursor := get

def require (b : Bool) : Parse Unit := if b then pure () else failure

/-- What a parse would give, without moving. -/
def ahead (p : Parse α) : Parse Bool := fun c => some ((p c).isSome, c)

/-- One after another while they succeed and move on. -/
def manyFrom (p : Parse α) : Nat → Parse (List α)
  | 0 => pure []
  | fuel + 1 => fun c =>
    match p c with
    | none => some ([], c)
    | some (a, c') => if c'.offset ≤ c.offset then some ([], c) else
      (manyFrom p fuel c').map fun (l, c'') => (a :: l, c'')

def many (p : Parse α) : Parse (List α) := fun c => manyFrom p (c.rest.length + 1) c

/-- One after another until something else ends them; each must succeed and move on. -/
def upToFrom (stop : Parse Unit) (p : Parse α) : Nat → Parse (List α)
  | 0 => failure
  | fuel + 1 => (do stop; pure []) <|> (do
      let before ← cursor
      let a ← p
      let after ← cursor
      require (before.offset < after.offset)
      let l ← upToFrom stop p fuel
      pure (a :: l))

def upTo (stop : Parse Unit) (p : Parse α) : Parse (List α) := fun c =>
  upToFrom stop p (c.rest.length + 1) c

/-! ### Tokens -/

/-- Ranges beyond ASCII without letters: controls, punctuation, signs, arrows, shapes, brackets,
private use, pictures. -/
def withoutLetters : List (Nat × Nat) :=
  [(0x80, 0xA9), (0xAB, 0xB4), (0xB6, 0xB9), (0xBB, 0xBF), (0xD7, 0xD7), (0xF7, 0xF7),
    (0x2000, 0x203E), (0x2041, 0x2053), (0x2055, 0x2070), (0x20A0, 0x20CF), (0x2190, 0x2BFF),
    (0x2E00, 0x2E7F), (0x3000, 0x3004), (0x3008, 0x3020), (0xE000, 0xF8FF), (0xFE10, 0xFE1F),
    (0xFE30, 0xFE32), (0xFE35, 0xFE4C), (0xFE50, 0xFE6F), (0xFEFF, 0xFEFF), (0xFF00, 0xFF0F),
    (0xFFE0, 0xFFFF), (0x1F000, 0x1FAFF)]

def isWordStart (c : Char) : Bool :=
  Scan.isWordStart c ||
    (0x80 ≤ c.toNat && !withoutLetters.any fun (a, b) => a ≤ c.toNat && c.toNat ≤ b)

def isWordPart (c : Char) : Bool := isWordStart c || c.isDigit

/-- The signs of the language, longer ones before their beginnings. -/
def signs : List String :=
  [">>>=", "...", "===", "!==", "**=", "<<=", ">>=", ">>>", "&&=", "||=", "??=", "=>", "==", "!=",
    "<=", ">=", "&&", "||", "??", "?.", "++", "--", "+=", "-=", "*=", "/=", "%=", "&=", "|=", "^=",
    "<<", ">>", "**", "\x7b", "\x7d", "(", ")", "[", "]", ";", ",", "<", ">", "+", "-", "*", "/", "%",
    "&", "|", "^", "!", "~", "?", ":", "=", ".", "@", "#"]

/-- The longest sign at the front; a question mark before a number stands alone. -/
def signOf (cs : List Char) : Option String :=
  match cs with
  | '?' :: '.' :: d :: _ =>
    if d.isDigit then some "?" else some "?."
  | cs => signs.find? fun s => s.toList.isPrefixOf cs

def peekSign : Parse (Option String) := fun c => some (signOf c.rest, c)

/-- Exactly this sign, not the beginning of a longer one. -/
def sign (s : String) : Parse Unit := fun c =>
  if signOf c.rest = some s then some ((), c.advance s.length) else none

def anySign (l : List String) : Parse String := fun c =>
  match signOf c.rest with
  | some s => if s ∈ l then some (s, c.advance s.length) else none
  | none => none

/-- This character, whatever follows. -/
def char (x : Char) : Parse Unit := fun c =>
  if c.rest.head? = some x then some ((), c.advance 1) else none

def wordLength : List Char → Nat
  | c :: cs => if isWordStart c then 1 + Scan.run isWordPart cs else 0
  | [] => 0

/-- A name or a keyword. -/
def word : Parse String := fun c =>
  match wordLength c.rest with
  | 0 => none
  | n => some (String.ofList (c.rest.take n), c.advance n)

def peekWord : Parse (Option String) := fun c => some ((word c).map (·.1), c)

def keyword (s : String) : Parse Unit := do
  let w ← word
  require (w = s)

def keywords (l : List String) : Parse String := do
  let w ← word
  require (w ∈ l)
  pure w

def reserved : List String :=
  ["break", "case", "catch", "class", "const", "continue", "debugger", "default", "delete", "do",
    "else", "enum", "export", "extends", "false", "finally", "for", "function", "if", "import", "in",
    "instanceof", "new", "null", "return", "super", "switch", "this", "throw", "true", "try",
    "typeof", "var", "void", "while", "with"]

/-- A word that may name something. -/
def name : Parse String := do
  let w ← word
  require (w ∉ reserved)
  pure w

/-- No line ends before the next token. -/
def sameLine : Parse Unit := fun c => if c.freshLine then none else some ((), c)

/-- A token of a length that depends on what is ahead, with its text. -/
def lexeme (length : List Char → Nat) : Parse String := fun c =>
  match length c.rest with
  | 0 => none
  | n => some (String.ofList (c.rest.take n), c.advance n)

def quotedLength : List Char → Nat
  | q :: cs =>
    if q = '"' ∨ q = '\'' then
      let (n, closed) := Scan.quoted q false cs
      if closed then n + 1 else 0
    else 0
  | [] => 0

def quoted : Parse String := lexeme quotedLength

def numberLength : List Char → Nat
  | '.' :: d :: cs =>
    if d.isDigit then
      let n := Scan.run Scan.isDigitOrBar cs
      n + 2 + Scan.exponent (cs.drop n)
    else 0
  | d :: cs => if d.isDigit then 1 + Scan.numberAfter d cs else 0
  | [] => 0

def number : Parse String := lexeme numberLength

def regexLength : List Char → Nat
  | '/' :: cs => ((Scan.regexLength false cs).map (· + 1)).getD 0
  | _ => 0

def regex : Parse String := lexeme regexLength

/-- Nothing is left. -/
def ended : Parse Unit := fun c => if c.rest.isEmpty then some ((), c) else none

/-- A statement ends at a semicolon; none is needed before a brace, before a new line or at the
end. -/
def semicolon : Parse Unit := fun c =>
  match signOf c.rest with
  | some ";" => some ((), c.advance 1)
  | some "\x7d" => some ((), c)
  | _ => if c.rest.isEmpty || c.freshLine then some ((), c) else none

/-- The tree of what was read since `from`. -/
def close (start : Cursor) (node : Node) (text : String) (children : List Tree) : Parse Tree := do
  let now ← cursor
  pure (.mk node text start.offset now.stop children)

/-- Reads the parts of a tree. -/
def tree (node : Node) (parts : Parse (List Tree)) : Parse Tree := do
  let start ← cursor
  close start node "" (← parts)

def named (node : Node) (parts : Parse (String × List Tree)) : Parse Tree := do
  let start ← cursor
  let (text, children) ← parts
  close start node text children

/-- A list whose entries are parted by commas, one of which may stand last. -/
def commas (stop : Parse Unit) (p : Parse α) : Parse (List α) :=
  upTo stop do
    let a ← p
    let more ← optional (sign ",")
    let ends ← ahead stop
    require (more.isSome || ends)
    pure a

end Parse
end StaticGql.Script
