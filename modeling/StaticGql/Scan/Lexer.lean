import StaticGql.Text.Split

/-!
Tokens of the scanner. Keywords are plain words, and a run of operator characters is one token.

Cutting a text into tokens: at each place the longest token that any rule allows. Blanks, comments
and characters that begin no token are passed over. Whether a slash divides or opens a regular
expression is decided by the token before it.
-/

namespace StaticGql.Scan

inductive TokenKind where
  | word
  | str
  | template
  | number
  | openBrace
  | closeBrace
  | openParen
  | closeParen
  | openBracket
  | closeBracket
  | semicolon
  | comma
  | colon
  | dot
  | optionalDot
  | ellipsis
  | arrow
  | question
  | assign
  /-- Division, alone or with an equals sign. -/
  | slash
  /-- A regular expression with its flags. -/
  | regex
  | operator
  deriving DecidableEq, Repr

namespace TokenKind

def name : TokenKind → String
  | word => "Ident"
  | str => "Str"
  | template => "Template"
  | number => "Number"
  | openBrace => "LBrace"
  | closeBrace => "RBrace"
  | openParen => "LParen"
  | closeParen => "RParen"
  | openBracket => "LBracket"
  | closeBracket => "RBracket"
  | semicolon => "Semi"
  | comma => "Comma"
  | colon => "Colon"
  | dot => "Dot"
  | optionalDot => "OptionalDot"
  | ellipsis => "Ellipsis"
  | arrow => "Arrow"
  | question => "Question"
  | assign => "Assign"
  | slash => "Slash"
  | regex => "Regex"
  | operator => "Operator"

/-- The bracket that closes an opening one. -/
def closer? : TokenKind → Option TokenKind
  | openBrace => some closeBrace
  | openParen => some closeParen
  | openBracket => some closeBracket
  | _ => none

def isOpen (k : TokenKind) : Bool := k.closer?.isSome

def isClose : TokenKind → Bool
  | closeBrace | closeParen | closeBracket => true
  | _ => false

end TokenKind

/-- A token with its bytes, and what it needs to know of the one before it. -/
structure Token where
  kind : TokenKind
  text : String
  start : Nat
  stop : Nat
  index : Nat
  /-- A line break separates it from the token before, or there is none. -/
  startsLine : Bool
  previousKind : Option TokenKind
  previousText : String
  deriving DecidableEq, Repr

namespace Token

/-- The name of a property, as in `a.b` and `a?.b`. -/
def isMember (t : Token) : Bool :=
  t.previousKind = some .dot || t.previousKind = some .optionalDot

def follows (t : Token) (word : String) : Bool :=
  t.previousKind = some .word && t.previousText = word

end Token

def isBlank (c : Char) : Bool := c = ' ' || c = '\t' || c = '\r' || c = '\n' || c = '\x0c'

def isWordStart (c : Char) : Bool := c.isAlpha || c = '_' || c = '$'

def isWordPart (c : Char) : Bool := c.isAlphanum || c = '_' || c = '$'

def isOperator (c : Char) : Bool := c ∈ "+-*%&|^!~<>=?".toList

def isDigitOrBar (c : Char) : Bool := c.isDigit || c = '_'

def isHexOrBar (c : Char) : Bool :=
  c.isDigit || ('a' ≤ c && c ≤ 'f') || ('A' ≤ c && c ≤ 'F') || c = '_'

/-- How many characters of a quoted text follow its opening quote, and whether it is closed. A
backslash takes the next character with it. -/
def quoted (quote : Char) (multiline : Bool) : List Char → Nat × Bool
  | [] => (0, false)
  | ['\\'] => (1, false)
  | '\\' :: _ :: cs =>
    let (n, closed) := quoted quote multiline cs
    (n + 2, closed)
  | c :: cs =>
    if c = quote then (1, true)
    else if c = '\n' && !multiline then (0, false)
    else
      let (n, closed) := quoted quote multiline cs
      (n + 1, closed)

def run (p : Char → Bool) (cs : List Char) : Nat := (cs.takeWhile p).length

/-- The length of an exponent, nothing where it has no digits. -/
def exponent : List Char → Nat
  | e :: cs =>
    if e = 'e' || e = 'E' then
      match cs with
      | '+' :: cs | '-' :: cs => if run isDigitOrBar cs = 0 then 0 else run isDigitOrBar cs + 2
      | cs => if run isDigitOrBar cs = 0 then 0 else run isDigitOrBar cs + 1
    else 0
  | [] => 0

def bigMark : List Char → Nat
  | 'n' :: _ => 1
  | _ => 0

/-- The length of a number after its first digit. -/
def numberAfter (first : Char) (cs : List Char) : Nat :=
  let radix :=
    match cs with
    | x :: cs =>
      if first = '0' && x ∈ ['x', 'X', 'o', 'O', 'b', 'B'] then
        let n := run isHexOrBar cs
        if n = 0 then 0 else 1 + n + bigMark (cs.drop n)
      else 0
    | [] => 0
  if radix ≠ 0 then radix
  else
    let whole := run isDigitOrBar cs
    let fraction :=
      match cs.drop whole with
      | '.' :: rest => 1 + run isDigitOrBar rest
      | _ => 0
    let n := whole + fraction
    let n := n + exponent (cs.drop n)
    n + bigMark (cs.drop n)

/-- How many characters lie before a line break. -/
def toLineEnd (cs : List Char) : Nat := run (· ≠ '\n') cs

/-- How many characters a block comment takes after its opening slash and star. -/
def toCommentEnd : List Char → Nat
  | '*' :: '/' :: _ => 2
  | _ :: cs => toCommentEnd cs + 1
  | [] => 0

/-- The length of a regular expression after its opening slash; none where the line ends first. -/
def regexLength (inClass : Bool) : List Char → Option Nat
  | [] => none
  | '\\' :: c :: cs =>
    if c = '\n' || c = '\r' then none else (regexLength inClass cs).map (· + 2)
  | c :: cs =>
    if c = '\n' || c = '\r' || c = '\\' then none
    else if c = '/' && !inClass then some (1 + run isWordPart cs)
    else (regexLength (if c = '[' then true else if c = ']' then false else inClass) cs).map (· + 1)

def wordsBeforeRegex : List String :=
  ["return", "typeof", "instanceof", "in", "of", "new", "delete", "void", "throw", "case", "do",
    "else", "yield", "await"]

/-- Whether a slash after the given token opens a regular expression. -/
def regexAllowed : Option Token → Bool
  | none => true
  | some t =>
    match t.kind with
    | .word => t.text ∈ wordsBeforeRegex
    | .operator => t.text.toList.getLast? ≠ some '<'
    | .str | .template | .number | .regex | .closeParen | .closeBracket => false
    | _ => true

/-- What begins with a slash. -/
def afterSlash (previous : Option Token) (cs : List Char) : Option TokenKind × Nat :=
  match cs with
  | '/' :: _ => (none, toLineEnd cs)
  | '*' :: rest => (none, 1 + toCommentEnd rest)
  | _ =>
    match if regexAllowed previous then regexLength false cs else none with
    | some n => (some .regex, n)
    | none => (some .slash, if cs.head? = some '=' then 1 else 0)

def afterOperator (c : Char) (cs : List Char) : Option TokenKind × Nat :=
  let n := run isOperator cs
  if n = 0 then
    if c = '=' then (some .assign, 0)
    else if c = '?' then
      if cs.head? = some '.' then (some .optionalDot, 1) else (some .question, 0)
    else (some .operator, 0)
  else if n = 1 && c = '=' && cs.head? = some '>' then (some .arrow, 1)
  else (some .operator, n)

def afterDot (cs : List Char) : TokenKind × Nat :=
  match cs with
  | '.' :: '.' :: _ => (.ellipsis, 2)
  | d :: rest =>
    if d.isDigit then
      let n := run isDigitOrBar rest
      (.number, 1 + n + exponent (rest.drop n))
    else (.dot, 0)
  | [] => (.dot, 0)

/-- The kind of what begins with `c`, and how many more characters it takes. Without a kind it is
passed over. -/
def munch (previous : Option Token) (c : Char) (cs : List Char) : Option TokenKind × Nat :=
  if isBlank c then (none, 0)
  else if isWordStart c then (some .word, run isWordPart cs)
  else if c = '"' || c = '\'' then
    let (n, closed) := quoted c false cs
    (if closed then some .str else none, n)
  else if c = '`' then
    let (n, closed) := quoted c true cs
    (if closed then some .template else none, n)
  else if c.isDigit then (some .number, numberAfter c cs)
  else if c = '{' then (some .openBrace, 0)
  else if c = '}' then (some .closeBrace, 0)
  else if c = '(' then (some .openParen, 0)
  else if c = ')' then (some .closeParen, 0)
  else if c = '[' then (some .openBracket, 0)
  else if c = ']' then (some .closeBracket, 0)
  else if c = ';' then (some .semicolon, 0)
  else if c = ',' then (some .comma, 0)
  else if c = ':' then (some .colon, 0)
  else if c = '.' then
    let (kind, n) := afterDot cs
    (some kind, n)
  else if c = '/' then afterSlash previous cs
  else if isOperator c then afterOperator c cs
  else (none, 0)

/-- The tokens from byte `start` on; `broken` tells of a line break since the last token. -/
def tokensFrom (start index : Nat) (previous : Option Token) (broken : Bool) :
    List Char → List Token
  | [] => []
  | c :: cs =>
    let (kind?, n) := munch previous c cs
    let text := c :: cs.take n
    let stop := start + Text.byteSize text
    match kind? with
    | none => tokensFrom stop index previous (broken || text.any (· = '\n')) (cs.drop n)
    | some kind =>
      let token : Token :=
        { kind := kind
          text := String.ofList text
          start := start
          stop := stop
          index := index
          startsLine := previous.isNone || broken
          previousKind := previous.map (·.kind)
          previousText := (previous.map (·.text)).getD "" }
      token :: tokensFrom stop (index + 1) (some token) false (cs.drop n)
termination_by cs => cs.length
decreasing_by
  all_goals exact Nat.lt_succ_of_le (by rw [List.length_drop]; exact Nat.sub_le _ _)

def tokens (text : String) : List Token := tokensFrom 0 0 none false text.toList

end StaticGql.Scan
