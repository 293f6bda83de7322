import StaticGql.Json.Basic

/-!
Reading JSON. Integers are kept where they fit sixty-four bits; any other number is a binary
fraction computed from its leading digits and one power of ten. Containers nest at most 127 deep.
-/

namespace StaticGql.Json

abbrev Reader (α : Type) := List Char → Option (α × List Char)

def isSpace (c : Char) : Bool := c = ' ' || c = '\n' || c = '\t' || c = '\r'

def skipSpace (cs : List Char) : List Char := cs.dropWhile isSpace

def digitValue (c : Char) : Nat := c.toNat - '0'.toNat

def maxWord : Nat := twoTo 64 - 1

/-- Digits appended to a significand as long as it fits a word; the count of those left over. -/
def appendDigits : List Char → Nat → Nat × Nat
  | [], acc => (acc, 0)
  | c :: cs, acc =>
    let next := acc * 10 + digitValue c
    if next ≤ maxWord then appendDigits cs next else (acc, cs.length + 1)

def maxExponent : Nat := twoTo 31 - 1

/-- A significand times a power of ten, in steps of at most `10 ^ 308`; none when it overflows. -/
def scale : Nat → Binary64 → Int → Option Binary64
  | fuel, f, e =>
    if e.natAbs ≤ 308 then
      let power := Binary64.ofDecimal false 1 e.natAbs
      if 0 ≤ e then
        let product := f.mul power
        if product.isInfinite then none else some product
      else some (f.div power)
    else if f.magnitude = 0 then some f
    else if 0 ≤ e then none
    else
      match fuel with
      | 0 => some f
      | fuel + 1 => scale fuel (f.div (Binary64.ofDecimal false 1 308)) (e + 308)

def realOf (negative : Bool) (significand : Nat) (exponent : Int) : Option Number :=
  (scale 5 (Binary64.ofNat significand) exponent).map fun f =>
    .real (if negative then f.neg else f)

/-- The exponent part after its `e`. -/
def exponentPart (cs : List Char) : Option (Bool × Nat × List Char) :=
  let (down, cs) :=
    match cs with
    | '+' :: cs => (false, cs)
    | '-' :: cs => (true, cs)
    | cs => (false, cs)
  let digits := cs.takeWhile Char.isDigit
  if digits.isEmpty then none
  else some (down, digits.foldl (fun n c => n * 10 + digitValue c) 0, cs.dropWhile Char.isDigit)

def withExponent (negative : Bool) (significand : Nat) (exponent : Int) : Reader Number
  | c :: cs =>
    if c = 'e' ∨ c = 'E' then do
      let (down, e, cs) ← exponentPart cs
      if maxExponent < e then
        if significand ≠ 0 ∧ !down then none
        else some (.real ⟨negative, 0⟩, cs)
      else
        let n ← realOf negative significand (if down then exponent - e else exponent + e)
        some (n, cs)
    else (realOf negative significand exponent).map (·, c :: cs)
  | [] => (realOf negative significand exponent).map (·, [])

def integer (negative : Bool) (significand : Nat) : Number :=
  if !negative then .int significand
  else if significand = 0 ∨ twoTo 63 < significand then .real (Binary64.ofNat significand).neg
  else .int (-(significand : Int))

def number (negative : Bool) : Reader Number := fun cs =>
  let digits := cs.takeWhile Char.isDigit
  let rest := cs.dropWhile Char.isDigit
  if digits.isEmpty ∨ (digits.head? = some '0' ∧ 1 < digits.length) then none
  else
    let (significand, dropped) := appendDigits digits 0
    match rest with
    | '.' :: rest =>
      let fraction := rest.takeWhile Char.isDigit
      if fraction.isEmpty then none
      else
        let (significand, left) := appendDigits fraction significand
        withExponent negative significand ((dropped : Int) - (fraction.length - left : Nat))
          (rest.dropWhile Char.isDigit)
    | c :: _ =>
      if c = 'e' ∨ c = 'E' ∨ dropped ≠ 0 then withExponent negative significand dropped rest
      else some (integer negative significand, rest)
    | [] =>
      if dropped ≠ 0 then withExponent negative significand dropped rest
      else some (integer negative significand, rest)

def hexValue? (c : Char) : Option Nat :=
  if c.isDigit then some (c.toNat - '0'.toNat)
  else if 'a' ≤ c ∧ c ≤ 'f' then some (c.toNat - 'a'.toNat + 10)
  else if 'A' ≤ c ∧ c ≤ 'F' then some (c.toNat - 'A'.toNat + 10)
  else none

/-- Four hexadecimal digits. -/
def unit16 : Reader Nat
  | a :: b :: c :: d :: cs => do
    let a ← hexValue? a
    let b ← hexValue? b
    let c ← hexValue? c
    let d ← hexValue? d
    some (((a * 16 + b) * 16 + c) * 16 + d, cs)
  | _ => none

/-- The character after `\u`; a surrogate counts only as half of a pair. -/
def unicodeEscape : Reader Char := fun cs => do
  let (n, cs) ← unit16 cs
  if 0xD800 ≤ n ∧ n < 0xDC00 then
    match cs with
    | '\\' :: 'u' :: cs =>
      let (m, cs) ← unit16 cs
      if 0xDC00 ≤ m ∧ m < 0xE000 then
        some (Char.ofNat (0x10000 + (n - 0xD800) * 0x400 + (m - 0xDC00)), cs)
      else none
    | _ => none
  else if 0xDC00 ≤ n ∧ n < 0xE000 then none
  else some (Char.ofNat n, cs)

def shortEscape? (c : Char) : Option Char :=
  if c = '"' ∨ c = '\\' ∨ c = '/' then some c
  else if c = 'b' then some '\x08'
  else if c = 'f' then some '\x0c'
  else if c = 'n' then some '\n'
  else if c = 'r' then some '\r'
  else if c = 't' then some '\t'
  else none

/-- The rest of a string after its opening quote. -/
def stringBody : Nat → Reader (List Char)
  | 0, _ => none
  | fuel + 1, cs =>
    match cs with
    | '"' :: cs => some ([], cs)
    | '\\' :: 'u' :: cs => do
      let (c, cs) ← unicodeEscape cs
      let (body, cs) ← stringBody fuel cs
      some (c :: body, cs)
    | '\\' :: e :: cs => do
      let c ← shortEscape? e
      let (body, cs) ← stringBody fuel cs
      some (c :: body, cs)
    | c :: cs =>
      if c.toNat < 32 ∨ c = '\\' then none
      else do
        let (body, cs) ← stringBody fuel cs
        some (c :: body, cs)
    | [] => none

def string : Reader String
  | '"' :: cs => do
    let (body, cs) ← stringBody (cs.length + 1) cs
    some (String.ofList body, cs)
  | _ => none

/-- One or more parts separated by commas, up to `close`. -/
def separated {α : Type} (close : Char) (part : Reader α) : Nat → Reader (List α)
  | 0, _ => none
  | fuel + 1, cs => do
    let (x, cs) ← part (skipSpace cs)
    match skipSpace cs with
    | c :: cs =>
      if c = ',' then
        let (xs, cs) ← separated close part fuel cs
        some (x :: xs, cs)
      else if c = close then some ([x], cs)
      else none
    | [] => none

/-- A bracketed list after its opening bracket. -/
def bracketed {α : Type} (close : Char) (part : Reader α) : Reader (List α) := fun cs =>
  match skipSpace cs with
  | c :: rest => if c = close then some ([], rest) else separated close part (cs.length + 1) cs
  | [] => none

def field (value : Reader Json) : Reader (String × Json) := fun cs => do
  let (name, cs) ← string cs
  match skipSpace cs with
  | ':' :: cs =>
    let (v, cs) ← value (skipSpace cs)
    some ((name, v), cs)
  | _ => none

def scalar : Reader Json
  | 'n' :: 'u' :: 'l' :: 'l' :: cs => some (.null, cs)
  | 't' :: 'r' :: 'u' :: 'e' :: cs => some (.bool true, cs)
  | 'f' :: 'a' :: 'l' :: 's' :: 'e' :: cs => some (.bool false, cs)
  | '"' :: cs => (string ('"' :: cs)).map fun (s, cs) => (.str s, cs)
  | '-' :: cs => (number true cs).map fun (n, cs) => (.num n, cs)
  | cs => (number false cs).map fun (n, cs) => (.num n, cs)

/-- A value whose containers nest at most as deep as the given depth. -/
def value : Nat → Reader Json
  | 0, cs => scalar cs
  | depth + 1, cs =>
    match cs with
    | '[' :: cs => (bracketed ']' (value depth) cs).map fun (items, cs) => (.arr items, cs)
    | '{' :: cs => (bracketed '}' (field (value depth)) cs).map fun (fs, cs) => (.obj fs, cs)
    | cs => scalar cs

def maxDepth : Nat := 127

def parse? (text : String) : Option Json := do
  let (v, rest) ← value maxDepth (skipSpace text.toList)
  if (skipSpace rest).isEmpty then some v else none

end StaticGql.Json
