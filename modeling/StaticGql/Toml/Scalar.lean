import StaticGql.Toml

/-!
Numbers, truth values and dates of TOML. Each is one word without blanks, except that a date and a
time may have one between them.
-/

namespace StaticGql.Toml

def digitValue (c : Char) : Nat :=
  if c.isDigit then c.toNat - '0'.toNat
  else if 'a' ≤ c then c.toNat - 'a'.toNat + 10
  else c.toNat - 'A'.toNat + 10

def isHexDigit (c : Char) : Bool :=
  c.isDigit || ('a' ≤ c && c ≤ 'f') || ('A' ≤ c && c ≤ 'F')

def ofDigits (base : Nat) (digits : List Char) : Nat :=
  digits.foldl (fun n c => n * base + digitValue c) 0

/-- Digits in groups of at least one between single underscores. -/
def grouped? (isDigit : Char → Bool) (cs : List Char) : Option (List Char) :=
  let groups := Text.splitOn '_' cs
  if groups.all fun g => !g.isEmpty && g.all isDigit then some groups.flatten else none

/-- A decimal number without its sign, which starts with no idle zero. -/
def decimal? (cs : List Char) : Option (List Char) :=
  (grouped? Char.isDigit cs).filter fun digits => digits.length = 1 || digits.head? ≠ some '0'

def signed : List Char → Bool × List Char
  | '-' :: cs => (true, cs)
  | '+' :: cs => (false, cs)
  | cs => (false, cs)

def integer? (cs : List Char) : Option Int :=
  match cs with
  | '0' :: 'x' :: cs => (grouped? isHexDigit cs).map fun ds => ((ofDigits 16 ds : Nat) : Int)
  | '0' :: 'o' :: cs =>
    (grouped? (fun c => '0' ≤ c && c ≤ '7') cs).map fun ds => ((ofDigits 8 ds : Nat) : Int)
  | '0' :: 'b' :: cs =>
    (grouped? (fun c => c = '0' || c = '1') cs).map fun ds => ((ofDigits 2 ds : Nat) : Int)
  | cs =>
    let (negative, cs) := signed cs
    (decimal? cs).map fun ds =>
      if negative then -((ofDigits 10 ds : Nat) : Int) else ((ofDigits 10 ds : Nat) : Int)

/-- The exponent after its letter. -/
def exponent? (cs : List Char) : Option Int :=
  let (negative, cs) := signed cs
  (grouped? Char.isDigit cs).map fun ds =>
    if negative then -((ofDigits 10 ds : Nat) : Int) else ((ofDigits 10 ds : Nat) : Int)

def isExponentMark (c : Char) : Bool := c = 'e' || c = 'E'

/-- A number with a fraction, an exponent or both. -/
def fraction? (negative : Bool) (cs : List Char) : Option Binary64 := do
  let mantissa := cs.takeWhile fun c => !isExponentMark c
  let exponent ←
    match cs.dropWhile fun c => !isExponentMark c with
    | [] => some 0
    | _ :: rest => exponent? rest
  match Text.splitOn '.' mantissa with
  | [whole] =>
    let whole ← decimal? whole
    if mantissa.length = cs.length then none
    else some (.ofDecimal negative (ofDigits 10 whole) exponent)
  | [whole, part] =>
    let whole ← decimal? whole
    let part ← grouped? Char.isDigit part
    some (.ofDecimal negative (ofDigits 10 (whole ++ part)) (exponent - part.length))
  | _ => none

def real? (cs : List Char) : Option Binary64 :=
  let (negative, cs) := signed cs
  if cs = ['i', 'n', 'f'] then some ⟨negative, Binary64.infinite⟩
  else if cs = ['n', 'a', 'n'] then some ⟨negative, Binary64.notANumber.magnitude⟩
  else fraction? negative cs

/-- A number of exactly `n` digits between two bounds. -/
def fixed? (n low high : Nat) (cs : List Char) : Option Nat :=
  if cs.length = n && cs.all Char.isDigit then
    some (ofDigits 10 cs) |>.filter fun v => low ≤ v && v ≤ high
  else none

def daysIn (year month : Nat) : Nat :=
  if month = 2 then
    if year % 4 = 0 && (year % 100 ≠ 0 || year % 400 = 0) then 29 else 28
  else if month = 4 || month = 6 || month = 9 || month = 11 then 30
  else 31

def isDay (cs : List Char) : Bool :=
  match Text.splitOn '-' cs with
  | [year, month, day] =>
    match fixed? 4 0 9999 year, fixed? 2 1 12 month with
    | some year, some month => (fixed? 2 1 (daysIn year month) day).isSome
    | _, _ => false
  | _ => false

def isSeconds (cs : List Char) : Bool :=
  match Text.splitOn '.' cs with
  | [whole] => (fixed? 2 0 60 whole).isSome
  | [whole, part] => (fixed? 2 0 60 whole).isSome && !part.isEmpty && part.all Char.isDigit
  | _ => false

def isClock (cs : List Char) : Bool :=
  match Text.splitOn ':' cs with
  | [hour, minute, second] =>
    (fixed? 2 0 23 hour).isSome && (fixed? 2 0 59 minute).isSome && isSeconds second
  | _ => false

def isOffset (cs : List Char) : Bool :=
  match Text.splitOn ':' cs with
  | [hour, minute] => (fixed? 2 0 23 hour).isSome && (fixed? 2 0 59 minute).isSome
  | _ => false

/-- A time of day with what tells its zone. -/
def isZoned (cs : List Char) : Bool :=
  let clock := cs.takeWhile fun c => c ≠ '+' && c ≠ '-' && c ≠ 'Z' && c ≠ 'z'
  match cs.dropWhile fun c => c ≠ '+' && c ≠ '-' && c ≠ 'Z' && c ≠ 'z' with
  | [] => isClock clock
  | [c] => (c = 'Z' || c = 'z') && isClock clock
  | c :: offset => (c = '+' || c = '-') && isClock clock && isOffset offset

def isDate (cs : List Char) : Bool :=
  isClock cs || isDay cs ||
    (isDay (cs.take 10) &&
      match cs.drop 10 with
      | c :: rest => (c = 'T' || c = 't' || c = ' ') && isZoned rest
      | [] => false)

def isWordChar (c : Char) : Bool :=
  c.isAlphanum || c = '+' || c = '-' || c = '_' || c = '.' || c = ':'

/-- A word at the start of a text, with the time after a date. -/
def splitWord (cs : List Char) : List Char × List Char :=
  let word := cs.takeWhile isWordChar
  match cs.dropWhile isWordChar with
  | ' ' :: c :: rest =>
    if isDay word && c.isDigit then
      (word ++ ' ' :: (c :: rest).takeWhile isWordChar, (c :: rest).dropWhile isWordChar)
    else (word, ' ' :: c :: rest)
  | rest => (word, rest)

def ofWord? (word : List Char) : Option Toml :=
  if word = ['t', 'r', 'u', 'e'] then some (.bool true)
  else if word = ['f', 'a', 'l', 's', 'e'] then some (.bool false)
  else if isDate word then some (.date (String.ofList word))
  else
    match integer? word with
    | some i => some (.int i)
    | none => (real? word).map .real

end StaticGql.Toml
