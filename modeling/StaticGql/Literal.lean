import StaticGql.Json.Basic

/-!
String and number literals of the source language. A string denotes a sequence of UTF-16 units;
surrogates that do not pair up are replaced.
-/

namespace StaticGql.Literal

def maxPoint : Nat := 0x10FFFF

def digitIn? (radix : Nat) (c : Char) : Option Nat :=
  let d? : Option Nat :=
    if c.isDigit then some (c.toNat - '0'.toNat)
    else if 'a' ≤ c ∧ c ≤ 'z' then some (c.toNat - 'a'.toNat + 10)
    else if 'A' ≤ c ∧ c ≤ 'Z' then some (c.toNat - 'A'.toNat + 10)
    else none
  d?.filter (· < radix)

def digitsIn? (radix : Nat) : List Char → Nat → Option Nat
  | [], n => some n
  | c :: cs, n => (digitIn? radix c).bind fun d => digitsIn? radix cs (n * radix + d)

/-- A number below `limit` in some radix; a plus may stand before its digits. -/
def radixNumber? (radix limit : Nat) (cs : List Char) : Option Nat :=
  let digits :=
    match cs with
    | '+' :: rest => rest
    | cs => cs
  if digits.isEmpty then none else (digitsIn? radix digits 0).filter (· < limit)

def hex? (cs : List Char) : Option Nat := radixNumber? 16 (twoTo 32) cs

def startsWithDigit : List Char → Bool
  | c :: _ => c.isDigit
  | [] => false

/-- The escape after a backslash: the code points or single surrogates it denotes. -/
def escape : List Char → Option (List Nat × List Char)
  | [] => none
  | 'x' :: a :: b :: cs => (hex? [a, b]).map fun n => ([n], cs)
  | 'x' :: _ => none
  | 'u' :: '{' :: cs =>
    (hex? (cs.takeWhile (· ≠ '}'))).map fun n => ([n], (cs.dropWhile (· ≠ '}')).drop 1)
  | 'u' :: a :: b :: c :: d :: cs => (hex? [a, b, c, d]).map fun n => ([n], cs)
  | 'u' :: _ => none
  | '\r' :: '\n' :: cs => some ([], cs)
  | c :: cs =>
    if c = '\r' ∨ c = '\n' ∨ c = '\u2028' ∨ c = '\u2029' then some ([], cs)
    else if c = 'n' then some ([10], cs)
    else if c = 't' then some ([9], cs)
    else if c = 'r' then some ([13], cs)
    else if c = 'b' then some ([8], cs)
    else if c = 'f' then some ([12], cs)
    else if c = 'v' then some ([11], cs)
    else if c = '0' ∧ !startsWithDigit cs then some ([0], cs)
    else some ([c.toNat], cs)

theorem length_of_escape {cs rest : List Char} {points : List Nat}
    (h : escape cs = some (points, rest)) : rest.length ≤ cs.length := by
  unfold escape at h
  split at h
  · cases h
  · obtain ⟨n, -, hn⟩ := Option.map_eq_some_iff.1 h
    cases hn; simp; omega
  · cases h
  · rename_i tail
    obtain ⟨n, -, hn⟩ := Option.map_eq_some_iff.1 h
    cases hn
    have := (List.dropWhile_sublist (fun c => decide (c ≠ '}')) (l := tail)).length_le
    simp only [List.length_drop, List.length_cons]
    omega
  · obtain ⟨n, -, hn⟩ := Option.map_eq_some_iff.1 h
    cases hn; simp; omega
  · cases h
  · cases h; simp; omega
  · rename_i c tail _ _ _ _ _ _
    have : rest = tail := by
      repeat' split at h
      all_goals (cases h; rfl)
    subst this; simp

/-- The code points and surrogates that the body of a string denotes. -/
def points : List Char → Option (List Nat)
  | [] => some []
  | c :: cs =>
    if c = '\\' then
      match h : escape cs with
      | none => none
      | some (ps, rest) =>
        have := length_of_escape h
        (points rest).map (ps ++ ·)
    else (points cs).map (c.toNat :: ·)
termination_by cs => cs.length
decreasing_by all_goals (simp; try omega)

def isHigh (p : Nat) : Bool := 0xD800 ≤ p && p < 0xDC00

def isLow (p : Nat) : Bool := 0xDC00 ≤ p && p < 0xE000

def replacement : Char := '\uFFFD'

/-- Surrogates paired up or replaced; none where a point is no character at all. -/
def join : List Nat → Option (List Char)
  | [] => some []
  | h :: l :: ps =>
    if isHigh h && isLow l then
      (join ps).map (Char.ofNat (0x10000 + (h - 0xD800) * 0x400 + (l - 0xDC00)) :: ·)
    else if isHigh h || isLow h then (join (l :: ps)).map (replacement :: ·)
    else if maxPoint < h then none
    else (join (l :: ps)).map (Char.ofNat h :: ·)
  | [p] =>
    if isHigh p || isLow p then some [replacement]
    else if maxPoint < p then none
    else some [Char.ofNat p]

/-- The body between two equal quotes. -/
def body? : List Char → Option (List Char)
  | q :: cs =>
    if (q = '"' ∨ q = '\'') ∧ cs.getLast? = some q then some cs.dropLast else none
  | [] => none

/-- The text denoted by a quoted literal. -/
def string? (raw : String) : Option String := do
  let body ← body? raw.toList
  let ps ← points body
  (join ps).map String.ofList

/-- Digits with an optional fraction and an optional exponent, at least one digit before the
exponent. -/
def decimal? (negative : Bool) (cs : List Char) : Option Binary64 :=
  let whole := cs.takeWhile Char.isDigit
  let rest := cs.dropWhile Char.isDigit
  let (fraction, rest) :=
    match rest with
    | '.' :: rest => (rest.takeWhile Char.isDigit, rest.dropWhile Char.isDigit)
    | rest => ([], rest)
  if whole.isEmpty && fraction.isEmpty then none
  else do
    let digits ← digitsIn? 10 (whole ++ fraction) 0
    let exponent : Int ←
      match rest with
      | [] => some 0
      | 'e' :: '-' :: e => if e.isEmpty then none else (digitsIn? 10 e 0).map fun n => -(n : Int)
      | 'e' :: '+' :: e => if e.isEmpty then none else (digitsIn? 10 e 0).map fun n => (n : Int)
      | 'e' :: e => if e.isEmpty then none else (digitsIn? 10 e 0).map fun n => (n : Int)
      | _ => none
    some (Binary64.ofDecimal negative digits (exponent - fraction.length))

def signed? : List Char → Option Binary64
  | '-' :: cs => (unsigned? cs).map Binary64.neg
  | '+' :: cs => unsigned? cs
  | cs => unsigned? cs
where
  unsigned? (cs : List Char) : Option Binary64 :=
    if cs = ['i', 'n', 'f'] ∨ cs = ['i', 'n', 'f', 'i', 'n', 'i', 't', 'y'] then
      some Binary64.infinity
    else if cs = ['n', 'a', 'n'] then some Binary64.notANumber
    else decimal? false cs

/-- The number denoted by a numeric literal; separators are dropped, and a literal that ends in
`n` is no number. -/
def number? (raw : String) : Option Binary64 :=
  if raw.toList.getLast? = some 'n' then none
  else
    match (raw.toList.filter (· ≠ '_')).map Char.toLower with
    | '0' :: 'x' :: digits => (radixNumber? 16 (twoTo 64) digits).map Binary64.ofNat
    | '0' :: 'o' :: digits => (radixNumber? 8 (twoTo 64) digits).map Binary64.ofNat
    | '0' :: 'b' :: digits => (radixNumber? 2 (twoTo 64) digits).map Binary64.ofNat
    | cs => signed? cs

/-- The largest integer up to which every integer is a binary fraction. -/
def maxSafe : Nat := twoTo 53 - 1

/-- A finite number as JSON, an integer where it is one and can be trusted to be. -/
def numberJson? (x : Binary64) : Option Json :=
  if x.isFinite then
    match x.toInt? with
    | some i => some (.num (if i.natAbs ≤ maxSafe then .int i else .real x))
    | none => some (.num (.real x))
  else none

end StaticGql.Literal
