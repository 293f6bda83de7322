import StaticGql.Number.Binary64

/-!
The shortest decimal that reads back as a given number, and its layout as text.
-/

namespace StaticGql

/-- The number `0.d₁d₂… · 10 ^ point`, its digits as one integer of `count` digits. -/
structure Decimal where
  digits : Nat
  count : Nat
  point : Int
  deriving DecidableEq, Repr

namespace Binary64

/-- The least `k` from `k` on with `10 ^ k * num ≥ den`, searched for `fuel` steps. -/
def leadingZeros (num den : Nat) : Nat → Nat → Nat
  | 0, k => k
  | fuel + 1, k => if den ≤ num * tenTo k then k else leadingZeros num den fuel (k + 1)

/-- Where the decimal point stands: the value lies in `[10 ^ (point - 1), 10 ^ point)`. -/
def pointOf (num den : Nat) : Int :=
  if den ≤ num then ((Nat.toDigits 10 (num / den)).length : Int)
  else 1 - (leadingZeros num den 400 0 : Int)

/-- The two neighbours of `num / den` on the grid of `count` digits, the nearer one first. -/
def neighbours (num den : Nat) (point : Int) (count : Nat) : List Nat :=
  let shift := (count : Int) - point
  let n := if shift < 0 then num else num * tenTo shift.natAbs
  let d := if shift < 0 then den * tenTo shift.natAbs else den
  let low := n / d
  let r := n % d
  if r = 0 then [low]
  else if 2 * r < d ∨ (2 * r = d ∧ low % 2 = 0) then [low, low + 1]
  else [low + 1, low]

def readsBack (magnitude : Nat) (digits count : Nat) (point : Int) : Bool :=
  (ofDecimal false digits (point - count)).magnitude = magnitude

/-- The first grid from `count` digits on that holds a decimal reading back as the word. -/
def search (magnitude : Nat) (num den : Nat) (point : Int) : Nat → Nat → Decimal
  | 0, count => ⟨(neighbours num den point count).headD 0, count, point⟩
  | fuel + 1, count =>
    match (neighbours num den point count).find? (readsBack magnitude · count point) with
    | some digits => ⟨digits, count, point⟩
    | none => search magnitude num den point fuel (count + 1)

/-- Trailing zeros dropped; a carry into a new place is absorbed here. -/
def trim : Nat → Decimal → Decimal
  | 0, d => d
  | fuel + 1, d =>
    if d.count > 1 ∧ d.digits % 10 = 0 then trim fuel ⟨d.digits / 10, d.count - 1, d.point⟩ else d

/-- The fewest digits that read back; of two such decimals the nearer, of two at one distance the
even one. -/
def shortest (magnitude : Nat) : Decimal :=
  let num := units magnitude
  let point := pointOf num unit
  let d := search magnitude num unit point 17 1
  let d := if d.digits = tenTo d.count then ⟨1, 1, d.point + 1⟩ else d
  trim 20 d

/-- How a number is laid out as text. -/
structure Layout where
  /-- Positional notation from `10 ^ low` on … -/
  low : Int
  /-- … and below `10 ^ high`. -/
  high : Int

/-- Positional notation for `1e-5 ≤ x < 1e16` with a digit on each side of the point; elsewhere an
exponent with its sign. -/
def layout : Layout := ⟨-5, 16⟩

def zeros (n : Nat) : List Char := List.replicate n '0'

def positional (digits : List Char) (point : Int) : List Char :=
  if point ≤ 0 then '0' :: '.' :: (zeros point.natAbs ++ digits)
  else
    let n := point.toNat
    let whole := digits.take n
    let rest := digits.drop n
    whole ++ zeros (n - whole.length) ++ '.' :: (if rest.isEmpty then ['0'] else rest)

def scientific (digits : List Char) (point : Int) : List Char :=
  let e := point - 1
  let mantissa :=
    match digits with
    | [] => []
    | [d] => [d]
    | d :: rest => d :: '.' :: rest
  let sign := if e < 0 then '-' else '+'
  mantissa ++ 'e' :: sign :: Nat.toDigits 10 e.natAbs

/-- The text of a finite number. -/
def text (x : Binary64) : String :=
  let body :=
    if x.magnitude = 0 then ['0', '.', '0']
    else
      let d := shortest x.magnitude
      let digits := Nat.toDigits 10 d.digits
      if layout.low < d.point ∧ d.point ≤ layout.high then positional digits d.point
      else scientific digits d.point
  String.ofList (if x.negative then '-' :: body else body)

end Binary64
end StaticGql
