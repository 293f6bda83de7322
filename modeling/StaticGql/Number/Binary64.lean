/-!
Binary floating point of 64 bits, as exact integers. The magnitude is the word without its sign
bit: eleven bits of exponent over fifty-two bits of fraction, so a larger word is a larger number.
Rounding is to nearest, ties to the even word.
-/

namespace StaticGql

def twoTo (n : Nat) : Nat := Nat.pow 2 n

def tenTo (n : Nat) : Nat := Nat.pow 10 n

structure Binary64 where
  negative : Bool
  magnitude : Nat
  deriving DecidableEq, Repr

namespace Binary64

/-- The quotient nearest to `num / den`, a half going to the even neighbour. -/
def roundDiv (num den : Nat) : Nat :=
  let q := num / den
  let r := num % den
  if 2 * r < den then q
  else if den < 2 * r then q + 1
  else if q % 2 = 0 then q
  else q + 1

def hidden : Nat := twoTo 52

/-- The smallest positive number is one part in `unit`. -/
def unit : Nat := twoTo 1074

def infinite : Nat := 2047 * hidden

/-- The word of the number nearest to `num / den`. -/
def roundRatio (num den : Nat) : Nat :=
  let n := num * unit
  let shift := Nat.log2 (n / den) - 52
  min (shift * hidden + roundDiv n (den * twoTo shift)) infinite

/-- How many times the smallest positive number a finite word stands for. -/
def units (magnitude : Nat) : Nat :=
  if magnitude < hidden then magnitude
  else (hidden + magnitude % hidden) * twoTo (magnitude / hidden - 1)

def ofRatio (negative : Bool) (num den : Nat) : Binary64 := ⟨negative, roundRatio num den⟩

def ofNat (n : Nat) : Binary64 := ofRatio false n 1

def zero : Binary64 := ⟨false, 0⟩

def infinity : Binary64 := ⟨false, infinite⟩

def notANumber : Binary64 := ⟨false, infinite + hidden / 2⟩

def neg (x : Binary64) : Binary64 := ⟨!x.negative, x.magnitude⟩

def isFinite (x : Binary64) : Bool := x.magnitude < infinite

def isInfinite (x : Binary64) : Bool := x.magnitude = infinite

/-- The product of two finite numbers. -/
def mul (x y : Binary64) : Binary64 :=
  ofRatio (x.negative != y.negative) (units x.magnitude * units y.magnitude) (unit * unit)

/-- The quotient of a finite number by one that is finite and not zero. -/
def div (x y : Binary64) : Binary64 :=
  ofRatio (x.negative != y.negative) (units x.magnitude) (units y.magnitude)

/-- The number nearest to `digits · 10 ^ exponent`. Beyond the range of exponents the answer is
known without computing the power. -/
def ofDecimal (negative : Bool) (digits : Nat) (exponent : Int) : Binary64 :=
  if digits = 0 then ⟨negative, 0⟩
  else
    let size := (Nat.toDigits 10 digits).length
    if exponent + size > 400 then ⟨negative, infinite⟩
    else if exponent + size < -400 then ⟨negative, 0⟩
    else if exponent < 0 then ofRatio negative digits (tenTo exponent.natAbs)
    else ofRatio negative (digits * tenTo exponent.natAbs) 1

/-- The integer a finite number is, if it is one. -/
def toInt? (x : Binary64) : Option Int :=
  let n := units x.magnitude
  if x.isFinite && n % unit = 0 then
    some (if x.negative then -((n / unit : Nat) : Int) else (n / unit : Nat))
  else none

end Binary64
end StaticGql
