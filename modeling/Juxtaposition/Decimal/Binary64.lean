/-!
# Binary floating-point numbers

Numbers in the 64-bit binary interchange format, kept as their bits so that
two zeros and two not-a-numbers stay apart. A finite number is a sign and
`significand * 2 ^ exponent`. Rounding a quotient of natural numbers to the
nearest such number is exact integer arithmetic.
-/

set_option autoImplicit false

namespace Juxtaposition

def twoTo (exponent : Nat) : Nat := Nat.pow 2 exponent

def tenTo (exponent : Nat) : Nat := Nat.pow 10 exponent

/-- A 64-bit binary floating-point number, as its bits. -/
structure Binary64 where
  bits : UInt64
deriving DecidableEq

namespace Binary64

/-- The three kinds of values that a bit pattern stands for. The boolean is
true for a negative number. A finite number has magnitude
`significand * 2 ^ exponent`. -/
inductive Reading where
  | notANumber
  | infinite (negative : Bool)
  | finite (negative : Bool) (significand : Nat) (exponent : Int)
deriving DecidableEq

/-- The exponent of the numbers closest to zero, and the least one used. -/
def leastExponent : Int := -1074

/-- The top bit is the sign, eleven bits are the exponent field, and the other
fifty-two the fraction. A zero exponent field drops the implicit leading bit. -/
def reading (number : Binary64) : Reading :=
  let pattern := number.bits.toNat
  let negative := decide (twoTo 63 ≤ pattern)
  let field := pattern / twoTo 52 % twoTo 11
  let fraction := pattern % twoTo 52
  if field = 2047 then
    if fraction = 0 then .infinite negative else .notANumber
  else if field = 0 then
    .finite negative fraction leastExponent
  else
    .finite negative (twoTo 52 + fraction) (leastExponent + (field - 1 : Nat))

def zero : Binary64 := ⟨0⟩

def infinity : Binary64 := ⟨0x7ff0000000000000⟩

/-- Only an infinity has the full exponent field and no fraction. -/
def isInfinite (number : Binary64) : Bool :=
  match number.reading with
  | .infinite _ => true
  | _ => false

def negate (number : Binary64) : Binary64 :=
  ⟨number.bits ^^^ 0x8000000000000000⟩

def scaled (numerator denominator : Nat) (exponent : Int) : Nat × Nat :=
  if exponent < 0 then (numerator * twoTo (-exponent).toNat, denominator)
  else (numerator, denominator * twoTo exponent.toNat)

/-- The quotient rounded to a whole number, a half going to the even
neighbour. -/
def roundHalfEven (numerator denominator : Nat) : Nat :=
  let quotient := numerator / denominator
  let twice := 2 * (numerator % denominator)
  if twice < denominator then quotient
  else if denominator < twice then quotient + 1
  else quotient + quotient % 2

/-- The exponent that gives a positive quotient a significand of fifty-three
bits, raised to the least exponent for quotients below the normal range. -/
def exponentFor (numerator denominator : Nat) : Int :=
  let guess : Int := (Nat.log2 numerator : Int) - (Nat.log2 denominator : Int) - 52
  let (top, bottom) := scaled numerator denominator guess
  let exact := if top < bottom * twoTo 52 then guess - 1 else guess
  max exact leastExponent

/-- The number nearest to a quotient of natural numbers, a tie going to the
even significand. A quotient beyond the largest finite number gives infinity. -/
def nearest (numerator denominator : Nat) : Binary64 :=
  if numerator = 0 then zero
  else
    let exponent := exponentFor numerator denominator
    let (top, bottom) := scaled numerator denominator exponent
    let significand := roundHalfEven top bottom
    let pattern := (exponent - leastExponent).toNat * twoTo 52 + significand
    if pattern < 0x7ff0000000000000 then ⟨pattern.toUInt64⟩ else infinity

/-- The number nearest to `significand * 10 ^ exponent`. Powers of ten far
outside the finite range are settled by the number of digits alone. -/
def ofScientific (significand : Nat) (exponent : Int) : Binary64 :=
  let digits : Int := (Nat.toDigits 10 significand).length
  if significand = 0 then zero
  else if 310 < digits + exponent then infinity
  else if digits + exponent < -330 then zero
  else if exponent < 0 then nearest significand (tenTo (-exponent).toNat)
  else nearest (significand * tenTo exponent.toNat) 1

end Binary64

end Juxtaposition
