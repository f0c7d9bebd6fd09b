import Juxtaposition.Decimal.Binary64

/-!
# Shortest decimal digits

The fewest decimal digits that still identify a positive binary number among
its neighbours. Every number between the midpoints to its two neighbours reads
back as that number, and so do the midpoints themselves when the significand is
even. Grids of one, two, and more digits are tried in turn. On each grid only
the two points around the number can lie in that interval.
-/

set_option autoImplicit false

namespace Juxtaposition

structure Decimal where
  digits : Nat
  exponent : Int
deriving DecidableEq

namespace Decimal

/-- The interval of numbers that read back as one binary number. All three
numbers are numerators over the common denominator `bottom`. -/
structure Neighbourhood where
  lower : Nat
  value : Nat
  upper : Nat
  bottom : Nat
  closed : Bool

namespace Neighbourhood

/-- The neighbourhood of `significand * 2 ^ exponent`. The gap below a power
of two is half as wide as the one above, unless that power is the least normal
one. -/
def of (significand : Nat) (exponent : Int) : Neighbourhood :=
  let below :=
    if significand = twoTo 52 ∧ exponent ≠ Binary64.leastExponent then 1 else 2
  let unit := if exponent < 2 then 1 else twoTo (exponent - 2).toNat
  let bottom := if exponent < 2 then twoTo (2 - exponent).toNat else 1
  { lower := (4 * significand - below) * unit
    value := 4 * significand * unit
    upper := (4 * significand + 2) * unit
    bottom := bottom
    closed := significand % 2 = 0 }

def contains (around : Neighbourhood) (scale point : Nat) : Bool :=
  if around.closed then
    decide (around.lower * scale ≤ point) && decide (point ≤ around.upper * scale)
  else
    decide (around.lower * scale < point) && decide (point < around.upper * scale)

end Neighbourhood

/-- The exponent `k` with `10 ^ (k - 1) ≤ top / bottom < 10 ^ k`, for a positive
quotient. The search starts from the number of digits of both parts, which is at
most one too large. -/
def magnitude (top bottom : Nat) : Int :=
  let guess : Int :=
    ((Nat.toDigits 10 top).length : Int) - ((Nat.toDigits 10 bottom).length : Int) + 1
  let reaches : Bool :=
    if guess - 1 < 0 then decide (bottom ≤ top * tenTo (1 - guess).toNat)
    else decide (bottom * tenTo (guess - 1).toNat ≤ top)
  if reaches then guess else guess - 1

/-- The point of the grid with step `10 ^ step` that identifies a number: the
nearer of the two points around it when both do, and the upper one of two
equally near. -/
def gridPoint? (around : Neighbourhood) (step : Int) : Option Nat :=
  let scale := tenTo (-step).toNat
  let unit := tenTo step.toNat * around.bottom
  let value := around.value * scale
  let floor := value / unit
  let floorIn := around.contains scale (floor * unit)
  let ceilingIn := around.contains scale ((floor + 1) * unit)
  let floorNearer := decide (2 * (value % unit) < unit)
  match floorIn, ceilingIn with
  | true, true => some (if floorNearer then floor else floor + 1)
  | true, false => some floor
  | false, true => some (floor + 1)
  | false, false => none

/-- The first of `count` successively finer grids, starting from `step`, with a
point that identifies the number. The last grid serves when none has one. -/
def shortestFrom (around : Neighbourhood) (step : Int) : Nat → Decimal
  | 0 => ⟨around.value * tenTo (-step).toNat / (tenTo step.toNat * around.bottom), step⟩
  | count + 1 =>
      match gridPoint? around step with
      | some point => ⟨point, step⟩
      | none => shortestFrom around (step - 1) count

/-- The shortest decimal that identifies the positive number
`significand * 2 ^ exponent`. Seventeen digits always suffice. -/
def shortest (significand : Nat) (exponent : Int) : Decimal :=
  let around := Neighbourhood.of significand exponent
  shortestFrom around (magnitude around.value around.bottom - 1) 17

end Decimal

end Juxtaposition
