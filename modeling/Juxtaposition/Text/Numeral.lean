import Juxtaposition.Decimal.Binary64

/-!
# Reading numerals

Integers of at most sixty-four bits and decimal fractions. The lenient readings
take the longest start of a text that looks like a number and ignore the rest.
-/

set_option autoImplicit false

namespace Juxtaposition

/-- Digits that no sixty-four bit integer can hold, or no integer at all. -/
structure Oversized where
  digits : String
deriving DecidableEq

namespace Text

def splitSign : List Char → Bool × List Char
  | '-' :: rest => (true, rest)
  | '+' :: rest => (false, rest)
  | text => (false, text)

def digitsValue (digits : List Char) : Nat :=
  Nat.ofDigitChars 10 digits 0

def int64? (value : Int) : Option Int64 :=
  if Int64.minValue.toInt ≤ value ∧ value ≤ Int64.maxValue.toInt then some (Int64.ofInt value)
  else none

/-- The integer that a whole text denotes: at most one sign, then at least one
digit. -/
def integer? (text : List Char) : Option Int64 :=
  let (negative, digits) := splitSign text
  if digits.isEmpty || !digits.all Char.isDigit then none
  else int64? (if negative then -(digitsValue digits : Int) else digitsValue digits)

def readInteger (text : String) : Except Oversized Int64 :=
  match integer? text.toList with
  | some value => .ok value
  | none => .error ⟨text⟩

/-- An optional sign and the digits after it, read as an integer. What follows
is ignored, and no digits at all read as zero. -/
def readIntegerStart (text : String) : Except Oversized Int64 := do
  let (negative, rest) := splitSign text.toList
  let digits := rest.takeWhile Char.isDigit
  if digits.isEmpty then
    return 0
  let magnitude ← readInteger (String.ofList digits)
  return if negative then -magnitude else magnitude

/-- Digits with at most one decimal point among them, split at the point. What
follows is ignored. -/
def splitFraction (text : List Char) : List Char × List Char :=
  let (whole, rest) := text.span Char.isDigit
  match rest with
  | '.' :: rest => (whole, rest.takeWhile Char.isDigit)
  | _ => (whole, [])

/-- An optional sign, and digits with at most one decimal point among them,
read as the nearest binary number. What follows is ignored, and no digits at
all read as positive zero. -/
def readDecimalStart (text : String) : Binary64 :=
  let (negative, rest) := splitSign text.toList
  let (whole, fraction) := splitFraction rest
  if whole.isEmpty && fraction.isEmpty then Binary64.zero
  else
    let magnitude := Binary64.nearest (digitsValue (whole ++ fraction)) (tenTo fraction.length)
    if negative then magnitude.negate else magnitude

end Text

end Juxtaposition
