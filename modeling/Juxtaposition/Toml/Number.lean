import Juxtaposition.Text.Numeral
import Juxtaposition.Toml.Quoted
import Juxtaposition.Toml.Value

/-!
# Numbers

TOML integers and floats. An underscore may stand between two digits. Decimal
numbers have no leading zeros, and only they have a sign. Integers must fit in
sixty-four bits, and floats must not exceed the largest finite number.
-/

set_option autoImplicit false

namespace Juxtaposition.Toml

/-- The digits after the first one, each with at most one underscore before it.
An underscore without a digit after it is refused. -/
def readMoreDigits (isDigit : Char → Bool) : Reader (List Char)
  | '_' :: character :: rest =>
      if isDigit character then do
        let (following, rest) ← readMoreDigits isDigit rest
        return (character :: following, rest)
      else none
  | ['_'] => none
  | character :: rest =>
      if isDigit character then do
        let (following, rest) ← readMoreDigits isDigit rest
        return (character :: following, rest)
      else some ([], character :: rest)
  | [] => some ([], [])

def readDigits (isDigit : Char → Bool) : Reader (List Char)
  | character :: rest =>
      if isDigit character then do
        let (following, rest) ← readMoreDigits isDigit rest
        return (character :: following, rest)
      else none
  | [] => none

/-- One or more decimal digits. More than one do not start with a zero. -/
def readWhole : Reader (List Char)
  | '0' :: rest => some (['0'], rest)
  | text => readDigits Char.isDigit text

def readFraction : Reader (List Char) := readDigits Char.isDigit

/-- An exponent, if there is one. A marker needs digits after it. -/
def readExponent : Reader (Option Int)
  | marker :: rest =>
      if marker = 'e' || marker = 'E' then do
        let (negative, rest) := Text.splitSign rest
        let (digits, rest) ← readDigits Char.isDigit rest
        let magnitude : Int := Text.digitsValue digits
        return (some (if negative then -magnitude else magnitude), rest)
      else some (none, marker :: rest)
  | [] => some (none, [])

/-- The float with the given decimal digits. Positive overflow is refused. -/
def floatOf? (negative : Bool) (whole fraction : List Char) (exponent : Int) : Option Value :=
  let magnitude :=
    Binary64.ofScientific (Text.digitsValue (whole ++ fraction)) (exponent - fraction.length)
  if negative then some (.float magnitude.negate)
  else if magnitude.isInfinite then none
  else some (.float magnitude)

def readDecimal (negative : Bool) : Reader Value := fun text => do
  let (whole, rest) ← readWhole text
  match rest with
  | '.' :: rest =>
      let (fraction, rest) ← readFraction rest
      let (exponent, rest) ← readExponent rest
      return (← floatOf? negative whole fraction (exponent.getD 0), rest)
  | rest =>
      match ← readExponent rest with
      | (some exponent, rest) => return (← floatOf? negative whole [] exponent, rest)
      | (none, rest) =>
          let magnitude : Int := Text.digitsValue whole
          let value ← Text.int64? (if negative then -magnitude else magnitude)
          return (.integer value, rest)

def readInBase (base : Nat) : Reader Value := fun text => do
  let isDigit (character : Char) : Bool := (hexDigit? character).any (· < base)
  let (digits, rest) ← readDigits isDigit text
  let magnitude :=
    digits.foldl (fun value character => base * value + (hexDigit? character).getD 0) 0
  return (.integer (← Text.int64? magnitude), rest)

def quietNaN : Binary64 := ⟨0x7ff8000000000000⟩

def readNumber : Reader Value
  | '0' :: 'x' :: rest => readInBase 16 rest
  | '0' :: 'o' :: rest => readInBase 8 rest
  | '0' :: 'b' :: rest => readInBase 2 rest
  | text =>
      let (negative, rest) := Text.splitSign text
      let signed (magnitude : Binary64) : Value :=
        .float (if negative then magnitude.negate else magnitude)
      match rest with
      | 'i' :: 'n' :: 'f' :: rest => some (signed .infinity, rest)
      | 'n' :: 'a' :: 'n' :: rest => some (signed quietNaN, rest)
      | rest => readDecimal negative rest

end Juxtaposition.Toml
