import Juxtaposition.Decimal.Shortest

/-!
# Decimal notation of binary numbers

The text of a number that was not written as a literal. Numbers from `0.0001`
up to `10 ^ 16` are positional and always show a fractional part. Others use a
power of ten. Zero keeps its sign, and not-a-number has none.
-/

set_option autoImplicit false

namespace Juxtaposition

namespace Decimal

def positional (digits : List Char) (exponent : Int) : String :=
  let point := (digits.length : Int) + exponent
  if point ≤ 0 then
    "0." ++ String.ofList (List.replicate (-point).toNat '0' ++ digits)
  else if 0 ≤ exponent then
    String.ofList (digits ++ List.replicate exponent.toNat '0') ++ ".0"
  else
    String.ofList (digits.take point.toNat) ++ "." ++ String.ofList (digits.drop point.toNat)

def scientific (digits : List Char) (exponent : Int) : String :=
  let power := exponent + (digits.length : Int) - 1
  let fraction := digits.drop 1
  String.ofList (digits.take 1) ++
    (if fraction.isEmpty then "" else "." ++ String.ofList fraction) ++
    "e" ++ toString power

def text (decimal : Decimal) : String :=
  let digits := Nat.toDigits 10 decimal.digits
  let kept := (digits.reverse.dropWhile (· == '0')).reverse
  let exponent := decimal.exponent + ((digits.length - kept.length : Nat) : Int)
  let point := (kept.length : Int) + exponent
  if -3 ≤ point ∧ point ≤ 16 then positional kept exponent else scientific kept exponent

end Decimal

def Binary64.text (number : Binary64) : String :=
  match number.reading with
  | .notANumber => "NaN"
  | .infinite negative => if negative then "-inf" else "inf"
  | .finite negative significand exponent =>
      (if negative then "-" else "") ++
        (if significand = 0 then "0.0" else (Decimal.shortest significand exponent).text)

end Juxtaposition
