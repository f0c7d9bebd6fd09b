import Juxtaposition.Text.Numeral
import Juxtaposition.Toml.Trivia
import Juxtaposition.Toml.Value

/-!
# Dates and times

TOML dates and times. Four digits and a hyphen always start a date, and two
digits and a colon a time, so either form can be told from a number by its first
characters.
-/

set_option autoImplicit false

namespace Juxtaposition.Toml

def readField (count least greatest : Nat) : Reader Nat := fun text =>
  let digits := text.take count
  let value := Text.digitsValue digits
  if digits.length = count ∧ digits.all Char.isDigit ∧ least ≤ value ∧ value ≤ greatest then
    some (value, text.drop count)
  else none

def readChar (expected : Char) : Reader Unit
  | character :: rest => if character = expected then some ((), rest) else none
  | [] => none

/-- Every fourth year is a leap year, but of the full centuries only every
fourth. -/
def isLeapYear (year : Nat) : Bool :=
  year % 4 = 0 && (year % 100 ≠ 0 || year % 400 = 0)

def daysIn (year month : Nat) : Nat :=
  if month = 2 then if isLeapYear year then 29 else 28
  else if month ∈ [4, 6, 9, 11] then 30
  else 31

def readDate : Reader Date := fun text => do
  let (year, text) ← readField 4 0 9999 text
  let ((), text) ← readChar '-' text
  let (month, text) ← readField 2 1 12 text
  let ((), text) ← readChar '-' text
  let (day, text) ← readField 2 1 (daysIn year month) text
  return (⟨year, month, day⟩, text)

def readSubsecond : Reader (List Char)
  | '.' :: rest =>
      let digits := rest.takeWhile Char.isDigit
      if digits.isEmpty then some ([], '.' :: rest)
      else some (digits, rest.dropWhile Char.isDigit)
  | text => some ([], text)

def readTime : Reader Time := fun text => do
  let (hour, text) ← readField 2 0 23 text
  let ((), text) ← readChar ':' text
  let (minute, text) ← readField 2 0 59 text
  let ((), text) ← readChar ':' text
  let (second, text) ← readField 2 0 60 text
  let (fraction, text) ← readSubsecond text
  return (⟨hour, minute, second, fraction⟩, text)

def readOffset : Reader (Option Int)
  | 'Z' :: rest | 'z' :: rest => some (some 0, rest)
  | '+' :: rest => readDistance 1 rest
  | '-' :: rest => readDistance (-1) rest
  | text => some (none, text)
where
  readDistance (sign : Int) : Reader (Option Int) := fun text => do
    let (hours, text) ← readField 2 0 23 text
    let ((), text) ← readChar ':' text
    let (minutes, text) ← readField 2 0 59 text
    return (some (sign * (60 * hours + minutes)), text)

def startsField (count : Nat) (mark : Char) (text : List Char) : Bool :=
  (text.take count).length == count && (text.take count).all Char.isDigit &&
    (text.drop count).head? == some mark

/-- The text after the `T` or the blank between a date and a time. A blank
without a time after it is no such mark. -/
def timeMark? : List Char → Option (List Char)
  | mark :: rest =>
      if (mark = 'T' || mark = 't' || mark = ' ') && startsField 2 ':' rest then some rest
      else none
  | [] => none

def startsMoment (text : List Char) : Bool :=
  startsField 4 '-' text || startsField 2 ':' text

def readMoment : Reader Moment := fun text =>
  if startsField 2 ':' text then do
    let (time, text) ← readTime text
    return (.time time, text)
  else do
    let (date, text) ← readDate text
    match timeMark? text with
    | none => return (.date date, text)
    | some text =>
        let (time, text) ← readTime text
        let (offset, text) ← readOffset text
        return (.both date time offset, text)

end Juxtaposition.Toml
