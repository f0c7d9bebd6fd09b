/-!
# Pieces of a name

Where a name that mixes letters and digits comes apart. A piece is a run of
non-digits with the digits after it. Only ASCII digits count as digits, and
every other character counts as a letter.
-/

set_option autoImplicit false

namespace Juxtaposition.Text

/-- Two neighbouring characters belong to one piece unless the first is a digit
and the second is not. -/
def joined (left right : Char) : Bool :=
  !left.isDigit || right.isDigit

/-- The pieces of a text, cut before every non-digit that directly follows a
digit. Digits at the start form a piece of their own. -/
def pieces (text : String) : List String :=
  (text.toList.splitBy joined).map String.ofList

def isNumeral (text : String) : Bool :=
  !text.isEmpty && text.toList.all Char.isDigit

/-- A text split in front of its first digit. The second half is empty when the
text has no digit. -/
def splitAtDigit (text : String) : String × String :=
  let (letters, rest) := text.toList.span fun character => !character.isDigit
  (String.ofList letters, String.ofList rest)

def bytesBeforeDigit? (text : String) : Option Nat :=
  let (letters, rest) := splitAtDigit text
  if rest.isEmpty then none else some letters.utf8ByteSize

def endsInDigit (text : String) : Bool :=
  text.toList.getLast?.any Char.isDigit

end Juxtaposition.Text
