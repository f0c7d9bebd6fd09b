import Juxtaposition.Toml.Trivia

/-!
# Quoted strings

The four forms of TOML strings. Double quotes allow escapes, single quotes do
not. Three quotes in a row allow line ends, and up to two quotes of the same
kind, even in front of the closing ones.
-/

set_option autoImplicit false

namespace Juxtaposition.Toml

inductive Quote where
  | double
  | single
deriving DecidableEq

def Quote.character : Quote → Char
  | double => '"'
  | single => '\''

def hexDigit? (character : Char) : Option Nat :=
  if character.isDigit then some (character.toNat - '0'.toNat)
  else if 'a' ≤ character && character ≤ 'f' then some (character.toNat - 'a'.toNat + 10)
  else if 'A' ≤ character && character ≤ 'F' then some (character.toNat - 'A'.toNat + 10)
  else none

def hexValue? (digits : List Char) : Option Nat :=
  digits.foldlM (fun value character => (16 * value + ·) <$> hexDigit? character) 0

def readCode (count : Nat) : Reader Char := fun text => do
  let digits := text.take count
  if digits.length ≠ count then none
  else
    let code ← hexValue? digits
    if code.isValidChar then some (Char.ofNat code, text.drop count) else none

def readEscape : Reader Char
  | 'b' :: rest => some ('\x08', rest)
  | 't' :: rest => some ('\t', rest)
  | 'n' :: rest => some ('\n', rest)
  | 'f' :: rest => some ('\x0c', rest)
  | 'r' :: rest => some ('\r', rest)
  | '"' :: rest => some ('"', rest)
  | '\\' :: rest => some ('\\', rest)
  | 'u' :: rest => readCode 4 rest
  | 'U' :: rest => readCode 8 rest
  | _ => none

/-- The text after a backslash that ends a line. It takes the line end with it,
and all blanks and line ends after that. -/
def continuation? (text : List Char) : Option (List Char) :=
  (newline? (skipBlanks text)).map skipBlankLines
where
  skipBlankLines : List Char → List Char
    | '\r' :: '\n' :: rest => skipBlankLines rest
    | '\n' :: rest => skipBlankLines rest
    | character :: rest => if isBlank character then skipBlankLines rest else character :: rest
    | [] => []

/-- A string on one line, after its opening quote. Every step reads a character
of the text, so `bound` may be its length plus one. -/
def readLine (quote : Quote) : (bound : Nat) → Reader (List Char)
  | 0, _ => none
  | _ + 1, [] => none
  | bound + 1, character :: rest =>
      if character = quote.character then some ([], rest)
      else if quote = .double && character = '\\' then do
        let (escaped, rest) ← readEscape rest
        let (following, rest) ← readLine quote bound rest
        return (escaped :: following, rest)
      else if isPrintable character then do
        let (following, rest) ← readLine quote bound rest
        return (character :: following, rest)
      else none

/-- A string of several lines, after its opening quotes. Of a run of quotes the
last three close the string, and no more than two stand before them. -/
def readLines (quote : Quote) : (bound : Nat) → Reader (List Char)
  | 0, _ => none
  | bound + 1, text =>
      let quotes := text.takeWhile (· = quote.character)
      let rest := text.dropWhile (· = quote.character)
      if 3 ≤ quotes.length then
        let kept := quotes.take (min (quotes.length - 3) 2)
        some (kept, text.drop (kept.length + 3))
      else
        match newline? rest, rest with
        | some rest, _ => do
            let (following, rest) ← readLines quote bound rest
            return (quotes ++ '\n' :: following, rest)
        | none, [] => none
        | none, character :: rest =>
            if quote = .double && character = '\\' then
              match continuation? rest with
              | some rest => do
                  let (following, rest) ← readLines quote bound rest
                  return (quotes ++ following, rest)
              | none => do
                  let (escaped, rest) ← readEscape rest
                  let (following, rest) ← readLines quote bound rest
                  return (quotes ++ escaped :: following, rest)
            else if isPrintable character then do
              let (following, rest) ← readLines quote bound rest
              return (quotes ++ character :: following, rest)
            else none

def readShortString : Reader String
  | '"' :: rest => asString (readLine .double (rest.length + 1) rest)
  | '\'' :: rest => asString (readLine .single (rest.length + 1) rest)
  | _ => none
where
  asString (found : Option (List Char × List Char)) : Option (String × List Char) :=
    found.map fun (characters, rest) => (String.ofList characters, rest)

/-- A string of any form, with its quotes. A line end right after three opening
quotes is not part of the string. -/
def readString : Reader String
  | '"' :: '"' :: '"' :: rest => afterOpening .double rest
  | '\'' :: '\'' :: '\'' :: rest => afterOpening .single rest
  | text => readShortString text
where
  /-- A string of several lines, after its opening quotes and a first line
  end. -/
  afterOpening (quote : Quote) (text : List Char) : Option (String × List Char) :=
    let text := (newline? text).getD text
    (readLines quote (text.length + 1) text).map fun (characters, rest) =>
      (String.ofList characters, rest)

end Juxtaposition.Toml
