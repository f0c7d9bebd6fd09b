/-!
# Printing TOML strings

A string is written in the plainest of the four forms that needs no escape: on
one line in double quotes, then in single quotes, then over several lines. When
all of them need escapes, double quotes are used. Inside double quotes a tab is
always escaped.
-/

set_option autoImplicit false

namespace Juxtaposition.Toml

/-- A character that only an escape can express: the control characters other
than tab and line feed. -/
def needsCode (character : Char) : Bool :=
  (character < ' ' && character ≠ '\t' && character ≠ '\n') || character = '\x7f'

def longestRun (wanted : Char) (text : List Char) : Nat :=
  (text.foldl
    (fun (longest, current) character =>
      let current := if character = wanted then current + 1 else 0
      (max longest current, current))
    (0, 0)).1

inductive StringForm where
  | basic
  | literal
  | basicLines
  | literalLines
deriving DecidableEq

namespace StringForm

def choose (text : List Char) : StringForm :=
  let coded := text.any needsCode
  let escaped := coded || text.contains '\\'
  let lines := text.contains '\n'
  if !escaped && longestRun '"' text = 0 && !lines then basic
  else if !coded && longestRun '\'' text = 0 && !lines then literal
  else if !escaped && longestRun '"' text ≤ 2 then basicLines
  else if !coded && longestRun '\'' text ≤ 2 then literalLines
  else if lines then basicLines
  else basic

def isLong : StringForm → Bool
  | basicLines | literalLines => true
  | basic | literal => false

def delimiter : StringForm → String
  | basic => "\""
  | literal => "'"
  | basicLines => "\"\"\""
  | literalLines => "'''"

end StringForm

def hexDigit (value : Nat) : Char :=
  if value < 10 then Char.ofNat ('0'.toNat + value) else Char.ofNat ('A'.toNat + value - 10)

def codeEscape (character : Char) : List Char :=
  let code := character.toNat
  ['\\', 'u', '0', '0', hexDigit (code / 16), hexDigit (code % 16)]

/-- The characters of a string inside double quotes. Over several lines, line
feeds stand for themselves, and so do up to two quotes in a row, which `quotes`
counts. -/
def escapeFrom (long : Bool) (quotes : Nat) : List Char → List Char
  | [] => []
  | character :: rest =>
      if character = '"' then
        if long && quotes < 2 then '"' :: escapeFrom long (quotes + 1) rest
        else '\\' :: '"' :: escapeFrom long 0 rest
      else if character = '\\' then '\\' :: '\\' :: escapeFrom long 0 rest
      else if character = '\x08' then '\\' :: 'b' :: escapeFrom long 0 rest
      else if character = '\t' then '\\' :: 't' :: escapeFrom long 0 rest
      else if character = '\x0c' then '\\' :: 'f' :: escapeFrom long 0 rest
      else if character = '\r' then '\\' :: 'r' :: escapeFrom long 0 rest
      else if character = '\n' && !long then '\\' :: 'n' :: escapeFrom long 0 rest
      else if needsCode character then codeEscape character ++ escapeFrom long 0 rest
      else character :: escapeFrom long 0 rest

/-- A string with its quotes. A long form opens with a line end of its own when
the string has several lines. -/
def printString (text : String) : String :=
  let characters := text.toList
  let form := StringForm.choose characters
  let opening := if form.isLong && characters.contains '\n' then "\n" else ""
  let content :=
    match form with
    | .basic | .basicLines => String.ofList (escapeFrom form.isLong 0 characters)
    | .literal | .literalLines => text
  form.delimiter ++ opening ++ content ++ form.delimiter

def printStrings (texts : List String) : String :=
  "[" ++ String.intercalate ", " (texts.map printString) ++ "]"

def printBoolean (value : Bool) : String :=
  if value then "true" else "false"

def printLine (key value : String) : String :=
  key ++ " = " ++ value ++ "\n"

end Juxtaposition.Toml
