import Juxtaposition.Toml.Moment
import Juxtaposition.Toml.Number
import Juxtaposition.Toml.Quoted

/-!
# Statements

The lines of a TOML document: assignments to keys, headers of tables, and
headers of elements in lists of tables. Inline tables are put together from
assignments by the same rules as other tables.
-/

set_option autoImplicit false

namespace Juxtaposition.Toml

structure Key where
  path : List String
  last : String
deriving DecidableEq

inductive Statement where
  | assignment (key : Key) (value : Value)
  | header (key : Key)
  | elementHeader (key : Key)

/-- Parts of a dotted key, and likewise arrays and inline tables, are nested to
less than this depth. -/
def nestingLimit : Nat := 80

def isBareKeyChar (character : Char) : Bool :=
  character.isAlphanum || character = '-' || character = '_'

def readKeyPart : Reader String
  | '"' :: rest => readShortString ('"' :: rest)
  | '\'' :: rest => readShortString ('\'' :: rest)
  | text =>
      let bare := text.takeWhile isBareKeyChar
      if bare.isEmpty then none
      else some (String.ofList bare, text.dropWhile isBareKeyChar)

def readKeyWithin : (bound : Nat) → Reader Key
  | 0, _ => none
  | bound + 1, text => do
      let (part, rest) ← readKeyPart (skipBlanks text)
      match skipBlanks rest with
      | '.' :: rest =>
          let (key, rest) ← readKeyWithin bound rest
          return (⟨part :: key.path, key.last⟩, rest)
      | rest => return (⟨[], part⟩, rest)

def readKey : Reader Key := readKeyWithin (nestingLimit - 1)

/-- Put a value at the end of a path of dotted keys. Tables on the path are
made as needed. A table with a header of its own is never entered this way, nor
is an inline one, and the table at the end must stem from a dotted key. The key
itself must be new. -/
def Entries.assign (value : Value) (key : String) : List String → Entries → Option Entries
  | [], entries =>
      match entries.find? key with
      | some _ => none
      | none => some (entries.add key value)
  | part :: path, entries =>
      match entries.find? part with
      | none => do
          let inner ← assign value key path []
          return entries.add part (.table .dotted inner)
      | some (.table .dotted inner) => do
          let inner ← assign value key path inner
          return entries.set part (.table .dotted inner)
      | some (.table .path inner) =>
          if path.isEmpty then none
          else do
            let inner ← assign value key path inner
            return entries.set part (.table .path inner)
      | some (.tables earlier last) =>
          if path.isEmpty then none
          else do
            let last ← assign value key path last
            return entries.set part (.tables earlier last)
      | some _ => none

/-- Items between commas, up to a closing bracket. Each round reads an item, so
`bound` may be the length of the text plus one. -/
def readItems (item : Reader Value) : (bound : Nat) → Reader (List Value)
  | 0, _ => none
  | bound + 1, text =>
      match skipLines false text with
      | ']' :: rest => some ([], rest)
      | text => do
          let (value, rest) ← item text
          match skipLines false rest with
          | ',' :: rest =>
              let (values, rest) ← readItems item bound rest
              return (value :: values, rest)
          | ']' :: rest => return ([value], rest)
          | _ => none

def readAssignment (value : Reader Value) : Reader (Key × Value) := fun text => do
  let (key, rest) ← readKey text
  let ((), rest) ← readChar '=' rest
  let (value, rest) ← value (skipBlanks rest)
  return ((key, value), rest)

/-- Assignments between commas, up to a closing brace, on top of those already
made. Another assignment must follow a comma. -/
def readInlineEntries (value : Reader Value) : (bound : Nat) → Entries → Reader Entries
  | 0, _, _ => none
  | bound + 1, entries, text => do
      let ((key, assigned), rest) ← readAssignment value text
      let entries ← entries.assign assigned key.last key.path
      match skipBlanks rest with
      | ',' :: rest => readInlineEntries value bound entries rest
      | '\x7d' :: rest => return (entries, rest)
      | _ => none

def readInlineTable (value : Reader Value) : Reader Entries := fun text =>
  match skipBlanks text with
  | '\x7d' :: rest => some ([], rest)
  | text => readInlineEntries value (text.length + 1) [] text

/-- A value with at most `depth` arrays and inline tables inside one another. -/
def readValueWithin (depth : Nat) (text : List Char) : Option (Value × List Char) :=
  match text with
  | '"' :: _ | '\'' :: _ => do
      let (string, rest) ← readString text
      return (.string string, rest)
  | 't' :: 'r' :: 'u' :: 'e' :: rest => some (.boolean true, rest)
  | 'f' :: 'a' :: 'l' :: 's' :: 'e' :: rest => some (.boolean false, rest)
  | '[' :: rest =>
      match depth with
      | 0 => none
      | depth + 1 => do
          let (items, rest) ← readItems (readValueWithin depth) (rest.length + 1) rest
          return (.array items, rest)
  | '\x7b' :: rest =>
      match depth with
      | 0 => none
      | depth + 1 => do
          let (entries, rest) ← readInlineTable (readValueWithin depth) rest
          return (.table .inline entries, rest)
  | text =>
      if startsMoment text then do
        let (moment, rest) ← readMoment text
        return (.moment moment, rest)
      else readNumber text

def readValue : Reader Value := readValueWithin (nestingLimit - 1)

/-- A line with something in it, up to its line end. Two brackets in a row head
an element of a list of tables. -/
def readStatement : Reader Statement
  | '[' :: '[' :: rest => do
      let (key, rest) ← readKey rest
      let ((), rest) ← readChar ']' rest
      let ((), rest) ← readChar ']' rest
      return (.elementHeader key, rest)
  | '[' :: rest => do
      let (key, rest) ← readKey rest
      let ((), rest) ← readChar ']' rest
      return (.header key, rest)
  | text => do
      let ((key, value), rest) ← readAssignment readValue text
      return (.assignment key value, rest)

/-- All statements of a document. Each round reads a line, so `bound` may be the
length of the text plus one. -/
def readStatements : (bound : Nat) → List Char → Option (List Statement)
  | 0, _ => none
  | bound + 1, text =>
      match skipBlanks text with
      | [] => some []
      | '#' :: rest => do readStatements bound (← lineEnd? ('#' :: rest))
      | '\n' :: rest => do readStatements bound (← lineEnd? ('\n' :: rest))
      | '\r' :: rest => do readStatements bound (← lineEnd? ('\r' :: rest))
      | text => do
          let (statement, rest) ← readStatement text
          let statements ← readStatements bound (← lineEnd? rest)
          return statement :: statements

end Juxtaposition.Toml
