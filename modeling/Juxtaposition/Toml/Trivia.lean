/-!
# Blanks, comments, and line ends

The parts of a TOML document that carry no meaning. A line ends with a line
feed, which may have a carriage return before it. A carriage return alone ends
nothing.
-/

set_option autoImplicit false

namespace Juxtaposition.Toml

abbrev Reader (α : Type) := List Char → Option (α × List Char)

def isBlank (character : Char) : Bool :=
  character = ' ' || character = '\t'

/-- Characters of comments and of single-line strings: all but the control
characters, and the tab. -/
def isPrintable (character : Char) : Bool :=
  character = '\t' || (character ≥ ' ' && character ≠ '\x7f')

def skipBlanks (text : List Char) : List Char :=
  text.dropWhile isBlank

def newline? : List Char → Option (List Char)
  | '\n' :: rest => some rest
  | '\r' :: '\n' :: rest => some rest
  | _ => none

def skipComment : List Char → List Char
  | '#' :: rest => rest.dropWhile isPrintable
  | text => text

/-- The text after the end of the line. Blanks and a comment may come first. The
end of the document ends a line too. -/
def lineEnd? (text : List Char) : Option (List Char) :=
  match skipComment (skipBlanks text) with
  | [] => some []
  | rest => newline? rest

def skipLines (inComment : Bool) : List Char → List Char
  | '\r' :: '\n' :: rest => skipLines false rest
  | '\n' :: rest => skipLines false rest
  | character :: rest =>
      if inComment && isPrintable character then skipLines true rest
      else if isBlank character then skipLines false rest
      else if character = '#' then skipLines true rest
      else character :: rest
  | [] => []

end Juxtaposition.Toml
