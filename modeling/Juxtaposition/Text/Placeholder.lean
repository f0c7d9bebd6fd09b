/-!
# The question mark placeholder

Question marks cannot be part of a name, so a reader of typed answers writes a
placeholder in their stead. Text shown to a student has the question marks back.
-/

set_option autoImplicit false

namespace Juxtaposition.Text

def placeholder : String := "QMCHAR"

/-- Put a question mark for every placeholder, from the left. Characters that
belong to a placeholder already replaced are passed over, and `skip` counts
them. -/
def restoreFrom (skip : Nat) : List Char → List Char
  | [] => []
  | character :: rest =>
      match skip with
      | skip + 1 => restoreFrom skip rest
      | 0 =>
          if placeholder.toList.isPrefixOf (character :: rest) then
            '?' :: restoreFrom (placeholder.length - 1) rest
          else character :: restoreFrom 0 rest

def restoreQuestionMarks (text : String) : String :=
  String.ofList (restoreFrom 0 text.toList)

end Juxtaposition.Text
