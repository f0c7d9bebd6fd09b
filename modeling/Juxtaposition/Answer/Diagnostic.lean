/-!
# Diagnostics

What a student is told about a rejected answer.
-/

set_option autoImplicit false

namespace Juxtaposition

/-- An explanation for a student. The first two quote the answer with the
products in question marked, the last one quotes the digits. -/
inductive Diagnostic where
  | missingStars (quoted : String)
  | spaces (quoted : String)
  | integerOverflow (digits : String)
deriving DecidableEq

namespace Diagnostic

def quotation (quoted : String) : String :=
  "<span class=\"stacksyntaxexample\">" ++ quoted ++ "</span>"

def quoted : Diagnostic → String
  | missingStars quoted | spaces quoted | integerOverflow quoted => quoted

def message : Diagnostic → String
  | missingStars quoted =>
      "You seem to be missing * characters. Perhaps you meant to type " ++
        quotation quoted ++ "."
  | spaces quoted => "Illegal spaces found in expression " ++ quotation quoted ++ "."
  | integerOverflow digits => "The number " ++ quotation digits ++ " is too large."

end Diagnostic

end Juxtaposition
