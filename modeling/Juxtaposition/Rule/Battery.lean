import Juxtaposition.Rule.CallShape
import Juxtaposition.Rule.ExponentLiteral
import Juxtaposition.Rule.NameSplit

/-!
# The standard rules

All rules in the order of their precedence: calls, then names, then literals.
-/

set_option autoImplicit false

namespace Juxtaposition

/-- The standard rules. At a node the first rule with a proposal wins. -/
def Rule.standard : List Rule :=
  [callOfCall, functionNameShape, letterDigitPair, digitRunSplit, trailingDigitsSplit,
    exponentLiteral]

end Juxtaposition
