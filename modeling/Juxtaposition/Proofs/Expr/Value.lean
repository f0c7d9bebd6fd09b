import Juxtaposition.Expr.Printer
import Juxtaposition.Proofs.Notation.Phrase

/-!
# Values of expressions

Names stand for rational numbers, and all operators but that of powers are rational arithmetic. A
quotient by zero is zero.
-/

set_option autoImplicit false

namespace Juxtaposition

structure Interpretation where
  name : String → Rat
  power : Rat → Rat → Rat

namespace Interpretation

def operate (interpretation : Interpretation) : Operator → Rat → Rat → Rat
  | .add, left, right => left + right
  | .sub, left, right => left - right
  | .mul, left, right => left * right
  | .div, left, right => left / right
  | .pow, base, exponent => interpretation.power base exponent

end Interpretation

namespace Expr

inductive IsArithmetic : Expr → Prop where
  | identifier {name : String} : Notation.isName name = true → IsArithmetic (identifier name)
  | integer (value : Int64) : IsArithmetic (integer value)
  | operation {lhs rhs : Expr} (operator : Operator) (provenance : Provenance) :
      IsArithmetic lhs → IsArithmetic rhs → IsArithmetic (operation operator lhs rhs provenance)
  | negation {operand : Expr} : IsArithmetic operand → IsArithmetic (negation operand)

/-- The value of an arithmetic expression. Nothing else has a value. -/
def value (interpretation : Interpretation) : Expr → Rat
  | identifier name => interpretation.name name
  | integer value => Rat.ofInt value.toInt
  | operation operator lhs rhs _ =>
      interpretation.operate operator (lhs.value interpretation) (rhs.value interpretation)
  | negation operand => -operand.value interpretation
  | float _ _ | call _ _ | group _ => 0

def isSigned : Expr → Bool
  | integer value => decide (value.toInt < 0)
  | identifier _ | float _ _ | call _ _ | operation _ _ _ _ | group _ | negation _ => false

/-- No term begins with a power of a signed number. The flag says whether a term begins with this
expression. A bracket begins one, and so does the plus of a sum. -/
def signsClear (leads : Bool) : Expr → Bool
  | operation operator lhs rhs _ =>
      !(leads && operator == .pow && lhs.isSigned) &&
        lhs.signsClear (leads || decide (lhs.precedence < leftMinimum operator)) &&
        rhs.signsClear (operator == .add || decide (rhs.precedence < rightMinimum operator))
  | negation operand =>
      operand.signsClear (decide (operand.precedence < Operator.mul.precedence))
  | identifier _ | integer _ | float _ _ | call _ _ | group _ => true

theorem precedence_pos (expr : Expr) : 0 < expr.precedence := by
  cases expr with
  | operation operator => cases operator <;> exact Nat.succ_pos _
  | _ => exact Nat.succ_pos _

end Expr

end Juxtaposition
