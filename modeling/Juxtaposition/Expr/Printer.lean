import Juxtaposition.Decimal.Notation
import Juxtaposition.Expr.Basic

/-!
# Printing expressions

Compact text as a student would type it. Groups print their own parentheses.
Further parentheses appear only around an operand that binds less tightly than
its place demands. A supplied `*` can be marked for display.
-/

set_option autoImplicit false

namespace Juxtaposition

inductive Highlight where
  | none
  | missing
  | whitespace
deriving DecidableEq

def reddened (glyph : String) : String :=
  "<font color=\"red\">" ++ glyph ++ "</font>"

def Highlight.operatorText (highlight : Highlight) (operator : Operator)
    (provenance : Provenance) : String :=
  match operator, highlight, provenance with
  | .mul, .missing, .missing => reddened "*"
  | .mul, .whitespace, .whitespace => reddened "_"
  | operator, _, _ => operator.symbol

namespace Expr

def atomPrecedence : Nat := 4

/-- Binding strength of an expression as an operand. A negation binds like a
sum when seen from outside. -/
def precedence : Expr → Nat
  | operation operator _ _ _ => operator.precedence
  | negation _ => Operator.add.precedence
  | _ => atomPrecedence

/-- The least binding strength the left operand of an operator may have
without parentheses. Powers group to the right. -/
def leftMinimum (operator : Operator) : Nat :=
  match operator with
  | .add | .sub | .mul | .div => operator.precedence
  | .pow => operator.precedence + 1

/-- The least binding strength the right operand of an operator may have
without parentheses. Differences and quotients group to the left. -/
def rightMinimum (operator : Operator) : Nat :=
  match operator with
  | .sub | .div => operator.precedence + 1
  | .add | .mul | .pow => operator.precedence

def enclose (minimum strength : Nat) (text : String) : String :=
  if strength < minimum then "(" ++ text ++ ")" else text

mutual

/-- The text of an expression. The operand of a negation needs at least the
binding strength of a product, and a callee that of an atom. -/
def render (highlight : Highlight) : Expr → String
  | identifier name => name
  | integer value => toString value.toInt
  | float _ (some literal) => literal
  | float value none => value.text
  | call callee arguments =>
      enclose atomPrecedence callee.precedence (callee.render highlight) ++
        "(" ++ renderItems highlight arguments ++ ")"
  | group items => "(" ++ renderItems highlight items ++ ")"
  | negation operand =>
      "-" ++ enclose Operator.mul.precedence operand.precedence (operand.render highlight)
  | operation operator lhs rhs provenance =>
      enclose (leftMinimum operator) lhs.precedence (lhs.render highlight) ++
        highlight.operatorText operator provenance ++
        enclose (rightMinimum operator) rhs.precedence (rhs.render highlight)

def renderItems (highlight : Highlight) : List Expr → String
  | [] => ""
  | [item] => item.render highlight
  | item :: rest => item.render highlight ++ "," ++ renderItems highlight rest

end

end Expr

end Juxtaposition
