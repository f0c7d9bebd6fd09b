import Juxtaposition.Expr.Printer
import Juxtaposition.Tree.Basic

/-!
# The expression in a tree

Reading an expression off the arena. The child links below a node give a finite
expression exactly when they do not run in a circle.
-/

set_option autoImplicit false

namespace Juxtaposition.Tree

/-- The expression below a node, if it is nested no deeper than `bound`. A root
node reads as its body. -/
def exprWithin? (tree : Tree) : Nat → NodeId → Option Expr
  | 0, _ => none
  | bound + 1, id =>
      match tree.node id with
      | .root body => tree.exprWithin? bound body
      | .identifier name => some (.identifier name)
      | .integer value => some (.integer value)
      | .float value literal => some (.float value literal)
      | .call callee arguments => do
          let callee ← tree.exprWithin? bound callee
          let arguments ← arguments.mapM (tree.exprWithin? bound)
          return .call callee arguments
      | .operation operator lhs rhs provenance => do
          let lhs ← tree.exprWithin? bound lhs
          let rhs ← tree.exprWithin? bound rhs
          return .operation operator lhs rhs provenance
      | .group items => do
          let items ← items.mapM (tree.exprWithin? bound)
          return .group items
      | .negation operand => do
          let operand ← tree.exprWithin? bound operand
          return .negation operand

/-- The expression below a node. No path without repetition is longer than the
arena, so a deeper nesting means a cycle. -/
def expr? (tree : Tree) (id : NodeId) : Option Expr :=
  tree.exprWithin? tree.size id

def render (tree : Tree) (highlight : Highlight) (id : NodeId) : String :=
  match tree.expr? id with
  | some expr => expr.render highlight
  | none => ""

end Juxtaposition.Tree
