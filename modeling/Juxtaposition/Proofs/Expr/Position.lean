import Juxtaposition.Proofs.Layout.Parts

/-!
# Positions in an expression

A path names the part to take at each expression on the way down. One subexpression is
exchanged by its path, so it does not matter how often an equal one occurs elsewhere.
-/

set_option autoImplicit false

namespace Juxtaposition

namespace Expr

def subexpr? : Expr → List Nat → Option Expr
  | expr, [] => some expr
  | expr, slot :: path => expr.parts[slot]?.bind fun part => part.subexpr? path

/-- The expression with `replacement` in the place that a path leads to. The expressions on the
way keep their own nodes and their other parts. -/
def replaceAt : Expr → List Nat → (replacement : Expr) → Expr
  | _, [], replacement => replacement
  | expr, slot :: path, replacement =>
      expr.outline.expr (expr.parts.modify slot fun part => part.replaceAt path replacement)

end Expr

namespace Node

variable {node : Node} {before after : List Expr} {part : Expr}

theorem subexpr?_expr (inner : node.isRoot = false)
    (arity : (before ++ part :: after).length = node.children.length) (path : List Nat) :
    (node.expr (before ++ part :: after)).subexpr? (before.length :: path) =
      part.subexpr? path := by
  rw [Expr.subexpr?, parts_expr inner arity, List.getElem?_append_right (Nat.le_refl _),
    Nat.sub_self]
  rfl

theorem replaceAt_expr (inner : node.isRoot = false)
    (arity : (before ++ part :: after).length = node.children.length) (path : List Nat)
    (replacement : Expr) :
    (node.expr (before ++ part :: after)).replaceAt (before.length :: path) replacement =
      node.expr (before ++ part.replaceAt path replacement :: after) := by
  have modified : (before ++ part :: after).modify before.length
      (fun part => part.replaceAt path replacement) =
        before ++ part.replaceAt path replacement :: after := by
    simp [List.modify_eq_take_cons_drop]
  rw [Expr.replaceAt, outline_expr inner arity, parts_expr inner arity, outline, expr_rename,
    modified]

end Node

end Juxtaposition
