import Juxtaposition.Proofs.Layout.Spans
import Juxtaposition.Proofs.Tree.Renaming

/-!
# Nodes behind an expression

An expression tells what nodes it was read from, up to their places: the outline of the top
node, and the expressions below it.
-/

set_option autoImplicit false

namespace Juxtaposition

namespace Expr

def outline : Expr → Node
  | identifier name => .identifier name
  | integer value => .integer value
  | float value literal => .float value literal
  | call _ arguments => .call Tree.root (arguments.map fun _ => Tree.root)
  | operation operator _ _ provenance => .operation operator Tree.root Tree.root provenance
  | group items => .group (items.map fun _ => Tree.root)
  | negation _ => .negation Tree.root

def parts : Expr → List Expr
  | identifier _ | integer _ | float _ _ => []
  | call callee arguments => callee :: arguments
  | operation _ lhs rhs _ => [lhs, rhs]
  | group items => items
  | negation operand => [operand]

mutual

def outlines : Expr → List Node
  | identifier name => [.identifier name]
  | integer value => [.integer value]
  | float value literal => [.float value literal]
  | call callee arguments =>
      (call callee arguments).outline :: (callee.outlines ++ outlinesAll arguments)
  | operation operator lhs rhs provenance =>
      (operation operator lhs rhs provenance).outline :: (lhs.outlines ++ rhs.outlines)
  | group items => (group items).outline :: outlinesAll items
  | negation operand => (negation operand).outline :: operand.outlines

def outlinesAll : List Expr → List Node
  | [] => []
  | expr :: rest => expr.outlines ++ outlinesAll rest

end

theorem outlinesAll_eq_flatMap (exprs : List Expr) :
    outlinesAll exprs = exprs.flatMap outlines := by
  induction exprs with
  | nil => rfl
  | cons expr rest ih => rw [outlinesAll, ih, List.flatMap_cons]

theorem outlines_eq (expr : Expr) :
    expr.outlines = expr.outline :: expr.parts.flatMap outlines := by
  cases expr <;> simp [outlines, outline, parts, outlinesAll_eq_flatMap]

end Expr

namespace Node

variable {node : Node} {below : List Expr}

theorem outline_expr (inner : node.isRoot = false)
    (arity : below.length = node.children.length) : (node.expr below).outline = node.outline := by
  cases node with
  | root body => cases inner
  | identifier name => rfl
  | integer value => rfl
  | float value literal => rfl
  | call callee arguments =>
      obtain ⟨first, rest, rfl⟩ := List.exists_cons_of_length_eq_add_one arity
      have length : rest.length = arguments.length := Nat.succ.inj arity
      simp only [expr, Expr.outline, outline, rename, List.map_const', length]
  | operation operator lhs rhs provenance =>
      obtain ⟨left, right, rfl⟩ := List.length_eq_two.mp arity
      rfl
  | group items =>
      have length : below.length = items.length := arity
      simp only [expr, Expr.outline, outline, rename, List.map_const', length]
  | negation operand =>
      obtain ⟨only, rfl⟩ := List.length_eq_one_iff.mp arity
      rfl

theorem parts_expr (inner : node.isRoot = false)
    (arity : below.length = node.children.length) : (node.expr below).parts = below := by
  cases node with
  | root body => cases inner
  | identifier name => exact (List.length_eq_zero_iff.mp arity).symm
  | integer value => exact (List.length_eq_zero_iff.mp arity).symm
  | float value literal => exact (List.length_eq_zero_iff.mp arity).symm
  | call callee arguments =>
      obtain ⟨first, rest, rfl⟩ := List.exists_cons_of_length_eq_add_one arity
      rfl
  | operation operator lhs rhs provenance =>
      obtain ⟨left, right, rfl⟩ := List.length_eq_two.mp arity
      rfl
  | group items => rfl
  | negation operand =>
      obtain ⟨only, rfl⟩ := List.length_eq_one_iff.mp arity
      rfl

/-- Two nodes with the same outline differ in the places of their children only. -/
theorem eq_rename_of_outline {other : Node} {place : NodeId → NodeId}
    (same : other.outline = node.outline) (children : other.children = node.children.map place) :
    other = node.rename place := by
  cases node <;> cases other <;> simp_all [outline, rename, Node.children]

end Node

namespace Tree

variable {tree : Tree} {place : NodeId} {below : List Layout}

namespace Spans

theorem arity (spans : tree.Spans (.node place below)) :
    (below.map tree.exprAlong).length = (tree.node place).children.length := by
  rw [show (tree.node place).children = _ from spans.children, List.length_map, List.length_map]

theorem outline_exprAlong (spans : tree.Spans (.node place below))
    (inner : (tree.node place).isRoot = false) :
    (tree.exprAlong (.node place below)).outline = (tree.node place).outline := by
  rw [exprAlong_node]
  exact Node.outline_expr inner spans.arity

theorem parts_exprAlong (spans : tree.Spans (.node place below))
    (inner : (tree.node place).isRoot = false) :
    (tree.exprAlong (.node place below)).parts = below.map tree.exprAlong := by
  rw [exprAlong_node]
  exact Node.parts_expr inner spans.arity

/-- The nodes of a part, place by place, are those of its expression. -/
theorem outlines_exprAlong {part : Layout} (spans : tree.Spans part)
    (inner : (tree.node part.place).isRoot = false) :
    part.places.map (fun id => (tree.node id).outline) = (tree.exprAlong part).outlines := by
  induction part using Layout.induction with
  | node place below ih =>
      rw [Layout.places_node, List.map_cons, List.map_flatMap, Expr.outlines_eq,
        spans.outline_exprAlong inner, spans.parts_exprAlong inner, List.flatMap_map]
      refine congrArg _ (List.flatMap_congr fun child member => ?_)
      exact ih child member (spans.child member) (spans.isRoot member)

end Spans

end Tree

end Juxtaposition
