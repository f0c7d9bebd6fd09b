import Juxtaposition.Proofs.Expr.Reduction
import Juxtaposition.Proofs.Layout.Walks

/-!
# Leaves

The names and numbers of an expression, from left to right. They are the leaves met on a
walk through a tree that holds the expression.
-/

set_option autoImplicit false

namespace Juxtaposition

inductive Leaf where
  | name (text : String)
  | integer (value : Int64)
  | float (value : Binary64) (literal : Option String)

namespace Expr

mutual

def leaves : Expr → List Leaf
  | identifier name => [.name name]
  | integer value => [.integer value]
  | float value literal => [.float value literal]
  | call callee arguments => callee.leaves ++ leavesAll arguments
  | operation _ lhs rhs _ => lhs.leaves ++ rhs.leaves
  | group items => leavesAll items
  | negation operand => operand.leaves

def leavesAll : List Expr → List Leaf
  | [] => []
  | expr :: rest => expr.leaves ++ leavesAll rest

end

theorem leavesAll_eq_flatMap (exprs : List Expr) : leavesAll exprs = exprs.flatMap leaves := by
  induction exprs with
  | nil => rfl
  | cons first rest ih => rw [leavesAll, ih, List.flatMap_cons]

@[simp] theorem leaves_call (callee : Expr) (arguments : List Expr) :
    (call callee arguments).leaves = callee.leaves ++ arguments.flatMap leaves := by
  rw [leaves, leavesAll_eq_flatMap]

@[simp] theorem leaves_group (items : List Expr) :
    (group items).leaves = items.flatMap leaves := by
  rw [leaves, leavesAll_eq_flatMap]

@[simp] theorem leaves_product (lhs rhs : Expr) :
    (product lhs rhs).leaves = lhs.leaves ++ rhs.leaves := by
  rw [product, leaves]

def argumentsLeaves (arguments : Option (List Expr)) : List Leaf :=
  (arguments.getD []).flatMap leaves

theorem leaves_named (arguments : Option (List Expr)) (name : String) :
    (named arguments name).leaves = .name name :: argumentsLeaves arguments := by
  cases arguments with
  | none => rw [named, leaves]; rfl
  | some arguments => rw [named, leaves_call, leaves]; rfl

theorem leaves_counted (arguments : Option (List Expr)) (value : Int64) :
    (counted arguments value).leaves = .integer value :: argumentsLeaves arguments := by
  cases arguments with
  | none => rw [counted, leaves]; rfl
  | some arguments => rw [counted, leaves_product, leaves, leaves_group]; rfl

end Expr

def NamePiece.leaf : NamePiece → Leaf
  | name text => .name text
  | number value => .integer value

theorem NamePiece.leaves_expr (arguments : Option (List Expr)) (piece : NamePiece) :
    (piece.expr arguments).leaves = piece.leaf :: Expr.argumentsLeaves arguments := by
  cases piece with
  | name text => exact Expr.leaves_named arguments text
  | number value => exact Expr.leaves_counted arguments value

theorem NamePiece.leaves_exprChain (arguments : Option (List Expr)) (piece : NamePiece)
    (rest : List NamePiece) :
    (exprChain arguments piece rest).leaves =
      (piece :: rest).map leaf ++ Expr.argumentsLeaves arguments := by
  induction rest generalizing piece with
  | nil => exact leaves_expr arguments piece
  | cons following rest ih =>
      rw [exprChain, Expr.leaves_product, leaves_expr, ih, List.map_cons, List.cons_append]
      rfl

/-! ## Leaves of a tree -/

def Node.leaf? : Node → Option Leaf
  | identifier name => some (.name name)
  | integer value => some (.integer value)
  | float value literal => some (.float value literal)
  | root _ | call _ _ | operation _ _ _ _ | group _ | negation _ => none

def Leaf.node : Leaf → Node
  | name text => .identifier text
  | integer value => .integer value
  | float value literal => .float value literal

theorem Node.leaf?_eq_some_iff {node : Node} {leaf : Leaf} :
    node.leaf? = some leaf ↔ node = leaf.node := by
  cases node <;> cases leaf <;> simp [leaf?, Leaf.node]

theorem Node.leaves_expr {node : Node} {below : List Expr}
    (arity : below.length = node.children.length) :
    (node.expr below).leaves = node.leaf?.toList ++ below.flatMap Expr.leaves := by
  cases node with
  | root body =>
      obtain ⟨only, rfl⟩ := List.length_eq_one_iff.mp arity
      simp [expr, leaf?]
  | identifier name =>
      obtain rfl := List.length_eq_zero_iff.mp arity
      simp [expr, leaf?, Expr.leaves]
  | integer value =>
      obtain rfl := List.length_eq_zero_iff.mp arity
      simp [expr, leaf?, Expr.leaves]
  | float value literal =>
      obtain rfl := List.length_eq_zero_iff.mp arity
      simp [expr, leaf?, Expr.leaves]
  | call callee arguments =>
      obtain ⟨first, rest, rfl⟩ := List.exists_cons_of_length_eq_add_one arity
      simp [expr, leaf?]
  | operation operator lhs rhs provenance =>
      obtain ⟨left, right, rfl⟩ := List.length_eq_two.mp arity
      simp [expr, leaf?, Expr.leaves]
  | group items => simp [expr, leaf?]
  | negation operand =>
      obtain ⟨only, rfl⟩ := List.length_eq_one_iff.mp arity
      simp [expr, leaf?, Expr.leaves]

namespace Tree

variable {tree : Tree} {layout : Layout}

def leaves (tree : Tree) (id : NodeId) : List Leaf :=
  (tree.preorder id).filterMap fun place => (tree.node place).leaf?

theorem Spans.leaves_exprAlong (spans : tree.Spans layout) :
    (tree.exprAlong layout).leaves = layout.places.filterMap fun id => (tree.node id).leaf? := by
  induction spans with
  | @node place below children _ _ _ ih =>
      have arity : (below.map tree.exprAlong).length = (tree.node place).children.length := by
        rw [show (tree.node place).children = _ from children, List.length_map, List.length_map]
      have inner : (below.map tree.exprAlong).flatMap Expr.leaves =
          (below.flatMap Layout.places).filterMap fun id => (tree.node id).leaf? := by
        rw [List.flatMap_map, List.filterMap_flatMap]
        exact List.flatMap_congr ih
      rw [exprAlong_node, Node.leaves_expr arity, inner, Layout.places_node, List.filterMap_cons]
      cases (tree.node place).leaf? <;> rfl

theorem Planted.leaves_root (planted : tree.Planted layout) :
    tree.leaves root = (tree.exprAlong layout).leaves := by
  rw [leaves, planted.preorder_root, planted.spans.leaves_exprAlong]

/-- Every leaf of the expression in a tree is a reachable node. -/
theorem Planted.mem_leaves_iff (planted : tree.Planted layout) {leaf : Leaf} :
    leaf ∈ (tree.exprAlong layout).leaves ↔
      ∃ id, tree.Reaches root id ∧ (tree.node id).leaf? = some leaf := by
  rw [planted.spans.leaves_exprAlong, List.mem_filterMap]
  exact exists_congr fun id => and_congr_left' planted.reaches_iff.symm

end Tree

end Juxtaposition
