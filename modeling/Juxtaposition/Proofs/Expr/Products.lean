import Juxtaposition.Answer.Explanation
import Juxtaposition.Proofs.Expr.Exchange
import Juxtaposition.Proofs.Layout.Walks

/-!
# Products

The provenance of every product in an expression. An edit supplies products with nothing
written between their factors, and takes none away. In a tree, the products of its expression
are the reachable ones.
-/

set_option autoImplicit false

namespace Juxtaposition

def Operator.product? (operator : Operator) (provenance : Provenance) : Option Provenance :=
  match operator with
  | mul => some provenance
  | add | sub | div | pow => none

namespace Expr

mutual

/-- The provenance of every product of an expression, outer products before inner ones. -/
def products : Expr → List Provenance
  | identifier _ | integer _ | float _ _ => []
  | call callee arguments => callee.products ++ productsAll arguments
  | operation operator lhs rhs provenance =>
      (operator.product? provenance).toList ++ (lhs.products ++ rhs.products)
  | group items => productsAll items
  | negation operand => operand.products

def productsAll : List Expr → List Provenance
  | [] => []
  | expr :: rest => expr.products ++ productsAll rest

end

theorem productsAll_eq_flatMap (exprs : List Expr) :
    productsAll exprs = exprs.flatMap products := by
  induction exprs with
  | nil => rfl
  | cons first rest ih => rw [productsAll, ih, List.flatMap_cons]

@[simp] theorem products_call (callee : Expr) (arguments : List Expr) :
    (call callee arguments).products = callee.products ++ arguments.flatMap products := by
  rw [products, productsAll_eq_flatMap]

@[simp] theorem products_group (items : List Expr) :
    (group items).products = items.flatMap products := by
  rw [products, productsAll_eq_flatMap]

@[simp] theorem products_product (lhs rhs : Expr) :
    (product lhs rhs).products = .missing :: (lhs.products ++ rhs.products) := by
  rw [product, products]
  rfl

def argumentsProducts (arguments : Option (List Expr)) : List Provenance :=
  (arguments.getD []).flatMap products

theorem products_named (arguments : Option (List Expr)) (name : String) :
    (named arguments name).products = argumentsProducts arguments := by
  cases arguments with
  | none => rw [named, products]; rfl
  | some arguments => rw [named, products_call, products]; rfl

/-- A number that takes arguments is multiplied by them. -/
theorem exists_products_counted (arguments : Option (List Expr)) (value : Int64) :
    ∃ supplied, (counted arguments value).products =
      List.replicate supplied .missing ++ argumentsProducts arguments := by
  cases arguments with
  | none => exact ⟨0, by rw [counted, products]; rfl⟩
  | some arguments =>
      refine ⟨1, ?_⟩
      rw [counted, products_product, products, products_group]
      rfl

end Expr

theorem NamePiece.exists_products_expr (arguments : Option (List Expr)) (piece : NamePiece) :
    ∃ supplied, (piece.expr arguments).products =
      List.replicate supplied .missing ++ Expr.argumentsProducts arguments := by
  cases piece with
  | name text => exact ⟨0, Expr.products_named arguments text⟩
  | number value => exact Expr.exists_products_counted arguments value

theorem NamePiece.products_expr_none (piece : NamePiece) : (piece.expr none).products = [] := by
  cases piece with
  | name text => exact Expr.products_named none text
  | number value => rw [expr, Expr.counted, Expr.products]

theorem NamePiece.exists_products_exprChain (arguments : Option (List Expr)) (piece : NamePiece)
    (rest : List NamePiece) :
    ∃ supplied, rest.length ≤ supplied ∧ (exprChain arguments piece rest).products =
      List.replicate supplied .missing ++ Expr.argumentsProducts arguments := by
  induction rest generalizing piece with
  | nil =>
      obtain ⟨supplied, same⟩ := exists_products_expr arguments piece
      exact ⟨supplied, Nat.zero_le _, same⟩
  | cons following rest ih =>
      obtain ⟨supplied, enough, same⟩ := ih following
      refine ⟨supplied + 1, Nat.succ_le_succ enough, ?_⟩
      rw [exprChain, Expr.products_product, products_expr_none, same, List.replicate_succ]
      rfl

namespace Expr

variable {options : Options} {old new expr expr' first last : Expr}

/-- A reduction writes new products in front of those that are there. -/
theorem Reduces.exists_supplied (reduces : Reduces options old new) :
    ∃ supplied, 0 < supplied ∧
      new.products = List.replicate supplied .missing ++ old.products := by
  cases reduces with
  | callOfCall called =>
      refine ⟨1, Nat.one_pos, ?_⟩
      rw [products_product, products_group, products_call]
      rfl
  | nonFunction isKept found =>
      refine ⟨1, Nat.one_pos, ?_⟩
      rw [products_product, products_group, products_call]
      rfl
  | @pieces arguments name first second rest split =>
      obtain ⟨supplied, enough, same⟩ :=
        NamePiece.exists_products_exprChain arguments first (second :: rest)
      exact ⟨supplied, Nat.lt_of_lt_of_le (Nat.succ_pos _) enough,
        by rw [same, products_named]⟩
  | @trailing arguments name letters value split =>
      obtain ⟨supplied, same⟩ := exists_products_counted arguments value
      refine ⟨supplied + 1, Nat.succ_pos _, ?_⟩
      rw [products_product, products, same, products_named, List.replicate_succ]
      rfl
  | @literal value text literal expr lenient found read =>
      obtain ⟨mantissa, exponent, mantissaRead, shape⟩ := ExponentLiteral.expr_eq_ok read
      have bare : mantissa.products = [] := by
        rcases ExponentLiteral.mantissaExpr_eq_ok mantissaRead with ⟨value, rfl⟩ | ⟨value, rfl⟩
        · rw [products]
        · rw [products]
      rcases shape with ⟨operator, rfl⟩ | rfl
      · cases operator with
        | mul => exact ⟨2, Nat.two_pos, by simp [products, bare, Operator.product?]⟩
        | _ => exact ⟨1, Nat.one_pos, by simp [products, bare, Operator.product?]⟩
      · refine ⟨2, Nat.two_pos, ?_⟩
        rw [products_product, products_product, bare]
        simp [products]

/-- An exchange replaces one run of products by another. -/
theorem Exchanges.exists_products (exchange : Exchanges old new expr expr') :
    ∃ front back, expr.products = front ++ old.products ++ back ∧
      expr'.products = front ++ new.products ++ back := by
  induction exchange with
  | here => exact ⟨[], [], by simp, by simp⟩
  | @callee _ _ arguments _ _ ih =>
      obtain ⟨front, back, before, after⟩ := ih
      exact ⟨front, back ++ arguments.flatMap products, by simp [before], by simp [after]⟩
  | @argument callee _ _ earlier later _ ih =>
      obtain ⟨front, back, before, after⟩ := ih
      exact ⟨callee.products ++ earlier.flatMap products ++ front,
        back ++ later.flatMap products, by simp [before], by simp [after]⟩
  | @lhs operator _ _ rhs provenance _ ih =>
      obtain ⟨front, back, before, after⟩ := ih
      exact ⟨(operator.product? provenance).toList ++ front, back ++ rhs.products,
        by simp [products, before], by simp [products, after]⟩
  | @rhs operator lhs _ _ provenance _ ih =>
      obtain ⟨front, back, before, after⟩ := ih
      exact ⟨(operator.product? provenance).toList ++ lhs.products ++ front, back,
        by simp [products, before], by simp [products, after]⟩
  | @item _ _ earlier later _ ih =>
      obtain ⟨front, back, before, after⟩ := ih
      exact ⟨earlier.flatMap products ++ front, back ++ later.flatMap products,
        by simp [before], by simp [after]⟩
  | operand _ ih => simpa only [products] using ih

theorem Step.exists_supplied (step : Step options expr expr') :
    ∃ supplied, 0 < supplied ∧
      expr'.products.Perm (List.replicate supplied .missing ++ expr.products) := by
  obtain ⟨old, new, reduces, exchange⟩ := step
  obtain ⟨supplied, some, same⟩ := reduces.exists_supplied
  obtain ⟨front, back, before, after⟩ := exchange.exists_products
  refine ⟨supplied, some, ?_⟩
  rw [before, after, same, ← List.append_assoc front, ← List.append_assoc (List.replicate _ _),
    ← List.append_assoc (List.replicate _ _)]
  exact ((List.perm_append_comm.append_right _).append_right _)

/-- Edits keep every product, and each of them supplies at least one. -/
theorem Steps.exists_supplied {count : Nat} (steps : Steps options count first last) :
    ∃ supplied, count ≤ supplied ∧
      last.products.Perm (List.replicate supplied .missing ++ first.products) := by
  induction steps with
  | refl => exact ⟨0, Nat.le_refl 0, List.Perm.refl _⟩
  | cons step _ ih =>
      obtain ⟨later, enough, rest⟩ := ih
      obtain ⟨supplied, some, here⟩ := step.exists_supplied
      refine ⟨later + supplied, by omega, rest.trans ?_⟩
      rw [List.replicate_add, List.append_assoc]
      exact here.append_left _

theorem Steps.mem_products_iff {count : Nat} {provenance : Provenance}
    (steps : Steps options count first last) :
    provenance ∈ last.products ↔
      provenance ∈ first.products ∨ provenance = .missing ∧ 0 < count := by
  cases count with
  | zero =>
      cases steps
      simp
  | succ count =>
      obtain ⟨supplied, enough, same⟩ := steps.exists_supplied
      have some : supplied ≠ 0 := Nat.ne_of_gt (Nat.lt_of_lt_of_le (Nat.succ_pos count) enough)
      rw [same.mem_iff, List.mem_append, List.mem_replicate, or_comm]
      simp [some]

end Expr

/-! ## Products of a tree -/

def Node.product? : Node → Option Provenance
  | operation operator _ _ provenance => operator.product? provenance
  | root _ | identifier _ | integer _ | float _ _ | call _ _ | group _ | negation _ => none

theorem Node.isProduct_iff {node : Node} {provenance : Provenance} :
    node.isProduct provenance = true ↔ node.product? = some provenance := by
  cases node with
  | operation operator lhs rhs found =>
      cases operator <;> simp [isProduct, product?, Operator.product?]
  | _ => simp [isProduct, product?]

theorem Node.products_expr {node : Node} {below : List Expr}
    (arity : below.length = node.children.length) :
    (node.expr below).products = node.product?.toList ++ below.flatMap Expr.products := by
  cases node with
  | root body =>
      obtain ⟨only, rfl⟩ := List.length_eq_one_iff.mp arity
      simp [expr, product?]
  | identifier name =>
      obtain rfl := List.length_eq_zero_iff.mp arity
      simp [expr, product?, Expr.products]
  | integer value =>
      obtain rfl := List.length_eq_zero_iff.mp arity
      simp [expr, product?, Expr.products]
  | float value literal =>
      obtain rfl := List.length_eq_zero_iff.mp arity
      simp [expr, product?, Expr.products]
  | call callee arguments =>
      obtain ⟨first, rest, rfl⟩ := List.exists_cons_of_length_eq_add_one arity
      simp [expr, product?]
  | operation operator lhs rhs provenance =>
      obtain ⟨left, right, rfl⟩ := List.length_eq_two.mp arity
      simp [expr, product?, Expr.products]
  | group items => simp [expr, product?]
  | negation operand =>
      obtain ⟨only, rfl⟩ := List.length_eq_one_iff.mp arity
      simp [expr, product?, Expr.products]

namespace Tree

variable {tree : Tree} {layout : Layout} {provenance : Provenance}

theorem Spans.products_exprAlong (spans : tree.Spans layout) :
    (tree.exprAlong layout).products =
      layout.places.filterMap fun id => (tree.node id).product? := by
  induction spans with
  | @node place below children _ _ _ ih =>
      have arity : (below.map tree.exprAlong).length = (tree.node place).children.length := by
        rw [show (tree.node place).children = _ from children, List.length_map, List.length_map]
      have inner : (below.map tree.exprAlong).flatMap Expr.products =
          (below.flatMap Layout.places).filterMap fun id => (tree.node id).product? := by
        rw [List.flatMap_map, List.filterMap_flatMap]
        exact List.flatMap_congr ih
      rw [exprAlong_node, Node.products_expr arity, inner, Layout.places_node, List.filterMap_cons]
      cases (tree.node place).product? <;> rfl

/-- The products of the expression in a tree are the reachable ones. -/
theorem Planted.mem_products_iff (planted : tree.Planted layout) :
    provenance ∈ (tree.exprAlong layout).products ↔
      ∃ id, tree.Reaches root id ∧ (tree.node id).isProduct provenance = true := by
  rw [planted.spans.products_exprAlong, List.mem_filterMap]
  refine exists_congr fun id => and_congr planted.reaches_iff.symm ?_
  exact Node.isProduct_iff.symm

theorem Planted.hasProduct_iff (planted : tree.Planted layout) :
    tree.hasProduct provenance = true ↔ provenance ∈ (tree.exprAlong layout).products :=
  planted.existsNode_iff.trans planted.mem_products_iff.symm

end Tree

end Juxtaposition
