import Juxtaposition.Proofs.Expr.EditCount
import Juxtaposition.Proofs.Layout.Walks

/-!
# The size of an expression

Nodes, and bytes of names and literals. An expression takes no more edits than its
size, and its size is no more than the weight of the tree it is read from.
-/

set_option autoImplicit false

namespace Juxtaposition

namespace Expr

variable {options : Options}

mutual

def extent : Expr → Nat
  | identifier name => name.utf8ByteSize + 1
  | integer _ => 1
  | float _ none => 1
  | float _ (some literal) => literal.utf8ByteSize + 1
  | call callee arguments => callee.extent + extentAll arguments + 1
  | operation _ lhs rhs _ => lhs.extent + rhs.extent + 1
  | group items => extentAll items + 1
  | negation operand => operand.extent + 1

def extentAll : List Expr → Nat
  | [] => 0
  | expr :: rest => expr.extent + extentAll rest

end

private theorem editCountAll_le_extentAll {exprs : List Expr}
    (inner : ∀ expr ∈ exprs, expr.editCount options ≤ expr.extent) :
    editCountAll options exprs ≤ extentAll exprs := by
  induction exprs with
  | nil => exact Nat.le_refl 0
  | cons first rest ih =>
      rw [editCountAll, extentAll]
      exact Nat.add_le_add (inner first List.mem_cons_self)
        (ih fun expr member => inner expr (List.mem_cons_of_mem _ member))

theorem literalCount_le_one (options : Options) (literal : Option String) :
    literalCount options literal ≤ 1 := by
  cases literal with
  | none => exact Nat.zero_le 1
  | some text =>
      unfold literalCount
      dsimp only
      split
      · exact Nat.zero_le 1
      · split <;> omega

/-- An expression takes no more edits than its size. -/
theorem editCount_le_extent (options : Options) (expr : Expr) :
    expr.editCount options ≤ expr.extent := by
  induction expr using Expr.induction with
  | identifier name =>
      rw [editCount, extent]
      exact options.nameCount_le false name
  | integer value =>
      rw [editCount]
      exact Nat.zero_le _
  | float value literal =>
      have spent := literalCount_le_one options literal
      cases literal <;> rw [editCount, extent] <;> omega
  | call callee arguments calleeBound argumentsBound =>
      have rest := editCountAll_le_extentAll argumentsBound
      cases found : callee.name? with
      | some name =>
          cases callee with
          | identifier text =>
              have head := options.nameCount_le true text
              rw [editCount, name?, extent, extent]
              dsimp only
              omega
          | _ => cases found
      | none =>
          rw [editCount_call_of_unnamed arguments found, extent]
          split <;> omega
  | operation operator lhs rhs provenance lhsBound rhsBound =>
      rw [editCount, extent]
      omega
  | group items itemsBound =>
      have rest := editCountAll_le_extentAll itemsBound
      rw [editCount, extent]
      omega
  | negation operand operandBound =>
      rw [editCount, extent]
      omega

theorem extentAll_map_flatMap {layouts : List Layout} {expr : Layout → Expr}
    {tree : Tree} (inner : ∀ layout ∈ layouts,
      (expr layout).extent ≤ layout.places.length + tree.textAt layout.places) :
    extentAll (layouts.map expr) ≤
      (layouts.flatMap Layout.places).length + tree.textAt (layouts.flatMap Layout.places) := by
  induction layouts with
  | nil => exact Nat.zero_le _
  | cons first rest ih =>
      have head := inner first List.mem_cons_self
      have tail := ih fun layout member => inner layout (List.mem_cons_of_mem _ member)
      rw [List.map_cons, extentAll, List.flatMap_cons, List.length_append, Tree.textAt_append]
      omega

end Expr

theorem Node.extent_expr_le (node : Node) (below : List Expr) :
    (node.expr below).extent ≤ node.textSize + Expr.extentAll below + 1 := by
  cases node with
  | identifier name => simp only [expr, Expr.extent, textSize]; omega
  | integer value => simp only [expr, Expr.extent]; omega
  | float value literal => cases literal <;> simp only [expr, Expr.extent, textSize] <;> omega
  | group items => simp only [expr, Expr.extent]; omega
  | call callee arguments =>
      cases below <;> simp only [expr, Expr.extent, Expr.extentAll] <;> omega
  | root body =>
      rcases below with _ | ⟨first, _ | ⟨second, rest⟩⟩ <;>
        simp only [expr, Expr.extent, Expr.extentAll] <;> omega
  | negation operand =>
      rcases below with _ | ⟨first, _ | ⟨second, rest⟩⟩ <;>
        simp only [expr, Expr.extent, Expr.extentAll] <;> omega
  | operation operator lhs rhs provenance =>
      rcases below with _ | ⟨first, _ | ⟨second, _ | ⟨third, rest⟩⟩⟩ <;>
        simp only [expr, Expr.extent, Expr.extentAll] <;> omega

theorem Tree.extent_exprAlong_le (tree : Tree) (layout : Layout) :
    (tree.exprAlong layout).extent ≤ layout.places.length + tree.textAt layout.places := by
  induction layout using Layout.induction with
  | node place below ih =>
      have top := (tree.node place).extent_expr_le (below.map tree.exprAlong)
      have rest := Expr.extentAll_map_flatMap ih
      rw [Tree.exprAlong_node, Layout.places_node, List.length_cons, Tree.textAt, List.foldr_cons]
      rw [Tree.textAt] at rest
      omega

theorem Tree.Planted.editCount_le {tree : Tree} {layout : Layout} (planted : tree.Planted layout)
    (options : Options) :
    (tree.exprAlong layout).editCount options ≤
      (tree.weight root).nodes + (tree.weight root).text := by
  rw [planted.weight_root]
  exact Nat.le_trans (Expr.editCount_le_extent options _) (tree.extent_exprAlong_le layout)

end Juxtaposition
