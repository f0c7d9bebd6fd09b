import Juxtaposition.Proofs.Expr.Leaves
import Juxtaposition.Proofs.Layout.Edit
import Juxtaposition.Proofs.Tree.Calls

/-!
# Leaves and their positions

The names and numbers of an expression together with their position: what is called, and what
stands for a value. An edit changes a run of them, and no position of the others.
-/

set_option autoImplicit false

namespace Juxtaposition

structure PlacedLeaf where
  leaf : Leaf
  isCallee : Bool

namespace Expr

mutual

def placedLeaves (isCallee : Bool) : Expr → List PlacedLeaf
  | identifier name => [⟨.name name, isCallee⟩]
  | integer value => [⟨.integer value, isCallee⟩]
  | float value literal => [⟨.float value literal, isCallee⟩]
  | call callee arguments => callee.placedLeaves true ++ placedLeavesAll arguments
  | operation _ lhs rhs _ => lhs.placedLeaves false ++ rhs.placedLeaves false
  | group items => placedLeavesAll items
  | negation operand => operand.placedLeaves false

def placedLeavesAll : List Expr → List PlacedLeaf
  | [] => []
  | expr :: rest => expr.placedLeaves false ++ placedLeavesAll rest

end

theorem placedLeavesAll_eq_flatMap (exprs : List Expr) :
    placedLeavesAll exprs = exprs.flatMap (placedLeaves false) := by
  induction exprs with
  | nil => rfl
  | cons first rest ih => rw [placedLeavesAll, ih, List.flatMap_cons]

variable {isCallee : Bool}

@[simp] theorem placedLeaves_call (callee : Expr) (arguments : List Expr) :
    (call callee arguments).placedLeaves isCallee =
      callee.placedLeaves true ++ arguments.flatMap (placedLeaves false) := by
  rw [placedLeaves, placedLeavesAll_eq_flatMap]

@[simp] theorem placedLeaves_group (items : List Expr) :
    (group items).placedLeaves isCallee = items.flatMap (placedLeaves false) := by
  rw [placedLeaves, placedLeavesAll_eq_flatMap]

@[simp] theorem placedLeaves_product (lhs rhs : Expr) :
    (product lhs rhs).placedLeaves isCallee =
      lhs.placedLeaves false ++ rhs.placedLeaves false := by
  rw [product, placedLeaves]

def argumentsPlaced (arguments : Option (List Expr)) : List PlacedLeaf :=
  (arguments.getD []).flatMap (placedLeaves false)

theorem placedLeaves_named (arguments : Option (List Expr)) (name : String)
    (value : arguments = none → isCallee = false) :
    (named arguments name).placedLeaves isCallee =
      ⟨.name name, arguments.isSome⟩ :: argumentsPlaced arguments := by
  cases arguments with
  | none => rw [named, placedLeaves, value rfl]; rfl
  | some arguments => rw [named, placedLeaves_call, placedLeaves]; rfl

theorem placedLeaves_counted (arguments : Option (List Expr)) (value : Int64) :
    (counted arguments value).placedLeaves false =
      ⟨.integer value, false⟩ :: argumentsPlaced arguments := by
  cases arguments with
  | none => rw [counted, placedLeaves]; rfl
  | some arguments => rw [counted, placedLeaves_product, placedLeaves, placedLeaves_group]; rfl

theorem map_placedLeaves (expr : Expr) (isCallee : Bool) :
    (expr.placedLeaves isCallee).map PlacedLeaf.leaf = expr.leaves := by
  have together {exprs : List Expr} (each : ∀ expr ∈ exprs, ∀ isCallee,
      (expr.placedLeaves isCallee).map PlacedLeaf.leaf = expr.leaves) :
      (exprs.flatMap (placedLeaves false)).map PlacedLeaf.leaf = exprs.flatMap leaves := by
    rw [List.map_flatMap]
    exact List.flatMap_congr fun expr member => each expr member false
  induction expr using induction generalizing isCallee with
  | identifier name => rfl
  | integer value => rfl
  | float value literal => rfl
  | call callee arguments inCallee inArguments =>
      rw [placedLeaves_call, leaves_call, List.map_append, inCallee, together inArguments]
  | operation operator lhs rhs provenance inLhs inRhs =>
      rw [placedLeaves, leaves, List.map_append, inLhs, inRhs]
  | group items inItems => rw [placedLeaves_group, leaves_group, together inItems]
  | negation operand inOperand => rw [placedLeaves, leaves, inOperand]

/-- An exchange replaces one run of leaves by another. What is called is not a name before
or after an exchange. -/
theorem Exchanges.exists_placedLeaves {old new expr expr' : Expr}
    (exchange : Exchanges old new expr expr') (isCallee : Bool)
    (unnamed : isCallee = true → expr.name? = none) :
    ∃ front back here, (here = true → old.name? = none) ∧
      expr.placedLeaves isCallee = front ++ old.placedLeaves here ++ back ∧
      expr'.placedLeaves isCallee = front ++ new.placedLeaves here ++ back := by
  induction exchange generalizing isCallee with
  | here => exact ⟨[], [], isCallee, unnamed, by simp, by simp⟩
  | @callee _ _ arguments _ alike ih =>
      obtain ⟨front, back, here, allowed, before, after⟩ := ih true fun _ => alike.unnamed_left
      exact ⟨front, back ++ arguments.flatMap (placedLeaves false), here, allowed,
        by simp [before], by simp [after]⟩
  | @argument callee _ _ earlier later _ ih =>
      obtain ⟨front, back, here, allowed, before, after⟩ := ih false nofun
      exact ⟨callee.placedLeaves true ++ earlier.flatMap (placedLeaves false) ++ front,
        back ++ later.flatMap (placedLeaves false), here, allowed,
        by simp [before], by simp [after]⟩
  | @lhs _ _ _ rhs _ _ ih =>
      obtain ⟨front, back, here, allowed, before, after⟩ := ih false nofun
      exact ⟨front, back ++ rhs.placedLeaves false, here, allowed,
        by simp [placedLeaves, before], by simp [placedLeaves, after]⟩
  | @rhs _ lhs _ _ _ _ ih =>
      obtain ⟨front, back, here, allowed, before, after⟩ := ih false nofun
      exact ⟨lhs.placedLeaves false ++ front, back, here, allowed,
        by simp [placedLeaves, before], by simp [placedLeaves, after]⟩
  | @item _ _ earlier later _ ih =>
      obtain ⟨front, back, here, allowed, before, after⟩ := ih false nofun
      exact ⟨earlier.flatMap (placedLeaves false) ++ front,
        back ++ later.flatMap (placedLeaves false), here, allowed,
        by simp [before], by simp [after]⟩
  | operand _ ih =>
      obtain ⟨front, back, here, allowed, before, after⟩ := ih false nofun
      exact ⟨front, back, here, allowed, by rw [placedLeaves, before],
        by rw [placedLeaves, after]⟩

theorem Exchanges.exists_leaves {old new expr expr' : Expr}
    (exchange : Exchanges old new expr expr') :
    ∃ front back, expr.leaves = front ++ old.leaves ++ back ∧
      expr'.leaves = front ++ new.leaves ++ back := by
  obtain ⟨front, back, here, _, before, after⟩ := exchange.exists_placedLeaves false nofun
  refine ⟨front.map PlacedLeaf.leaf, back.map PlacedLeaf.leaf, ?_, ?_⟩
  · rw [← map_placedLeaves expr false, before]
    simp [map_placedLeaves]
  · rw [← map_placedLeaves expr' false, after]
    simp [map_placedLeaves]

end Expr

/-! ## Leaves of a tree -/

namespace Node

def isCall : Node → Bool
  | call _ _ => true
  | _ => false

/-- The first child of a call is called. All other children stand for values. -/
theorem placedLeaves_expr {node : Node} {below : List Expr} {isCallee : Bool}
    (arity : below.length = node.children.length)
    (value : node.isRoot = true → isCallee = false) :
    (node.expr below).placedLeaves isCallee =
      (node.leaf?.map (PlacedLeaf.mk · isCallee)).toList ++
        (below.take 1).flatMap (Expr.placedLeaves node.isCall) ++
        below.tail.flatMap (Expr.placedLeaves false) := by
  cases node with
  | root body =>
      obtain ⟨only, rfl⟩ := List.length_eq_one_iff.mp arity
      rw [value rfl]
      simp [expr, leaf?, isCall]
  | identifier name =>
      obtain rfl := List.length_eq_zero_iff.mp arity
      simp [expr, leaf?, Expr.placedLeaves]
  | integer number =>
      obtain rfl := List.length_eq_zero_iff.mp arity
      simp [expr, leaf?, Expr.placedLeaves]
  | float number literal =>
      obtain rfl := List.length_eq_zero_iff.mp arity
      simp [expr, leaf?, Expr.placedLeaves]
  | call callee arguments =>
      obtain ⟨first, rest, rfl⟩ := List.exists_cons_of_length_eq_add_one arity
      simp [expr, leaf?, isCall]
  | operation operator lhs rhs provenance =>
      obtain ⟨left, right, rfl⟩ := List.length_eq_two.mp arity
      simp [expr, leaf?, isCall, Expr.placedLeaves]
  | group items =>
      cases below with
      | nil => simp [expr, leaf?]
      | cons first rest => simp [expr, leaf?, isCall]
  | negation operand =>
      obtain ⟨only, rfl⟩ := List.length_eq_one_iff.mp arity
      simp [expr, leaf?, isCall, Expr.placedLeaves]

end Node

namespace Tree

variable {tree : Tree} {layout : Layout} {place : NodeId}

def placedLeaf? (tree : Tree) (id : NodeId) : Option PlacedLeaf :=
  (tree.node id).leaf?.map fun leaf => ⟨leaf, tree.isCallee id⟩

theorem Spans.isCallee_child {place : NodeId} {below : List Layout} {child : Layout}
    (spans : tree.Spans (.node place below)) (nodup : (Layout.node place below).places.Nodup)
    (member : child ∈ below)
    (other : ∀ callee arguments, tree.node place = .call callee arguments → child ∈ below.tail) :
    tree.isCallee child.place = false := by
  cases called : tree.isCallee child.place with
  | false => rfl
  | true =>
      obtain ⟨holder, arguments, link, call⟩ := isCallee_eq_true_iff.mp called
      rw [spans.parent member, Option.some.injEq] at link
      subst link
      have children := spans.children
      rw [Tree.children, call] at children
      obtain ⟨first, rest, rfl, callee, _⟩ := List.map_eq_cons_iff.mp children.symm
      have later : child ∈ rest := other _ _ call
      have distinct := Layout.places_nodup_of_children nodup
      rw [List.map_cons, List.nodup_cons] at distinct
      exact absurd (List.mem_map_of_mem later) (callee ▸ distinct.1)

/-- The first child is called just when its holder is a call. -/
theorem Spans.isCallee_first {first : Layout} {rest : List Layout}
    (spans : tree.Spans (.node place (first :: rest)))
    (nodup : (Layout.node place (first :: rest)).places.Nodup) :
    tree.isCallee first.place = (tree.node place).isCall := by
  cases kind : tree.node place with
  | call callee arguments =>
      have children : (tree.node place).children = _ := spans.children
      rw [kind] at children
      obtain ⟨rfl, _⟩ := List.cons.inj children
      exact isCallee_eq_true_iff.mpr
        ⟨place, arguments, spans.parent List.mem_cons_self, kind⟩
  | _ => exact spans.isCallee_child nodup List.mem_cons_self (by simp [kind])

/-- The leaves of an expression are found in the tree, in the positions that they have there. -/
theorem Spans.placedLeaves_exprAlong (spans : tree.Spans layout) (nodup : layout.places.Nodup)
    (value : (tree.node layout.place).isRoot = true → tree.isCallee layout.place = false) :
    (tree.exprAlong layout).placedLeaves (tree.isCallee layout.place) =
      layout.places.filterMap tree.placedLeaf? := by
  induction layout using Layout.induction with
  | node place below ih =>
      have children : (tree.node place).children = _ := spans.children
      have arity : (below.map tree.exprAlong).length = (tree.node place).children.length := by
        rw [children, List.length_map, List.length_map]
      have childEq (child : Layout) (member : child ∈ below) :
          (tree.exprAlong child).placedLeaves (tree.isCallee child.place) =
            child.places.filterMap tree.placedLeaf? := by
        refine ih child member (spans.child member)
          ((Layout.Within.of_mem .refl member).nodup nodup) fun isRoot => ?_
        rw [spans.isRoot member] at isRoot
        cases isRoot
      have inner : ((below.map tree.exprAlong).take 1).flatMap
            (Expr.placedLeaves (tree.node place).isCall) ++
          (below.map tree.exprAlong).tail.flatMap (Expr.placedLeaves false) =
          (below.flatMap Layout.places).filterMap tree.placedLeaf? := by
        cases below with
        | nil => rfl
        | cons first rest =>
            have head := childEq first List.mem_cons_self
            rw [spans.isCallee_first nodup] at head
            have tail : (rest.map tree.exprAlong).flatMap (Expr.placedLeaves false) =
                (rest.flatMap Layout.places).filterMap tree.placedLeaf? := by
              rw [List.flatMap_map, List.filterMap_flatMap]
              refine List.flatMap_congr fun child member => ?_
              have later := List.mem_cons_of_mem first member
              rw [← childEq child later, spans.isCallee_child nodup later fun _ _ _ => member]
            rw [List.map_cons, List.tail_cons, tail, List.flatMap_cons, List.filterMap_append,
              ← head]
            simp
      rw [exprAlong_node, Node.placedLeaves_expr arity value, List.append_assoc, inner,
        Layout.places_node, List.filterMap_cons, Layout.place_node, placedLeaf?]
      cases (tree.node place).leaf? <;> rfl

end Tree

end Juxtaposition
