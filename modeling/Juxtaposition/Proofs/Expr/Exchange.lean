import Juxtaposition.Proofs.Expr.Reduction
import Juxtaposition.Proofs.Layout.Spans

/-!
# Exchanges along a layout

Grafting a part of a layout exchanges a subexpression of the expression that is read
along it.
-/

set_option autoImplicit false

namespace Juxtaposition

namespace Node

open Juxtaposition.Expr (CalledAlike Exchanges)

variable {node : Node} {old new expr expr' : Expr} {before after below below' : List Expr}

theorem exchanges_expr (arity : node.children.length = (before ++ expr :: after).length)
    (exchange : Exchanges old new expr expr')
    (alike : ∀ callee arguments, node = .call callee arguments → before = [] →
      CalledAlike expr expr') :
    Exchanges old new (node.expr (before ++ expr :: after))
      (node.expr (before ++ expr' :: after)) := by
  rw [List.length_append, List.length_cons] at arity
  cases node with
  | root body =>
      simp only [children, List.length_singleton] at arity
      obtain rfl := List.length_eq_zero_iff.mp (show before.length = 0 by omega)
      obtain rfl := List.length_eq_zero_iff.mp (show after.length = 0 by omega)
      exact exchange
  | identifier name => simp [children] at arity
  | integer value => simp [children] at arity
  | float value literal => simp [children] at arity
  | call callee arguments =>
      cases before with
      | nil => exact .callee exchange (alike callee arguments rfl rfl)
      | cons first rest => exact .argument exchange
  | operation operator lhs rhs provenance =>
      simp only [children, List.length_cons, List.length_nil] at arity
      rcases before with _ | ⟨first, before⟩
      · have single : after.length = 1 := by
          rw [List.length_nil] at arity
          omega
        obtain ⟨second, rfl⟩ := List.length_eq_one_iff.mp single
        exact .lhs exchange
      · rw [List.length_cons] at arity
        obtain rfl := List.length_eq_zero_iff.mp (show before.length = 0 by omega)
        obtain rfl := List.length_eq_zero_iff.mp (show after.length = 0 by omega)
        exact .rhs exchange
  | group items => exact .item exchange
  | negation operand =>
      simp only [children, List.length_singleton] at arity
      obtain rfl := List.length_eq_zero_iff.mp (show before.length = 0 by omega)
      obtain rfl := List.length_eq_zero_iff.mp (show after.length = 0 by omega)
      exact .operand exchange

theorem kind_expr (isRoot : node.isRoot = false) (arity : below.length = node.children.length) :
    (node.expr below).name? = node.name? ∧
      (node.expr below).isCallOrGroup = node.isCallOrGroup := by
  cases node with
  | root body => cases isRoot
  | identifier name => exact ⟨rfl, rfl⟩
  | integer value => exact ⟨rfl, rfl⟩
  | float value literal => exact ⟨rfl, rfl⟩
  | call callee arguments =>
      obtain ⟨first, rest, rfl⟩ := List.exists_cons_of_length_eq_add_one arity
      exact ⟨rfl, rfl⟩
  | operation operator lhs rhs provenance =>
      obtain ⟨left, right, rfl⟩ := List.length_eq_two.mp arity
      exact ⟨rfl, rfl⟩
  | group items => exact ⟨rfl, rfl⟩
  | negation operand =>
      obtain ⟨only, rfl⟩ := List.length_eq_one_iff.mp arity
      exact ⟨rfl, rfl⟩

theorem calledAlike_expr (isRoot : node.isRoot = false) (inner : node.children ≠ [])
    (arity : below.length = node.children.length)
    (arity' : below'.length = node.children.length) :
    CalledAlike (node.expr below) (node.expr below') := by
  have unnamed : node.name? = none := by
    cases node with
    | identifier name => exact absurd rfl inner
    | _ => rfl
  obtain ⟨name, kind⟩ := kind_expr isRoot arity
  obtain ⟨name', kind'⟩ := kind_expr isRoot arity'
  exact ⟨by rw [name, unnamed], by rw [name', unnamed], by rw [kind, kind']⟩

end Node

namespace Tree

open Juxtaposition.Expr (CalledAlike Exchanges)

variable {tree edited : Tree} {layout part grafted : Layout}

theorem Spans.kind_exprAlong (spans : tree.Spans layout)
    (isRoot : (tree.node layout.place).isRoot = false) :
    (tree.exprAlong layout).name? = tree.name? layout.place ∧
      (tree.exprAlong layout).isCallOrGroup = (tree.node layout.place).isCallOrGroup := by
  cases layout with
  | node place below =>
      rw [exprAlong_node]
      refine Node.kind_expr isRoot ?_
      have children : (tree.node place).children = _ := spans.children
      rw [children, List.length_map, List.length_map]

private theorem calledAlike_graft (spans : tree.Spans layout) (nodup : layout.places.Nodup)
    (isRoot : (tree.node layout.place).isRoot = false) (inside : part.Within layout)
    (same : ∀ id ∈ layout.outside part.place, (edited.node id).expr = (tree.node id).expr)
    (here : layout = part → CalledAlike (tree.exprAlong part) (edited.exprAlong grafted)) :
    CalledAlike (tree.exprAlong layout)
      (edited.exprAlong (layout.graft part.place grafted)) := by
  cases inside with
  | refl =>
      rw [Layout.graft_place]
      exact here rfl
  | @child place before after child inside =>
      have children : (tree.node place).children = _ := spans.children
      rw [Layout.outside_split nodup inside.place_mem] at same
      rw [Layout.graft_split grafted nodup inside.place_mem, exprAlong_node, exprAlong_node,
        same place List.mem_cons_self]
      refine Node.calledAlike_expr isRoot ?_ ?_ ?_
      · rw [children]
        simp
      · rw [children, List.length_map, List.length_map]
      · rw [children, List.length_map, List.length_map]
        simp

/-- Grafting a part exchanges its expression for that of its replacement, when the two
may be called alike wherever the part is called. -/
theorem Spans.exchanges_graft (spans : tree.Spans layout) (nodup : layout.places.Nodup)
    (inside : part.Within layout)
    (same : ∀ id ∈ layout.outside part.place, (edited.node id).expr = (tree.node id).expr)
    (alike : ∀ place rest arguments, (Layout.node place (part :: rest)).Within layout →
      tree.node place = .call part.place arguments →
      CalledAlike (tree.exprAlong part) (edited.exprAlong grafted)) :
    Exchanges (tree.exprAlong part) (edited.exprAlong grafted) (tree.exprAlong layout)
      (edited.exprAlong (layout.graft part.place grafted)) := by
  induction inside with
  | refl =>
      rw [Layout.graft_place]
      exact .here
  | @child place before after child inside ih =>
      have member := inside.place_mem
      obtain ⟨distinct, _, _, _⟩ := Layout.nodup_split nodup
      have spansChild : tree.Spans child := spans.child (by simp)
      have isRoot : (tree.node child.place).isRoot = false := spans.isRoot (by simp)
      have children := spans.children
      have reading := exprAlong_graft_split grafted nodup member same
      rw [Layout.outside_split nodup member] at same
      have exchange := ih spansChild distinct
        (fun id outside => same id (by simp [outside]))
        (fun place rest arguments within call =>
          alike place rest arguments (.child within) call)
      rw [reading, exprAlong_node, List.map_append, List.map_cons]
      refine Node.exchanges_expr ?_ exchange fun callee arguments call nothing => ?_
      · have length := congrArg List.length (show (tree.node place).children = _ from children)
        simpa using length
      · obtain rfl := List.map_eq_nil_iff.mp nothing
        rw [Tree.children, call, List.nil_append, List.map_cons] at children
        obtain ⟨rfl, _⟩ := List.cons.inj children
        refine calledAlike_graft spansChild distinct isRoot inside
          (fun id outside => same id (by simp [outside])) ?_
        rintro rfl
        exact alike place after arguments .refl call

end Tree

end Juxtaposition
