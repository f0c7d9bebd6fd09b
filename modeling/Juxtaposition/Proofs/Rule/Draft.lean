import Juxtaposition.Proofs.Expr.Reduction
import Juxtaposition.Proofs.Layout.Builds

/-!
# Stored drafts

Storing a draft builds one layout on top of the layouts that it keeps. The layout
reads as the draft says.
-/

set_option autoImplicit false

namespace Juxtaposition.Draft

def keeps : Draft → List NodeId
  | kept id => [id]
  | identifier _ | integer _ | float _ => []
  | call _ arguments => arguments
  | group items => items
  | operation _ lhs rhs => lhs.keeps ++ rhs.keeps
  | factor first rest => first.keeps ++ rest.keeps

def expr (read : NodeId → Expr) : Draft → Expr
  | kept id => read id
  | identifier name => .identifier name
  | integer value => .integer value
  | float value => .float value none
  | call name arguments => .call (.identifier name) (arguments.map read)
  | group items => .group (items.map read)
  | operation operator lhs rhs => .operation operator (lhs.expr read) (rhs.expr read) .missing
  | factor first rest => .product (first.expr read) (rest.expr read)

def isNew : Draft → Bool
  | kept _ => false
  | _ => true

theorem size_le_store (draft : Draft) (tree : Tree) : tree.size ≤ (draft.store tree).2.size := by
  induction draft generalizing tree with
  | kept id => exact Nat.le_refl _
  | identifier name => exact (tree.store_grows _).size
  | integer value => exact (tree.store_grows _).size
  | float value => exact (tree.store_grows _).size
  | call name arguments =>
      exact Nat.le_trans (tree.store_grows _).size (Tree.store_grows _ _).size
  | group items => exact (tree.store_grows _).size
  | operation operator lhs rhs lhsSize rhsSize =>
      exact Nat.le_trans (lhsSize tree) (Nat.le_trans (rhsSize _) (Tree.store_grows _ _).size)
  | factor first rest firstSize restSize =>
      exact Nat.le_trans (restSize tree) (Nat.le_trans (firstSize _) (Tree.store_grows _ _).size)

theorem eq_kept_or_stored (draft : Draft) (tree : Tree) :
    draft.isNew = false ∨
      ∃ (middle : Tree) (node : Node),
        tree.size ≤ middle.size ∧ draft.store tree = middle.store node := by
  cases draft with
  | kept id => exact .inl rfl
  | identifier name => exact .inr ⟨tree, _, Nat.le_refl _, rfl⟩
  | integer value => exact .inr ⟨tree, _, Nat.le_refl _, rfl⟩
  | float value => exact .inr ⟨tree, _, Nat.le_refl _, rfl⟩
  | call name arguments => exact .inr ⟨_, _, (tree.store_grows _).size, rfl⟩
  | group items => exact .inr ⟨tree, _, Nat.le_refl _, rfl⟩
  | operation operator lhs rhs =>
      exact .inr ⟨_, _, Nat.le_trans (lhs.size_le_store tree) (rhs.size_le_store _), rfl⟩
  | factor first rest =>
      exact .inr ⟨_, _, Nat.le_trans (rest.size_le_store tree) (first.size_le_store _), rfl⟩

theorem store_fst_fresh {draft : Draft} (isNew : draft.isNew = true) (tree : Tree) :
    tree.size ≤ (draft.store tree).1.index ∧
      (draft.store tree).2.parent (draft.store tree).1 = none := by
  rcases draft.eq_kept_or_stored tree with isKept | ⟨middle, node, larger, stored⟩
  · rw [isNew] at isKept
    cases isKept
  · rw [stored]
    exact ⟨larger, middle.parent_store_next node⟩

theorem store_fst_lt {draft : Draft} (isNew : draft.isNew = true) (tree : Tree) :
    (draft.store tree).1.index < (draft.store tree).2.size := by
  rcases draft.eq_kept_or_stored tree with isKept | ⟨middle, node, _, stored⟩
  · rw [isNew] at isKept
    cases isKept
  · rw [stored, Tree.store_fst, Tree.size_store]
    exact Nat.lt_succ_self _

section Store

variable {read : NodeId → Expr}

private theorem builds_leaf (tree : Tree) {node : Node} {held : List Layout}
    (nothing : held.map Layout.place = []) (children : node.children = [])
    (isRoot : node.isRoot = false) :
    ∃ layout, layout.place = (tree.store node).1 ∧
      tree.Builds held (tree.store node).2 [layout] [node.expr []] := by
  obtain rfl := List.map_eq_nil_iff.mp nothing
  exact ⟨_, rfl, .leaf tree children isRoot⟩

private theorem map_exprAlong {tree : Tree} {held : List Layout}
    (reads : ∀ layout ∈ held, tree.exprAlong layout = read layout.place) :
    held.map tree.exprAlong = (held.map Layout.place).map read := by
  rw [List.map_map]
  exact List.map_congr_left reads

private theorem builds_pair {first second : Draft} {tree : Tree} {held others : List Layout}
    (forest : tree.Forest (held ++ others))
    (reads : ∀ layout ∈ others, tree.exprAlong layout = read layout.place)
    (builtFirst : ∃ layout, layout.place = (first.store tree).1 ∧
      tree.Builds held (first.store tree).2 [layout] [first.expr read])
    (builtSecond : ∀ middle : Tree, middle.Forest others →
      (∀ layout ∈ others, middle.exprAlong layout = read layout.place) →
        ∃ layout, layout.place = (second.store middle).1 ∧
          middle.Builds others (second.store middle).2 [layout] [second.expr read]) :
    ∃ left right : Layout, left.place = (first.store tree).1 ∧
      right.place = (second.store (first.store tree).2).1 ∧
      tree.Builds (held ++ others) (second.store (first.store tree).2).2 [left, right]
        [first.expr read, second.expr read] := by
  obtain ⟨left, leftPlace, builds⟩ := builtFirst
  have framed := Tree.Forest.append_iff.mp (builds.frame forest)
  have apart := Tree.Forest.append_iff.mp forest
  obtain ⟨right, rightPlace, more⟩ := builtSecond _ framed.2.1 fun layout member => by
    rw [apart.2.1.exprAlong_grows builds.grows member, reads layout member]
  exact ⟨left, right, leftPlace, rightPlace, builds.append forest more⟩

/-- Storing a draft builds a layout that reads as the draft says. The kept layouts are split as the
draft is, and each half of it leaves the share of the other alone. -/
theorem store_builds {draft : Draft} {tree : Tree} {held : List Layout}
    (forest : tree.Forest held) (keeps : held.map Layout.place = draft.keeps)
    (reads : ∀ layout ∈ held, tree.exprAlong layout = read layout.place) :
    ∃ layout : Layout, layout.place = (draft.store tree).1 ∧
      tree.Builds held (draft.store tree).2 [layout] [draft.expr read] := by
  induction draft generalizing tree held with
  | kept id =>
      obtain ⟨layout, rest, rfl, rfl, nothing⟩ := List.map_eq_cons_iff.mp keeps
      obtain rfl := List.map_eq_nil_iff.mp nothing
      have builds := Tree.Builds.refl forest
      rw [map_exprAlong reads] at builds
      exact ⟨layout, rfl, builds⟩
  | identifier name => exact builds_leaf tree keeps rfl rfl
  | integer value => exact builds_leaf tree keeps rfl rfl
  | float value => exact builds_leaf tree keeps rfl rfl
  | call name arguments =>
      have callee := Tree.Builds.leaf tree (show (Node.identifier name).children = [] from rfl) rfl
      have framed := Tree.Forest.append_iff.mp (callee.frame forest)
      have builds := callee.append forest (Tree.Builds.refl framed.2.1)
      have exprs : held.map (tree.store (.identifier name)).2.exprAlong = arguments.map read := by
        rw [show arguments = held.map Layout.place from keeps.symm, ← map_exprAlong reads]
        exact List.map_congr_left fun layout member =>
          forest.exprAlong_grows callee.grows member
      rw [exprs] at builds
      refine ⟨_, rfl, builds.store ?_ rfl ?_⟩
      · rw [Node.children, show arguments = held.map Layout.place from keeps.symm]
        rfl
      · intro callee arguments call
        cases call
        exact Nat.le_refl _
  | group items =>
      have builds := Tree.Builds.refl forest
      rw [map_exprAlong reads, keeps] at builds
      refine ⟨_, rfl, builds.store keeps.symm rfl ?_⟩
      intro callee arguments call
      cases call
  | operation operator lhs rhs lhsBuilds rhsBuilds =>
      obtain ⟨left, right, rfl, leftKeeps, rightKeeps⟩ := List.map_eq_append_iff.mp keeps
      have apart := Tree.Forest.append_iff.mp forest
      have leftReads (layout : Layout) (member : layout ∈ left) :=
        reads layout (List.mem_append_left _ member)
      have rightReads (layout : Layout) (member : layout ∈ right) :=
        reads layout (List.mem_append_right _ member)
      obtain ⟨first, second, firstPlace, secondPlace, builds⟩ :=
        builds_pair forest rightReads (lhsBuilds apart.1 leftKeeps leftReads)
          fun middle forest reads => rhsBuilds forest rightKeeps reads
      refine ⟨_, rfl, builds.store ?_ rfl ?_⟩
      · simp [Node.children, firstPlace, secondPlace]
      · intro callee arguments call
        cases call
  | factor first rest firstBuilds restBuilds =>
      obtain ⟨left, right, rfl, leftKeeps, rightKeeps⟩ := List.map_eq_append_iff.mp keeps
      have apart := Tree.Forest.append_iff.mp forest
      have leftReads (layout : Layout) (member : layout ∈ left) :=
        reads layout (List.mem_append_left _ member)
      have rightReads (layout : Layout) (member : layout ∈ right) :=
        reads layout (List.mem_append_right _ member)
      obtain ⟨last, factor, lastPlace, factorPlace, builds⟩ :=
        builds_pair (forest.perm List.perm_append_comm) leftReads
          (restBuilds apart.2.1 rightKeeps rightReads)
          fun middle forest reads => firstBuilds forest leftKeeps reads
      refine ⟨_, rfl, builds.swap.store ?_ rfl ?_⟩
      · simp [Node.product, Node.children, lastPlace, factorPlace]
      · intro callee arguments call
        cases call

end Store

end Juxtaposition.Draft
