import Juxtaposition.Proofs.Layout.Forest
import Juxtaposition.Proofs.Tree.WellFormed

/-!
# Stored on top

An arena after nodes were stored and before any of them is put in. The expression of the tree is
the old one. The tree is sound as long as no reachable node was adopted.
-/

set_option autoImplicit false

namespace Juxtaposition.Tree

/-- Nodes are stored one after the other. Their children may have been held elsewhere. -/
inductive Allocates (tree : Tree) : Tree → Prop where
  | refl : Allocates tree tree
  | store {middle : Tree} {node : Node} :
      Allocates tree middle → node.isRoot = false →
      (∀ child ∈ node.children, child.index < middle.size) →
      Allocates tree (middle.store node).2

variable {tree stored : Tree} {layout : Layout} {start id : NodeId}

namespace Allocates

theorem trans {middle : Tree} (first : tree.Allocates middle)
    (second : middle.Allocates stored) : tree.Allocates stored := by
  induction second with
  | refl => exact first
  | store _ inner inside ih => exact .store ih inner inside

theorem size_le (allocates : tree.Allocates stored) : tree.size ≤ stored.size := by
  induction allocates with
  | refl => exact Nat.le_refl _
  | store _ _ _ ih => exact Nat.le_trans ih (store_grows _ _).size

/-- Old nodes are not written to. Only their parent links may change. -/
theorem node_eq (allocates : tree.Allocates stored) (inside : id.index < tree.size) :
    stored.node id = tree.node id := by
  induction allocates with
  | refl => rfl
  | store earlier _ _ ih =>
      rw [(store_grows _ _).node id (Nat.lt_of_lt_of_le inside earlier.size_le), ih]

end Allocates

/-! ## What does not depend on parent links -/

theorem Reaches.congr (same : ∀ id, tree.Reaches start id → stored.node id = tree.node id) :
    stored.Reaches start id ↔ tree.Reaches start id := by
  constructor
  · intro reached
    induction reached with
    | refl => exact .refl
    | child _ step ih =>
        rw [children, same _ ih] at step
        exact .child ih step
  · intro reached
    induction reached with
    | refl => exact .refl
    | child above step ih =>
        refine .child ih ?_
        rw [children, same _ above]
        exact step

private theorem mapM_congr {read other : NodeId → Option Expr} {ids : List NodeId}
    (same : ∀ id ∈ ids, read id = other id) : ids.mapM read = ids.mapM other := by
  induction ids with
  | nil => rfl
  | cons first rest ih =>
      rw [List.mapM_cons, List.mapM_cons, same first List.mem_cons_self,
        ih fun id member => same id (List.mem_cons_of_mem _ member)]

theorem exprWithin?_congr {bound : Nat}
    (same : ∀ id, tree.Reaches start id → stored.node id = tree.node id) :
    stored.exprWithin? bound start = tree.exprWithin? bound start := by
  induction bound generalizing start with
  | zero => rfl
  | succ bound ih =>
      have inner (child : NodeId) (member : child ∈ tree.children start) :
          stored.exprWithin? bound child = tree.exprWithin? bound child :=
        ih fun id reached => same id ((Reaches.child .refl member).trans reached)
      rw [exprWithin?, exprWithin?, same start .refl]
      unfold children at inner
      cases kind : tree.node start with
      | identifier name => rfl
      | integer value => rfl
      | float value literal => rfl
      | root body =>
          rw [kind] at inner
          exact inner body List.mem_cons_self
      | call callee arguments =>
          rw [kind] at inner
          have head := inner callee List.mem_cons_self
          have tail := mapM_congr fun id member => inner id (List.mem_cons_of_mem _ member)
          simp only [head, tail]
      | operation operator lhs rhs provenance =>
          rw [kind] at inner
          have left := inner lhs (by simp [Node.children])
          have right := inner rhs (by simp [Node.children])
          simp only [left, right]
      | group items =>
          rw [kind] at inner
          have all : items.mapM (stored.exprWithin? bound) = _ := mapM_congr inner
          simp only [all]
      | negation operand =>
          rw [kind] at inner
          simp only [inner operand List.mem_cons_self]

/-! ## Sound trees with nodes on top -/

namespace Planted

theorem node_stored (planted : tree.Planted layout) (allocates : tree.Allocates stored)
    (reached : tree.Reaches root id) : stored.node id = tree.node id :=
  allocates.node_eq (planted.index_lt (planted.reaches_iff.mp reached))

/-- What is stored on top is not read. -/
theorem expr?_stored (planted : tree.Planted layout) (allocates : tree.Allocates stored) :
    stored.expr? root = tree.expr? root := by
  have enough : layout.height ≤ stored.size := Nat.le_trans planted.height_le allocates.size_le
  have reading := planted.spans.exprWithin?_eq enough
  rw [planted.place] at reading
  rw [planted.expr?_root, ← reading]
  exact exprWithin?_congr fun id reached => planted.node_stored allocates reached

/-- Any reachable node that is adopted leaves an old holder that it does not point back at. -/
theorem check_stored_iff (planted : tree.Planted layout) (allocates : tree.Allocates stored) :
    stored.check = .ok () ↔ ∀ id, tree.Reaches root id → stored.parent id = tree.parent id := by
  have same (id : NodeId) (reached : tree.Reaches root id) : stored.node id = tree.node id :=
    planted.node_stored allocates reached
  constructor
  · intro accepted id reached
    obtain ⟨other, replanted⟩ := check_eq_ok_iff.mp accepted
    cases reached with
    | refl => rw [replanted.unheld, planted.unheld]
    | @child holder _ above step =>
        rw [planted.spans.parent_of_mem (planted.reaches_iff.mp above) step]
        refine replanted.spans.parent_of_mem
          (replanted.reaches_iff.mp ((Reaches.congr same).mpr above)) ?_
        rw [children, same holder above]
        exact step
  · intro links
    have member (id : NodeId) (inside : id ∈ layout.places) : tree.Reaches root id :=
      planted.reaches_iff.mpr inside
    refine check_eq_ok_iff.mpr ⟨layout, planted.place, ?_, ?_, ?_, planted.nodup⟩
    · rw [same root .refl]
      exact planted.isRoot
    · rw [links root .refl]
      exact planted.unheld
    · exact planted.spans.frame (fun id inside => same id (member id inside))
        fun id inTail => links id (member id (List.mem_of_mem_tail inTail))

end Planted

end Juxtaposition.Tree
