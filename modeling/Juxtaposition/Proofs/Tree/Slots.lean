import Juxtaposition.Tree.Basic

/-!
# Slots after an edit

What every elementary edit of an arena does to the node and to the parent link
at each place. Nothing else about the edits is needed later.
-/

set_option autoImplicit false

namespace Juxtaposition

theorem NodeId.eq_of_index_eq {left right : NodeId} (same : left.index = right.index) :
    left = right := by
  cases left
  cases right
  exact congrArg _ same

namespace Tree

variable (tree : Tree) (id other holder : NodeId)

theorem node_of_size_le (beyond : tree.size ≤ id.index) : tree.node id = .group [] := by
  have missing : tree.slots[id.index]? = none := Array.getElem?_eq_none beyond
  rw [node, missing]
  rfl

theorem parent_of_size_le (beyond : tree.size ≤ id.index) : tree.parent id = none := by
  have missing : tree.slots[id.index]? = none := Array.getElem?_eq_none beyond
  rw [parent, missing]
  rfl

theorem index_lt_of_parent {id holder : NodeId} (held : tree.parent id = some holder) :
    id.index < tree.size := by
  refine Nat.lt_of_not_le fun beyond => ?_
  rw [parent_of_size_le tree id beyond] at held
  cases held

theorem index_lt_of_isRoot {id : NodeId} (isRoot : (tree.node id).isRoot = true) :
    id.index < tree.size := by
  refine Nat.lt_of_not_le fun beyond => ?_
  rw [node_of_size_le tree id beyond] at isRoot
  cases isRoot

/-! ## One slot -/

@[simp] theorem size_withNode (node : Node) : (tree.withNode id node).size = tree.size := by
  simp [withNode, size]

@[simp] theorem size_withParent (link : Option NodeId) :
    (tree.withParent id link).size = tree.size := by
  simp [withParent, size]

theorem node_withNode (node : Node) :
    (tree.withNode id node).node other =
      if other = id ∧ id.index < tree.size then node else tree.node other := by
  unfold withNode Tree.node size
  rw [Array.getElem?_modify]
  by_cases same : other = id
  · subst same
    by_cases inside : other.index < tree.slots.size
    · simp [inside]
    · simp [inside]
  · have different : id.index ≠ other.index :=
      fun equal => same (NodeId.eq_of_index_eq equal.symm)
    simp [different, same]

@[simp] theorem parent_withNode (node : Node) :
    (tree.withNode id node).parent other = tree.parent other := by
  unfold withNode parent
  rw [Array.getElem?_modify]
  by_cases same : id.index = other.index
  · cases tree.slots[other.index]? <;> simp [same]
  · simp [same]

@[simp] theorem node_withParent (link : Option NodeId) :
    (tree.withParent id link).node other = tree.node other := by
  unfold withParent node
  rw [Array.getElem?_modify]
  by_cases same : id.index = other.index
  · cases tree.slots[other.index]? <;> simp [same]
  · simp [same]

theorem parent_withParent (link : Option NodeId) :
    (tree.withParent id link).parent other =
      if other = id ∧ id.index < tree.size then link else tree.parent other := by
  unfold withParent parent size
  rw [Array.getElem?_modify]
  by_cases same : other = id
  · subst same
    by_cases inside : other.index < tree.slots.size
    · simp [inside]
    · simp [inside]
  · have different : id.index ≠ other.index :=
      fun equal => same (NodeId.eq_of_index_eq equal.symm)
    simp [different, same]

/-! ## Adoption -/

@[simp] theorem size_adopt (ids : List NodeId) : (tree.adopt holder ids).size = tree.size := by
  induction ids generalizing tree with
  | nil => rfl
  | cons first rest ih => exact (ih (tree.withParent first (some holder))).trans (by simp)

@[simp] theorem node_adopt (ids : List NodeId) :
    (tree.adopt holder ids).node other = tree.node other := by
  induction ids generalizing tree with
  | nil => rfl
  | cons first rest ih => exact (ih (tree.withParent first (some holder))).trans (by simp)

theorem parent_adopt (ids : List NodeId) :
    (tree.adopt holder ids).parent other =
      if other ∈ ids ∧ other.index < tree.size then some holder else tree.parent other := by
  induction ids generalizing tree with
  | nil => simp [adopt]
  | cons first rest ih =>
      have step := ih (tree.withParent first (some holder))
      rw [size_withParent, parent_withParent] at step
      refine step.trans ?_
      by_cases same : other = first
      · subst same
        by_cases inside : other.index < tree.size <;> simp [inside]
      · simp [same]

/-! ## A new node -/

theorem store_fst (node : Node) : (tree.store node).1 = tree.next := rfl

@[simp] theorem size_store (node : Node) : (tree.store node).2.size = tree.size + 1 := by
  have adopted := tree.size_adopt tree.next node.children
  unfold size at adopted ⊢
  simp [store, adopted]

theorem node_store (node : Node) :
    (tree.store node).2.node other = if other = tree.next then node else tree.node other := by
  have adopted := tree.size_adopt tree.next node.children
  have kept := tree.node_adopt other tree.next node.children
  unfold size at adopted
  unfold Tree.node at kept ⊢
  simp only [store, Array.getElem?_push, adopted]
  by_cases same : other = tree.next
  · subst same
    simp [next, size]
  · have different : other.index ≠ tree.slots.size :=
      fun equal => same (NodeId.eq_of_index_eq equal)
    simpa [different, same] using kept

theorem parent_store (node : Node) :
    (tree.store node).2.parent other =
      if other ∈ node.children ∧ other.index < tree.size then some tree.next
      else tree.parent other := by
  have adopted := tree.size_adopt tree.next node.children
  have links := tree.parent_adopt other tree.next node.children
  unfold size at adopted
  rw [← links]
  unfold parent
  simp only [store, Array.getElem?_push, adopted]
  by_cases same : other.index = tree.slots.size
  · have missing : (tree.adopt tree.next node.children).slots[tree.slots.size]? = none :=
      Array.getElem?_eq_none (Nat.le_of_eq adopted)
    simp [same, missing]
  · simp [same]

theorem parent_store_next (node : Node) : (tree.store node).2.parent tree.next = none := by
  rw [parent_store, if_neg fun both => Nat.lt_irrefl _ both.2]
  exact tree.parent_of_size_le tree.next (Nat.le_refl _)

end Tree

end Juxtaposition
