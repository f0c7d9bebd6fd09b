import Juxtaposition.Proofs.Expr.Leaves
import Juxtaposition.Proofs.Tree.Slots

/-!
# Leaves are never overwritten

What happens to the names and numbers of an arena. Storing appends some and a replacement
changes only nodes with children, so a name or a number stays what it is.
-/

set_option autoImplicit false

namespace Juxtaposition

/-- A leaf has no slot that could be pointed elsewhere, and repointing makes no leaf. -/
theorem Node.leaf?_of_repoint? {old replacement : NodeId} {node repointed : Node}
    (repoint : node.repoint? old replacement = some repointed) :
    node.leaf? = none ∧ repointed.leaf? = none := by
  cases node with
  | root body =>
      obtain ⟨_, found⟩ := Option.ite_none_right_eq_some.mp repoint
      cases found
      exact ⟨rfl, rfl⟩
  | identifier name => cases repoint
  | integer value => cases repoint
  | float value literal => cases repoint
  | call callee arguments =>
      rw [repoint?] at repoint
      split at repoint
      · cases repoint
        exact ⟨rfl, rfl⟩
      · obtain ⟨_, _, rfl⟩ := Option.map_eq_some_iff.mp repoint
        exact ⟨rfl, rfl⟩
  | operation operator lhs rhs provenance =>
      rw [repoint?] at repoint
      split at repoint
      · cases repoint
        exact ⟨rfl, rfl⟩
      · obtain ⟨_, found⟩ := Option.ite_none_right_eq_some.mp repoint
        cases found
        exact ⟨rfl, rfl⟩
  | group items =>
      obtain ⟨_, _, rfl⟩ := Option.map_eq_some_iff.mp repoint
      exact ⟨rfl, rfl⟩
  | negation operand =>
      obtain ⟨_, found⟩ := Option.ite_none_right_eq_some.mp repoint
      cases found
      exact ⟨rfl, rfl⟩

namespace Tree

variable {tree middle later edited : Tree} {old replacement id : NodeId} {leaf : Leaf}

structure KeepsLeaves (tree later : Tree) : Prop where
  size : tree.size ≤ later.size
  leaf : ∀ id : NodeId, id.index < tree.size → (later.node id).leaf? = (tree.node id).leaf?

theorem KeepsLeaves.refl (tree : Tree) : tree.KeepsLeaves tree :=
  ⟨Nat.le_refl _, fun _ _ => rfl⟩

theorem KeepsLeaves.trans (first : tree.KeepsLeaves middle) (second : middle.KeepsLeaves later) :
    tree.KeepsLeaves later where
  size := Nat.le_trans first.size second.size
  leaf id inside :=
    (second.leaf id (Nat.lt_of_lt_of_le inside first.size)).trans (first.leaf id inside)

theorem index_lt_of_leaf (found : (tree.node id).leaf? = some leaf) : id.index < tree.size := by
  refine Nat.lt_of_not_le fun beyond => ?_
  rw [node_of_size_le tree id beyond] at found
  cases found

theorem index_lt_of_integer {value : Int64} (found : tree.node id = .integer value) :
    id.index < tree.size :=
  index_lt_of_leaf (show (tree.node id).leaf? = some (.integer value) by rw [found]; rfl)

theorem KeepsLeaves.leaf_eq_some (keeps : tree.KeepsLeaves later)
    (found : (tree.node id).leaf? = some leaf) : (later.node id).leaf? = some leaf :=
  (keeps.leaf id (index_lt_of_leaf found)).trans found

theorem store_keepsLeaves (tree : Tree) (node : Node) :
    tree.KeepsLeaves (tree.store node).2 where
  size := by
    rw [size_store]
    exact Nat.le_succ _
  leaf id inside := by
    rw [node_store, if_neg]
    rintro rfl
    exact Nat.lt_irrefl _ inside

/-- A replacement leaves every place with the leaf that it had, or with none. -/
theorem leaf?_replace (result : tree.replace old replacement = .ok edited) (id : NodeId) :
    (edited.node id).leaf? = (tree.node id).leaf? := by
  unfold replace at result
  split at result
  · cases result
    rfl
  · split at result
    · cases result
    · split at result
      · cases result
      · cases held : tree.parent old with
        | none => rw [held] at result; cases result
        | some holder =>
            rw [held] at result
            dsimp only at result
            split at result
            · cases result
            · cases repoint : (tree.node holder).repoint? old replacement with
              | none => rw [repoint] at result; cases result
              | some repointed =>
                  rw [repoint] at result
                  cases result
                  obtain ⟨before, after⟩ := Node.leaf?_of_repoint? repoint
                  rw [node_withParent, node_withParent, node_withNode]
                  split
                  · next same => rw [same.1, before, after]
                  · rfl

theorem size_replace (result : tree.replace old replacement = .ok edited) :
    edited.size = tree.size := by
  unfold replace at result
  split at result
  · cases result
    rfl
  · repeat' split at result
    all_goals cases result
    simp

theorem keepsLeaves_replace (result : tree.replace old replacement = .ok edited) :
    tree.KeepsLeaves edited where
  size := Nat.le_of_eq (size_replace result).symm
  leaf id _ := leaf?_replace result id

end Tree

end Juxtaposition
