import Juxtaposition.Tree.Basic

/-!
# Calls and callees

The look-ups of calls, said in terms of nodes and parent links.
-/

set_option autoImplicit false

namespace Juxtaposition.Tree

variable {tree : Tree} {id : NodeId}

theorem name?_eq {node : Node} (kind : tree.node id = node) : tree.name? id = node.name? := by
  rw [name?, kind]

theorem name?_eq_some_iff {name : String} :
    tree.name? id = some name ↔ tree.node id = .identifier name := by
  unfold name? Node.name?
  cases tree.node id <;> simp

theorem callAt?_eq_none (other : ∀ callee arguments, tree.node id ≠ .call callee arguments) :
    tree.callAt? id = none := by
  unfold callAt?
  split
  · next callee arguments call => exact absurd call (other callee arguments)
  · rfl

theorem callAt?_eq_some_iff {callee : NodeId} {arguments : List NodeId} :
    tree.callAt? id = some (callee, arguments) ↔ tree.node id = .call callee arguments := by
  unfold callAt?
  cases tree.node id <;> simp

theorem callHeadedBy?_eq_some_iff {holder : NodeId} {arguments : List NodeId} :
    tree.callHeadedBy? id = some (holder, arguments) ↔
      tree.parent id = some holder ∧ tree.node holder = .call id arguments := by
  constructor
  · intro headed
    unfold callHeadedBy? at headed
    split at headed
    · cases headed
    · next link =>
      split at headed
      · next call =>
        split at headed
        · next same =>
          cases headed
          subst same
          exact ⟨link, callAt?_eq_some_iff.mp call⟩
        · cases headed
      · cases headed
  · rintro ⟨link, call⟩
    rw [callHeadedBy?, link]
    simp only [callAt?_eq_some_iff.mpr call, if_true]

theorem isCallee_eq_true_iff :
    tree.isCallee id = true ↔
      ∃ holder arguments, tree.parent id = some holder ∧
        tree.node holder = .call id arguments := by
  rw [isCallee, Option.isSome_iff_exists]
  constructor
  · rintro ⟨⟨holder, arguments⟩, headed⟩
    exact ⟨holder, arguments, callHeadedBy?_eq_some_iff.mp headed⟩
  · rintro ⟨holder, arguments, facts⟩
    exact ⟨(holder, arguments), callHeadedBy?_eq_some_iff.mpr facts⟩

end Juxtaposition.Tree
