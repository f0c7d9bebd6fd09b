import Juxtaposition.Proofs.Tree.Ascent
import Juxtaposition.Proofs.Tree.Repoint

/-!
# Arenas that arise

Nodes are stored and replaced in any order, with children that may be held elsewhere,
repeated, or the root itself. Child links and parent links may then disagree, but
every parent link is answered by a child link, and parent links never run in a circle.
-/

set_option autoImplicit false

namespace Juxtaposition

inductive Command where
  | store (node : Node)
  | replace (old replacement : NodeId)
  | replaceBody (body : NodeId)

namespace Tree

/-- A command refers to nodes of the arena only, and no root node is ever stored. -/
def Admits (tree : Tree) : Command → Prop
  | .store node => node.isRoot = false ∧ ∀ child ∈ node.children, child.index < tree.size
  | .replace old replacement => old.index < tree.size ∧ replacement.index < tree.size
  | .replaceBody body => body.index < tree.size

/-- Carry out a command. One that is refused changes nothing. -/
def execute (tree : Tree) : Command → Tree
  | .store node => (tree.store node).2
  | .replace old replacement => (tree.replace old replacement).toOption.getD tree
  | .replaceBody body => (tree.replaceBody body).toOption.getD tree

inductive Arises : Tree → Prop where
  | empty : Arises empty
  | command {tree : Tree} {command : Command} :
      Arises tree → tree.Admits command → Arises (tree.execute command)

structure Coherent (tree : Tree) : Prop where
  isRoot_iff : ∀ id, (tree.node id).isRoot = true ↔ id = root
  child_lt : ∀ id, ∀ child ∈ tree.children id, child.index < tree.size
  parent_lt : ∀ id holder, tree.parent id = some holder → holder.index < tree.size
  held : ∀ id holder, tree.parent id = some holder → id ∈ tree.children holder
  ascends : ∀ id, ∃ above, tree.Ascends id above

variable {tree edited : Tree}

theorem coherent_empty : empty.Coherent where
  isRoot_iff id := by
    rcases id with ⟨_ | _ | index⟩
    · decide
    · decide
    · rw [node_of_size_le empty _ (show 2 ≤ index + 2 by omega)]
      simp [Node.isRoot, root]
  child_lt id child member := by
    rcases id with ⟨_ | _ | index⟩
    · obtain rfl := List.mem_singleton.mp member
      decide
    · cases member
    · rw [children, node_of_size_le empty _ (show 2 ≤ index + 2 by omega)] at member
      cases member
  parent_lt id holder link := by
    rcases id with ⟨_ | _ | index⟩
    · cases link
    · cases link
      decide
    · exact absurd (index_lt_of_parent empty link) (by simp [empty, size])
  held id holder link := by
    rcases id with ⟨_ | _ | index⟩
    · cases link
    · cases link
      exact List.mem_singleton_self _
    · exact absurd (index_lt_of_parent empty link) (by simp [empty, size])
  ascends id := by
    rcases id with ⟨_ | _ | index⟩
    · exact ⟨_, .top rfl⟩
    · exact ⟨_, .step rfl (.top rfl)⟩
    · exact ⟨_, .top (parent_of_size_le empty _ (show 2 ≤ index + 2 by omega))⟩

namespace Coherent

theorem root_lt (coherent : tree.Coherent) : root.index < tree.size :=
  index_lt_of_isRoot tree ((coherent.isRoot_iff root).mpr rfl)

theorem lineage_ascends (coherent : tree.Coherent) {id : NodeId} (inside : id.index < tree.size) :
    tree.Ascends id (tree.lineage id) := by
  obtain ⟨above, ascent⟩ := coherent.ascends id
  rwa [ascent.lineage_eq inside coherent.parent_lt]

theorem exists_body? (coherent : tree.Coherent) : ∃ body, tree.body? = some body := by
  have isRoot := (coherent.isRoot_iff root).mpr rfl
  unfold body?
  cases kind : tree.node root with
  | root body => exact ⟨body, rfl⟩
  | _ => rw [kind] at isRoot; cases isRoot

/-- The holder of a node always has a slot for it. -/
theorem parent_eq_none_of_detached (coherent : tree.Coherent) {old replacement id : NodeId}
    (refused : tree.replace old replacement = .error (.detached id)) :
    id = old ∧ tree.parent old = none := by
  unfold replace at refused
  split at refused
  · cases refused
  · split at refused
    · cases refused
    · split at refused
      · cases refused
      · cases held : tree.parent old with
        | none => rw [held] at refused; cases refused; exact ⟨rfl, rfl⟩
        | some holder =>
            obtain ⟨repointed, repoint⟩ :=
              Node.exists_repoint?_of_mem replacement (coherent.held old holder held)
            simp only [held, repoint] at refused
            split at refused <;> cases refused

/-! ## A stored node -/

section Store

variable {node : Node}

private theorem ascends_store (coherent : tree.Coherent)
    (inside : ∀ child ∈ node.children, child.index < tree.size) (id : NodeId) :
    ∃ above, (tree.store node).2.Ascends id above := by
  have top : (tree.store node).2.Ascends tree.next [tree.next] := .top (tree.parent_store_next node)
  obtain ⟨above, ascent⟩ := coherent.ascends id
  refine ascent.exists_of_links fun other _ => ?_
  by_cases adopted : other ∈ node.children
  · refine .inl ⟨_, .step ?_ top⟩
    rw [parent_store, if_pos ⟨adopted, inside other adopted⟩]
  · refine .inr ?_
    rw [parent_store, if_neg fun both => adopted both.1]

theorem store (coherent : tree.Coherent) (inner : node.isRoot = false)
    (inside : ∀ child ∈ node.children, child.index < tree.size) :
    (tree.store node).2.Coherent where
  isRoot_iff id := by
    rw [node_store]
    by_cases new : id = tree.next
    · have notRoot : id ≠ root := by
        rintro rfl
        exact absurd (congrArg NodeId.index new) (Nat.ne_of_lt coherent.root_lt)
      simp [new, inner, new ▸ notRoot]
    · rw [if_neg new]
      exact coherent.isRoot_iff id
  child_lt id child member := by
    rw [size_store]
    rw [children, node_store] at member
    split at member
    · exact Nat.lt_succ_of_lt (inside child member)
    · exact Nat.lt_succ_of_lt (coherent.child_lt id child member)
  parent_lt id holder link := by
    rw [size_store]
    rw [parent_store] at link
    split at link
    · cases link
      exact Nat.lt_succ_self _
    · exact Nat.lt_succ_of_lt (coherent.parent_lt id holder link)
  held id holder link := by
    rw [parent_store] at link
    rw [children, node_store]
    split at link
    · next adopted =>
      cases link
      rw [if_pos rfl]
      exact adopted.1
    · rw [if_neg]
      · exact coherent.held id holder link
      · rintro rfl
        exact Nat.lt_irrefl _ (coherent.parent_lt id _ link)
  ascends := coherent.ascends_store inside

end Store

/-! ## A replaced node -/

section Replace

variable {old replacement holder : NodeId}

/-- The ascent from the holder does not meet the replacement, so it is the old one, cut off at the
replaced node if that is on it. -/
private theorem ascends_replaced (coherent : tree.Coherent)
    (replaced : tree.Replaced edited old replacement holder) (id : NodeId) :
    ∃ above, edited.Ascends id above := by
  have freed : edited.Ascends old [old] := .top (by rw [replaced.parent, if_pos rfl])
  have ascent := coherent.lineage_ascends (coherent.parent_lt old holder replaced.held)
  obtain ⟨above, outer⟩ : ∃ above, edited.Ascends holder above := by
    refine ascent.exists_of_links fun other member => ?_
    by_cases isOld : other = old
    · exact .inl ⟨_, isOld ▸ freed⟩
    · have isOther : other ≠ replacement := fun same => replaced.acyclic (same ▸ member)
      exact .inr (by rw [replaced.parent, if_neg isOld, if_neg isOther])
  obtain ⟨chain, inner⟩ := coherent.ascends id
  refine inner.exists_of_links fun other _ => ?_
  by_cases isOld : other = old
  · exact .inl ⟨_, isOld ▸ freed⟩
  · by_cases isNew : other = replacement
    · exact .inl ⟨_, .step (by rw [replaced.parent, if_neg isOld, if_pos isNew]) outer⟩
    · exact .inr (by rw [replaced.parent, if_neg isOld, if_neg isNew])

theorem replaced (coherent : tree.Coherent) (inside : replacement.index < tree.size)
    (replaced : tree.Replaced edited old replacement holder) : edited.Coherent where
  isRoot_iff id := by
    rw [replaced.isRoot_node]
    exact coherent.isRoot_iff id
  child_lt id child member := by
    rw [replaced.size]
    rcases replaced.mem_children_cases member with rfl | known
    · exact inside
    · exact coherent.child_lt id child known
  parent_lt id outer link := by
    rw [replaced.size]
    rw [replaced.parent] at link
    split at link
    · cases link
    · split at link
      · cases link
        exact coherent.parent_lt old holder replaced.held
      · exact coherent.parent_lt id outer link
  held id outer link := by
    rw [replaced.parent] at link
    split at link
    · cases link
    · next isOther =>
      split at link
      · next isNew =>
        cases link
        rw [isNew]
        exact replaced.replacement_mem_children
      · exact replaced.mem_children_of_ne isOther (coherent.held id outer link)
  ascends := coherent.ascends_replaced replaced

theorem replace (coherent : tree.Coherent) (inside : replacement.index < tree.size) :
    ((tree.replace old replacement).toOption.getD tree).Coherent := by
  cases result : tree.replace old replacement with
  | error error => exact coherent
  | ok edited =>
      rcases replace_eq_ok_cases inside result with ⟨_, rfl⟩ | ⟨holder, replaced⟩
      · exact coherent
      · exact coherent.replaced inside replaced

end Replace

/-- One command keeps the links coherent. -/
theorem execute (coherent : tree.Coherent) {command : Command} (admitted : tree.Admits command) :
    (tree.execute command).Coherent := by
  cases command with
  | store node => exact coherent.store admitted.1 admitted.2
  | replace old replacement => exact coherent.replace admitted.2
  | replaceBody body =>
      obtain ⟨current, found⟩ := coherent.exists_body?
      have unfolded : tree.replaceBody body = tree.replace current body := by
        rw [replaceBody, found]
      rw [Tree.execute, unfolded]
      exact coherent.replace admitted

end Coherent

theorem Arises.coherent (arises : tree.Arises) : tree.Coherent := by
  induction arises with
  | empty => exact coherent_empty
  | command _ admitted ih => exact ih.execute admitted

/-- In every arena that arises the links are coherent. The search for ancestors then
always comes to an end, the root has a body, and only a node without a parent is
refused as detached. -/
theorem coherent_of_arises (arises : tree.Arises) :
    tree.Coherent ∧
      (∀ id, id.index < tree.size → tree.Ascends id (tree.lineage id)) ∧
      (∃ body, tree.body? = some body) ∧
      ∀ old replacement id, tree.replace old replacement = .error (.detached id) →
        id = old ∧ tree.parent old = none := by
  have coherent := arises.coherent
  exact ⟨coherent, fun _ inside => coherent.lineage_ascends inside, coherent.exists_body?,
    fun _ _ _ refused => coherent.parent_eq_none_of_detached refused⟩

/-- An arena in which a group lists the former body twice and the root as well, and has
got `x` in the first of its slots. -/
def adoptedRoot : Tree :=
  ((empty.execute (.store (.group [⟨1⟩, ⟨1⟩, root]))).execute (.store (.identifier "x"))).execute
    (.replaceBody ⟨3⟩)

theorem arises_adoptedRoot : adoptedRoot.Arises := by
  have stored : (empty.execute (.store (.group [⟨1⟩, ⟨1⟩, root]))).Arises :=
    .command .empty ⟨rfl, by decide⟩
  have named : ((empty.execute (.store (.group [⟨1⟩, ⟨1⟩, root]))).execute
      (.store (.identifier "x"))).Arises :=
    .command stored ⟨rfl, by decide⟩
  exact .command named (show (3 : Nat) < _ by decide)

theorem coherent_of_arises_adoptedRoot :
    adoptedRoot.Arises ∧ adoptedRoot.Coherent ∧
      (∀ id, id.index < adoptedRoot.size → adoptedRoot.Ascends id (adoptedRoot.lineage id)) ∧
      (∃ body, adoptedRoot.body? = some body) ∧
      ∀ old replacement id, adoptedRoot.replace old replacement = .error (.detached id) →
        id = old ∧ adoptedRoot.parent old = none :=
  ⟨arises_adoptedRoot, coherent_of_arises arises_adoptedRoot⟩

end Tree

end Juxtaposition
