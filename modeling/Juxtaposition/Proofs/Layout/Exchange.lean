import Juxtaposition.Proofs.Layout.Edit
import Juxtaposition.Proofs.Tree.Calls
import Juxtaposition.Proofs.Tree.Repoint

/-!
# Edited trees

The tree after an edit is planted, reads as the expression with one part exchanged,
and has the old leaves where they were. No old node becomes a callee.
-/

set_option autoImplicit false

namespace Juxtaposition

namespace Tree

variable {tree edited : Tree} {layout grafted : Layout} {target holder : NodeId}
  {below held : List Layout}

/-- `grafted` takes the place of what is below `target`. The nodes outside stay, but for the
holder of `target`, which is pointed at `grafted`. -/
structure Grafts (tree : Tree) (layout : Layout) (target : NodeId) (edited : Tree)
    (grafted : Layout) : Prop where
  children : ∀ id ∈ layout.outside target,
    edited.children id = Node.repointAll target grafted.place (tree.children id)
  expr : ∀ id ∈ layout.outside target, (edited.node id).expr = (tree.node id).expr
  isRoot : ∀ id ∈ layout.outside target, (edited.node id).isRoot = (tree.node id).isRoot
  parent : ∀ id ∈ layout.outside target, edited.parent id = tree.parent id
  link : edited.parent grafted.place = tree.parent target
  spans : edited.Spans grafted
  inner : (edited.node grafted.place).isRoot = false
  nodup : grafted.places.Nodup
  apart : (layout.outside target).Disjoint grafted.places

theorem Planted.graft (planted : tree.Planted layout)
    (inside : (Layout.node target below).Within layout) (inner : target ≠ root)
    (grafts : tree.Grafts layout target edited grafted) :
    edited.Planted (layout.graft target grafted) := by
  have top : layout.place ≠ target := by
    rw [planted.place]
    exact inner.symm
  have rootOutside : root ∈ layout.outside target := by
    rw [← planted.place]
    exact Layout.place_mem_outside top
  refine ⟨?_, ?_, ?_, ?_, ?_⟩
  · rw [Layout.place_graft, if_neg top, planted.place]
  · rw [grafts.isRoot root rootOutside]
    exact planted.isRoot
  · rw [grafts.parent root rootOutside]
    exact planted.unheld
  · exact planted.spans.graft grafts.spans grafts.inner grafts.link grafts.children grafts.isRoot
      grafts.parent
  · refine (inside.places_graft planted.nodup grafted).nodup_iff.mpr ?_
    have whole := (inside.places_perm planted.nodup).nodup_iff.mp planted.nodup
    exact List.nodup_append'.mpr ⟨(List.nodup_append'.mp whole).1, grafts.nodup, grafts.apart⟩

namespace Site

variable {id : NodeId}

/-- Outside the target only the holder may change, by what it points at. -/
theorem node_outside (site : tree.Site layout target holder below held) {top : NodeId}
    (nodes : ∀ id ∈ layout.places, id ≠ holder → edited.node id = tree.node id)
    (repoints : Node.Repoints target top (tree.node holder) (edited.node holder))
    (outside : id ∈ layout.outside target) :
    edited.children id = Node.repointAll target top (tree.children id) ∧
      (edited.node id).expr = (tree.node id).expr ∧
      (edited.node id).isRoot = (tree.node id).isRoot := by
  by_cases same : id = holder
  · subst same
    exact ⟨repoints.children, repoints.expr, repoints.isRoot⟩
  · have node := nodes id (site.mem_of_outside outside) same
    have absent := site.children_of_outside outside same
    rw [Tree.children, node]
    exact ⟨(Node.repointAll_of_not_mem top absent).symm, rfl, rfl⟩

theorem outside_node (site : tree.Site layout target holder below held)
    (exchanged : tree.Exchanged target holder held edited grafted)
    (outside : id ∈ layout.outside target) :
    edited.children id = Node.repointAll target grafted.place (tree.children id) ∧
      (edited.node id).expr = (tree.node id).expr ∧
      (edited.node id).isRoot = (tree.node id).isRoot :=
  site.node_outside (fun id member => exchanged.node id (site.planted.index_lt member))
    exchanged.repoints outside

theorem outside_parent (site : tree.Site layout target holder below held)
    (exchanged : tree.Exchanged target holder held edited grafted)
    (outside : id ∈ layout.outside target) : edited.parent id = tree.parent id :=
  exchanged.parent id (site.planted.index_lt (site.mem_of_outside outside))
    (site.not_held_of_outside outside).1 (not_top_of_not_held (site.not_held_of_outside outside).2)

theorem mem_graft_iff (site : tree.Site layout target holder below held) :
    id ∈ (layout.graft target grafted).places ↔
      id ∈ layout.outside target ∨ id ∈ grafted.places := by
  rw [← List.mem_append]
  exact (site.inside.places_graft site.planted.nodup grafted).mem_iff

theorem grafts (site : tree.Site layout target holder below held)
    (exchanged : tree.Exchanged target holder held edited grafted) :
    tree.Grafts layout target edited grafted where
  children _ outside := (site.outside_node exchanged outside).1
  expr _ outside := (site.outside_node exchanged outside).2.1
  isRoot _ outside := (site.outside_node exchanged outside).2.2
  parent _ outside := site.outside_parent exchanged outside
  link := by rw [exchanged.link, site.parent]
  spans := exchanged.spans
  inner := exchanged.isRoot
  nodup := exchanged.nodup
  apart id outside inGrafted := by
    rcases exchanged.mem_cases id inGrafted with beyond | kept
    · exact Nat.not_lt_of_le beyond (site.planted.index_lt (site.mem_of_outside outside))
    · exact (site.not_held_of_outside outside).2 kept

theorem planted_graft (site : tree.Site layout target holder below held)
    (exchanged : tree.Exchanged target holder held edited grafted) :
    edited.Planted (layout.graft target grafted) :=
  site.planted.graft site.inside site.target_ne_root (site.grafts exchanged)

theorem leaf_node (site : tree.Site layout target holder below held)
    (exchanged : tree.Exchanged target holder held edited grafted) (member : id ∈ layout.places)
    (leaf : tree.children id = []) : edited.node id = tree.node id := by
  refine exchanged.node id (site.planted.index_lt member) ?_
  rintro rfl
  have slot := site.target_mem_children
  rw [leaf] at slot
  cases slot

/-- The holder has a child before and after the edit, so no leaf of the edited tree is the
holder. -/
theorem leaf_node_of_edited (site : tree.Site layout target holder below held)
    (exchanged : tree.Exchanged target holder held edited grafted) (member : id ∈ layout.places)
    (leaf : edited.children id = []) : edited.node id = tree.node id := by
  refine exchanged.node id (site.planted.index_lt member) ?_
  intro same
  have children := exchanged.repoints.children
  rw [same, Tree.children] at leaf
  rw [leaf] at children
  have slot := site.target_mem_children
  rw [Tree.children, List.map_eq_nil_iff.mp children.symm] at slot
  cases slot

/-- It is the holder of the target whose slot was pointed elsewhere. -/
theorem replaced (site : tree.Site layout target holder below held)
    (exchanged : tree.Exchanged target holder held edited grafted) {stored : Tree}
    (inside : grafted.place.index < stored.size)
    (result : stored.replace target grafted.place = .ok edited) :
    stored.Replaced edited target grafted.place holder := by
  have older : target ≠ grafted.place := by
    intro same
    have before := site.planted.index_lt site.target_mem
    rw [same] at before
    exact Nat.not_lt_of_le exchanged.fresh before
  rcases replace_eq_ok_cases inside result with ⟨same, _⟩ | ⟨other, replaced⟩
  · exact absurd same older
  · have link := replaced.parent grafted.place
    rw [if_neg older.symm, if_pos rfl, exchanged.link, Option.some.injEq] at link
    rwa [link]

/-- What was stored for the replacement stays as it was stored. -/
theorem stored_node (site : tree.Site layout target holder below held) {stored : Tree}
    {top : NodeId} (replaced : stored.Replaced edited target top holder)
    (beyond : tree.size ≤ id.index) : edited.node id = stored.node id := by
  have holderInside := site.planted.index_lt (site.mem_of_outside site.holder_outside)
  have other : id ≠ holder := by
    intro same
    rw [same] at beyond
    exact Nat.not_lt_of_le beyond holderInside
  obtain ⟨_, _, nodes⟩ := replaced.node
  rw [nodes, if_neg other]

theorem stored_parent (site : tree.Site layout target holder below held) {stored : Tree}
    {top : NodeId} (replaced : stored.Replaced edited target top holder)
    (beyond : tree.size ≤ id.index) (different : id ≠ top) :
    edited.parent id = stored.parent id := by
  have other : id ≠ target := by
    intro same
    rw [same] at beyond
    exact Nat.not_lt_of_le beyond (site.planted.index_lt site.target_mem)
  rw [replaced.parent, if_neg other, if_neg different]

/-- No node becomes a callee by being kept. -/
theorem isCallee_of_edited (site : tree.Site layout target holder below held)
    (exchanged : tree.Exchanged target holder held edited grafted)
    (member : id ∈ (layout.graft target grafted).places) (inside : id.index < tree.size)
    (called : edited.isCallee id = true) : tree.isCallee id = true := by
  obtain ⟨caller, arguments, link, call⟩ := isCallee_eq_true_iff.mp called
  have planted := site.planted_graft exchanged
  have callerMember := planted.parent_mem member link
  have older : caller ∈ layout.places := by
    rcases site.mem_graft_iff.mp callerMember with outside | inGrafted
    · exact site.mem_of_outside outside
    · rcases exchanged.mem_cases caller inGrafted with beyond | kept
      · exact absurd inside (Nat.not_lt_of_le (exchanged.heads caller id arguments beyond call))
      · exact site.mem_of_held kept
  have former : ∃ others, tree.node caller = .call id others := by
    by_cases same : caller = holder
    · subst same
      obtain ⟨former, others, node, repointed⟩ := exchanged.repoints.callee id arguments call
      split at repointed
      · rw [repointed] at inside
        exact absurd inside (Nat.not_lt_of_le exchanged.fresh)
      · exact ⟨others, by rw [node, repointed]⟩
    · rw [exchanged.node caller (site.planted.index_lt older) same] at call
      exact ⟨arguments, call⟩
  obtain ⟨others, call⟩ := former
  refine isCallee_eq_true_iff.mpr ⟨caller, others, ?_, call⟩
  refine site.planted.spans.parent_of_mem older ?_
  rw [Tree.children, call]
  exact List.mem_cons_self

end Site

end Tree

end Juxtaposition
