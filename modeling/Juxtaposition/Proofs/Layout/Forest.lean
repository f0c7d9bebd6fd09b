import Juxtaposition.Proofs.Layout.Planted

/-!
# Forests

Several layouts side by side in one arena. Storing a node on top of a forest makes
one layout of it.
-/

set_option autoImplicit false

namespace Juxtaposition

/-- The second arena has what the first one has and some nodes more. Only the nodes
among `adopted` may have another parent. -/
structure Tree.Grows (tree stored : Tree) (adopted : List NodeId) : Prop where
  size : tree.size ≤ stored.size
  node : ∀ id, id.index < tree.size → stored.node id = tree.node id
  parent : ∀ id, id.index < tree.size → id ∉ adopted → stored.parent id = tree.parent id

structure Tree.Forest (tree : Tree) (layouts : List Layout) : Prop where
  spans : ∀ layout ∈ layouts, tree.Spans layout
  isRoot : ∀ layout ∈ layouts, (tree.node layout.place).isRoot = false
  index_lt : ∀ layout ∈ layouts, ∀ id ∈ layout.places, id.index < tree.size
  nodup : (layouts.flatMap Layout.places).Nodup

namespace Tree

variable {tree stored : Tree} {layouts others : List Layout} {adopted : List NodeId}

theorem Grows.refl (tree : Tree) (adopted : List NodeId) : tree.Grows tree adopted :=
  ⟨Nat.le_refl _, fun _ _ => rfl, fun _ _ _ => rfl⟩

theorem Grows.trans {middle : Tree} {left right : List NodeId} (first : tree.Grows middle left)
    (second : middle.Grows stored right) : tree.Grows stored (left ++ right) where
  size := Nat.le_trans first.size second.size
  node id inside := by
    rw [second.node id (Nat.lt_of_lt_of_le inside first.size), first.node id inside]
  parent id inside absent := by
    rw [List.mem_append, not_or] at absent
    rw [second.parent id (Nat.lt_of_lt_of_le inside first.size) absent.2,
      first.parent id inside absent.1]

theorem Grows.mono {more : List NodeId} (grows : tree.Grows stored adopted)
    (wider : adopted ⊆ more) : tree.Grows stored more where
  size := grows.size
  node := grows.node
  parent id inside absent := grows.parent id inside fun member => absent (wider member)

theorem store_grows (tree : Tree) (node : Node) :
    tree.Grows (tree.store node).2 node.children where
  size := by rw [size_store]; exact Nat.le_succ _
  node id inside := by
    rw [node_store, if_neg]
    rintro rfl
    exact Nat.lt_irrefl _ inside
  parent id _ absent := by rw [parent_store, if_neg fun both => absent both.1]

namespace Forest

theorem nil (tree : Tree) : tree.Forest [] :=
  ⟨by simp, by simp, by simp, by simp⟩

theorem of_subset (forest : tree.Forest layouts) (subset : others ⊆ layouts)
    (nodup : (others.flatMap Layout.places).Nodup) : tree.Forest others where
  spans layout member := forest.spans layout (subset member)
  isRoot layout member := forest.isRoot layout (subset member)
  index_lt layout member := forest.index_lt layout (subset member)
  nodup := nodup

theorem perm (forest : tree.Forest layouts) (same : others.Perm layouts) : tree.Forest others :=
  forest.of_subset same.subset ((same.flatMap_right _).nodup_iff.mpr forest.nodup)

theorem append_iff :
    tree.Forest (layouts ++ others) ↔ tree.Forest layouts ∧ tree.Forest others ∧
      (layouts.flatMap Layout.places).Disjoint (others.flatMap Layout.places) := by
  constructor
  · intro forest
    have nodup := forest.nodup
    rw [List.flatMap_append, List.nodup_append'] at nodup
    exact ⟨forest.of_subset (List.subset_append_left _ _) nodup.1,
      forest.of_subset (List.subset_append_right _ _) nodup.2.1, nodup.2.2⟩
  · rintro ⟨left, right, apart⟩
    refine ⟨?_, ?_, ?_, ?_⟩
    · intro layout member
      rcases List.mem_append.mp member with inLeft | inRight
      · exact left.spans layout inLeft
      · exact right.spans layout inRight
    · intro layout member
      rcases List.mem_append.mp member with inLeft | inRight
      · exact left.isRoot layout inLeft
      · exact right.isRoot layout inRight
    · intro layout member
      rcases List.mem_append.mp member with inLeft | inRight
      · exact left.index_lt layout inLeft
      · exact right.index_lt layout inRight
    · rw [List.flatMap_append, List.nodup_append']
      exact ⟨left.nodup, right.nodup, apart⟩

theorem index_lt_of_mem (forest : tree.Forest layouts) {id : NodeId}
    (member : id ∈ layouts.flatMap Layout.places) : id.index < tree.size := by
  obtain ⟨layout, inside, here⟩ := List.mem_flatMap.mp member
  exact forest.index_lt layout inside id here

theorem place_not_mem_tail (forest : tree.Forest layouts) {top layout : Layout}
    (topMember : top ∈ layouts) (member : layout ∈ layouts) :
    top.place ∉ layout.places.tail := by
  intro inTail
  have inLayout := List.mem_of_mem_tail inTail
  obtain ⟨before, after, rfl⟩ := List.append_of_mem member
  have nodup := forest.nodup
  rw [List.flatMap_append, List.flatMap_cons, List.nodup_append', List.nodup_append'] at nodup
  obtain ⟨_, ⟨alone, _, apartAfter⟩, apartBefore⟩ := nodup
  rcases List.mem_append.mp topMember with inBefore | here
  · exact apartBefore (List.mem_flatMap.mpr ⟨top, inBefore, top.place_mem_places⟩)
      (List.mem_append_left _ inLayout)
  · rcases List.mem_cons.mp here with rfl | inAfter
    · exact Layout.place_not_mem_tail alone inTail
    · exact apartAfter inLayout (List.mem_flatMap.mpr ⟨top, inAfter, top.place_mem_places⟩)

theorem grows (forest : tree.Forest layouts) (grows : tree.Grows stored adopted)
    (untouched : ∀ layout ∈ layouts, ∀ id ∈ layout.places.tail, id ∉ adopted) :
    stored.Forest layouts where
  spans layout member := by
    refine (forest.spans layout member).frame ?_ ?_
    · intro id inside
      exact grows.node id (forest.index_lt layout member id inside)
    · intro id inTail
      exact grows.parent id (forest.index_lt layout member id (List.mem_of_mem_tail inTail))
        (untouched layout member id inTail)
  isRoot layout member := by
    rw [grows.node _ (forest.index_lt layout member _ layout.place_mem_places)]
    exact forest.isRoot layout member
  index_lt layout member id inside :=
    Nat.lt_of_lt_of_le (forest.index_lt layout member id inside) grows.size
  nodup := forest.nodup

theorem exprAlong_grows (forest : tree.Forest layouts) (grows : tree.Grows stored adopted)
    {layout : Layout} (member : layout ∈ layouts) :
    stored.exprAlong layout = tree.exprAlong layout := by
  refine exprAlong_congr fun id inside => ?_
  rw [grows.node id (forest.index_lt layout member id inside)]

theorem store (forest : tree.Forest layouts) {node : Node}
    (children : node.children = layouts.map Layout.place) (isRoot : node.isRoot = false) :
    (tree.store node).2.Forest [.node tree.next layouts] := by
  have grows := tree.store_grows node
  rw [children] at grows
  have kept : (tree.store node).2.Forest layouts := by
    refine forest.grows grows fun layout member id inTail adopted => ?_
    obtain ⟨top, topMember, rfl⟩ := List.mem_map.mp adopted
    exact forest.place_not_mem_tail topMember member inTail
  have here : (tree.store node).2.node tree.next = node := by rw [node_store, if_pos rfl]
  have fresh : tree.next ∉ layouts.flatMap Layout.places := fun member =>
    Nat.lt_irrefl _ (forest.index_lt_of_mem member)
  have spans : (tree.store node).2.Spans (.node tree.next layouts) := by
    refine .node ?_ ?_ kept.isRoot kept.spans
    · rw [Tree.children, here, children]
    · intro child member
      rw [parent_store, if_pos]
      refine ⟨?_, forest.index_lt child member _ child.place_mem_places⟩
      rw [children]
      exact List.mem_map_of_mem member
  refine ⟨?_, ?_, ?_, ?_⟩
  · simpa using spans
  · simpa [here] using isRoot
  · intro layout member id inside
    rw [List.mem_singleton.mp member, Layout.places_node] at inside
    rcases List.mem_cons.mp inside with rfl | below
    · rw [size_store]
      exact Nat.lt_succ_self _
    · exact kept.index_lt_of_mem below
  · simpa using ⟨by simpa using fresh, forest.nodup⟩

theorem exprAlong_store (forest : tree.Forest layouts) {node : Node} :
    (tree.store node).2.exprAlong (.node tree.next layouts) =
      node.expr (layouts.map tree.exprAlong) := by
  rw [exprAlong_node, node_store, if_pos rfl]
  exact congrArg _ (List.map_congr_left fun _ member =>
    forest.exprAlong_grows (tree.store_grows node) member)

end Forest

end Tree

end Juxtaposition
