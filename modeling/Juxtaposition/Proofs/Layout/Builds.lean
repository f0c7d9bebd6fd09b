import Juxtaposition.Proofs.Layout.Forest

/-!
# Building on a forest

New nodes are stored one after the other on top of kept layouts. What is built so
far is again a forest, of new places and of the kept ones.
-/

set_option autoImplicit false

namespace Juxtaposition.Tree

/-- The forest `layouts`, which reads as `exprs`, is built from the kept layouts
`held` and from new nodes. Only new nodes are called by new nodes. -/
structure Builds (tree : Tree) (held : List Layout) (stored : Tree) (layouts : List Layout)
    (exprs : List Expr) : Prop where
  grows : tree.Grows stored (held.map Layout.place)
  forest : stored.Forest layouts
  parts : ∃ fresh : List NodeId,
    (layouts.flatMap Layout.places).Perm (fresh ++ held.flatMap Layout.places) ∧
      ∀ id ∈ fresh, tree.size ≤ id.index
  tops : ∀ layout ∈ layouts, layout.place.index < tree.size → layout ∈ held
  heads : ∀ holder callee arguments, tree.size ≤ holder.index →
    stored.node holder = .call callee arguments → tree.size ≤ callee.index
  reads : layouts.map stored.exprAlong = exprs

namespace Builds

variable {tree stored middle : Tree} {held others layouts more : List Layout}
  {exprs rest : List Expr}

theorem refl (forest : tree.Forest held) :
    tree.Builds held tree held (held.map tree.exprAlong) where
  grows := Grows.refl tree _
  forest := forest
  parts := ⟨[], by simp, by simp⟩
  tops _ member _ := member
  heads holder callee arguments beyond call := by
    rw [node_of_size_le tree holder beyond] at call
    cases call
  reads := rfl

theorem mem_cases (builds : tree.Builds held stored layouts exprs) {id : NodeId}
    (member : id ∈ layouts.flatMap Layout.places) :
    tree.size ≤ id.index ∨ id ∈ held.flatMap Layout.places := by
  obtain ⟨fresh, same, beyond⟩ := builds.parts
  rcases List.mem_append.mp (same.mem_iff.mp member) with isFresh | kept
  · exact .inl (beyond id isFresh)
  · exact .inr kept

theorem mem_of_held (builds : tree.Builds held stored layouts exprs) {id : NodeId}
    (member : id ∈ held.flatMap Layout.places) : id ∈ layouts.flatMap Layout.places := by
  obtain ⟨fresh, same, _⟩ := builds.parts
  exact same.mem_iff.mpr (List.mem_append_right _ member)

/-- A layout apart from the kept ones is not touched. -/
theorem frame (builds : tree.Builds held stored layouts exprs)
    (forest : tree.Forest (held ++ others)) : stored.Forest (layouts ++ others) := by
  obtain ⟨_, right, apart⟩ := Forest.append_iff.mp forest
  refine Forest.append_iff.mpr ⟨builds.forest, right.grows builds.grows ?_, ?_⟩
  · intro layout member id inTail adopted
    obtain ⟨top, topMember, rfl⟩ := List.mem_map.mp adopted
    exact apart (List.mem_flatMap.mpr ⟨top, topMember, top.place_mem_places⟩)
      (List.mem_flatMap.mpr ⟨layout, member, List.mem_of_mem_tail inTail⟩)
  · intro id inLayouts inOthers
    rcases builds.mem_cases inLayouts with beyond | kept
    · exact absurd (right.index_lt_of_mem inOthers) (Nat.not_lt_of_le beyond)
    · exact apart kept inOthers

theorem append (first : tree.Builds held middle layouts exprs)
    (forest : tree.Forest (held ++ others)) (second : middle.Builds others stored more rest) :
    tree.Builds (held ++ others) stored (layouts ++ more) (exprs ++ rest) := by
  have framed := first.frame forest
  have grown := first.grows.trans second.grows
  rw [← List.map_append] at grown
  obtain ⟨left, right, _⟩ := Forest.append_iff.mp forest
  obtain ⟨fresh, same, beyond⟩ := first.parts
  obtain ⟨fresher, sameMore, beyondMore⟩ := second.parts
  have swapped : middle.Forest (others ++ layouts) := framed.perm List.perm_append_comm
  refine ⟨grown, (second.frame swapped).perm List.perm_append_comm, ?_, ?_, ?_, ?_⟩
  · refine ⟨fresh ++ fresher, ?_, ?_⟩
    · rw [List.flatMap_append, List.flatMap_append]
      refine (same.append sameMore).trans ?_
      rw [List.append_assoc, List.append_assoc]
      refine .append_left _ ?_
      rw [← List.append_assoc, ← List.append_assoc]
      exact .append_right _ List.perm_append_comm
    · intro id member
      rcases List.mem_append.mp member with inFirst | inSecond
      · exact beyond id inFirst
      · exact Nat.le_trans first.grows.size (beyondMore id inSecond)
  · intro layout member inside
    rcases List.mem_append.mp member with inFirst | inSecond
    · exact List.mem_append_left _ (first.tops layout inFirst inside)
    · exact List.mem_append_right _
        (second.tops layout inSecond (Nat.lt_of_lt_of_le inside first.grows.size))
  · intro holder callee arguments outside call
    rcases Nat.lt_or_ge holder.index middle.size with inside | outsideMiddle
    · rw [second.grows.node holder inside] at call
      exact first.heads holder callee arguments outside call
    · exact Nat.le_trans first.grows.size
        (second.heads holder callee arguments outsideMiddle call)
  · rw [List.map_append, second.reads, ← first.reads]
    refine congrArg (· ++ rest) (List.map_congr_left fun layout member => ?_)
    exact first.forest.exprAlong_grows second.grows member

theorem swap {left right : Layout} {lhs rhs : Expr}
    (builds : tree.Builds (held ++ others) stored [left, right] [lhs, rhs]) :
    tree.Builds (others ++ held) stored [right, left] [rhs, lhs] := by
  have comm : (others ++ held).Perm (held ++ others) := List.perm_append_comm
  obtain ⟨fresh, same, beyond⟩ := builds.parts
  refine ⟨?_, builds.forest.perm (List.Perm.swap _ _ _), ?_, ?_, builds.heads, ?_⟩
  · exact builds.grows.mono (comm.symm.map _).subset
  · refine ⟨fresh, ?_, beyond⟩
    refine ((List.Perm.swap left right []).flatMap_right _).trans (same.trans ?_)
    exact .append_left _ (comm.symm.flatMap_right _)
  · intro layout member inside
    exact comm.mem_iff.mpr
      (builds.tops layout ((List.Perm.swap left right []).mem_iff.mp member) inside)
  · have reads := builds.reads
    simp only [List.map_cons, List.map_nil, List.cons.injEq, and_true] at reads ⊢
    exact reads.symm

theorem store (builds : tree.Builds held stored layouts exprs) {node : Node}
    (children : node.children = layouts.map Layout.place) (isRoot : node.isRoot = false)
    (head : ∀ callee arguments, node = .call callee arguments → tree.size ≤ callee.index) :
    tree.Builds held (stored.store node).2 [.node stored.next layouts] [node.expr exprs] := by
  obtain ⟨fresh, same, beyond⟩ := builds.parts
  have grown := stored.store_grows node
  refine ⟨?_, builds.forest.store children isRoot, ?_, ?_, ?_, ?_⟩
  · refine ⟨Nat.le_trans builds.grows.size grown.size, ?_, ?_⟩
    · intro id inside
      rw [grown.node id (Nat.lt_of_lt_of_le inside builds.grows.size), builds.grows.node id inside]
    · intro id inside absent
      rw [grown.parent id (Nat.lt_of_lt_of_le inside builds.grows.size) ?_,
        builds.grows.parent id inside absent]
      rw [children]
      intro adopted
      obtain ⟨layout, member, rfl⟩ := List.mem_map.mp adopted
      exact absent (List.mem_map_of_mem (builds.tops layout member inside))
  · refine ⟨stored.next :: fresh, ?_, ?_⟩
    · rw [List.flatMap_singleton, Layout.places_node]
      exact .cons _ same
    · intro id member
      rcases List.mem_cons.mp member with rfl | isFresh
      · exact builds.grows.size
      · exact beyond id isFresh
  · intro layout member inside
    rw [List.mem_singleton.mp member] at inside
    exact absurd inside (Nat.not_lt_of_le builds.grows.size)
  · intro holder callee arguments outside call
    rw [node_store] at call
    split at call
    · exact head callee arguments call
    · exact builds.heads holder callee arguments outside call
  · rw [List.map_singleton, builds.forest.exprAlong_store, builds.reads]

theorem leaf (tree : Tree) {node : Node} (children : node.children = [])
    (isRoot : node.isRoot = false) :
    tree.Builds [] (tree.store node).2 [.node tree.next []] [node.expr []] := by
  refine (Builds.refl (Forest.nil tree)).store (by simpa using children) isRoot ?_
  rintro callee arguments rfl
  cases children

end Builds

end Juxtaposition.Tree
