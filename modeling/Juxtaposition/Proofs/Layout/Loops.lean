import Juxtaposition.Proofs.Layout.Walks

/-!
# Loops over a stack

A walk as a loop that takes nodes from a stack and puts their successors on it. Nothing bounds the
number of its visits. On a sound tree each of the loops comes to an end, and what it has visited is
the recursive reading of the subtree, be it with the first or with the last child on top.
-/

set_option autoImplicit false

namespace Juxtaposition

/-- From this stack the loop comes to an end after these visits. It ends early at a node at which
it is to stop. -/
inductive Loops (stop : NodeId → Bool) (successors : NodeId → List NodeId) :
    (stack visited : List NodeId) → Prop where
  | emptied : Loops stop successors [] []
  | stopped {id : NodeId} {stack : List NodeId} :
      stop id = true → Loops stop successors (id :: stack) [id]
  | onward {id : NodeId} {stack visited : List NodeId} :
      stop id = false → Loops stop successors (successors id ++ stack) visited →
      Loops stop successors (id :: stack) (id :: visited)

section Loops

variable {stop : NodeId → Bool} {successors : NodeId → List NodeId}
  {stack visited other : List NodeId}

theorem Loops.unique (loops : Loops stop successors stack visited)
    (again : Loops stop successors stack other) : visited = other := by
  induction loops generalizing other with
  | emptied =>
      cases again
      rfl
  | stopped stops =>
      cases again with
      | stopped _ => rfl
      | onward goesOn _ =>
          rw [stops] at goesOn
          cases goesOn
  | onward goesOn _ ih =>
      cases again with
      | stopped stops =>
          rw [stops] at goesOn
          cases goesOn
      | onward _ later => rw [ih later]

inductive EndsWithin (successors : NodeId → List NodeId) : (depth : Nat) → NodeId → Prop where
  | node {depth : Nat} {id : NodeId} :
      (∀ child ∈ successors id, EndsWithin successors depth child) →
      EndsWithin successors (depth + 1) id

theorem EndsWithin.mono {fewer : NodeId → List NodeId} {depth : Nat} {id : NodeId}
    (ends : EndsWithin successors depth id) (subset : ∀ id, fewer id ⊆ successors id) :
    EndsWithin fewer depth id := by
  induction ends with
  | node _ ih => exact .node fun child member => ih child (subset _ member)

theorem Layout.Follows.endsWithin {layout : Layout} (follows : layout.Follows successors)
    {depth : Nat} (enough : layout.height ≤ depth) : EndsWithin successors depth layout.place := by
  induction follows generalizing depth with
  | @node place below ahead _ ih =>
      cases depth with
      | zero => simp at enough
      | succ depth =>
          refine .node fun child member => ?_
          rw [Layout.place_node, ahead] at member
          obtain ⟨part, inBelow, rfl⟩ := List.mem_map.mp member
          have lower := Layout.height_lt_of_mem place inBelow
          exact ih part inBelow (Nat.le_of_lt_succ (Nat.lt_of_lt_of_le lower enough))

/-- The depths of the visits do not cut a walk short where all paths end within them. -/
theorem loops_walkUntil {pending : List Visit}
    (ends : ∀ visit ∈ pending, EndsWithin successors visit.depth visit.node) :
    Loops stop successors (pending.map Visit.node) (walkUntil stop successors pending) := by
  fun_induction walkUntil stop successors pending with
  | case1 => exact .emptied
  | case2 id pending _ =>
      have spent : EndsWithin successors 0 id := ends ⟨0, id⟩ List.mem_cons_self
      cases spent
  | case3 depth id pending stops => exact .stopped stops
  | case4 depth id pending continues ih =>
      have goesOn : stop id = false := by simpa using continues
      refine .onward goesOn ?_
      have opened : EndsWithin successors (depth + 1) id := ends ⟨depth + 1, id⟩ List.mem_cons_self
      cases opened with
      | node inner =>
          have later : ∀ visit ∈ (successors id).map (Visit.mk depth) ++ pending,
              EndsWithin successors visit.depth visit.node := by
            intro visit member
            rcases List.mem_append.mp member with child | earlier
            · obtain ⟨place, inSuccessors, rfl⟩ := List.mem_map.mp child
              exact inner place inSuccessors
            · exact ends visit (List.mem_cons_of_mem _ earlier)
          have reached := ih later
          rw [List.map_append, List.map_map] at reached
          simpa [Function.comp_def] using reached

theorem EndsWithin.loops_iff {depth : Nat} {id : NodeId} (ends : EndsWithin successors depth id) :
    Loops stop successors [id] visited ↔ visited = walkUntil stop successors [⟨depth, id⟩] := by
  have bounded : ∀ visit ∈ [Visit.mk depth id],
      EndsWithin successors visit.depth visit.node := by
    intro visit member
    rw [List.mem_singleton.mp member]
    exact ends
  have walked : Loops stop successors [id] (walkUntil stop successors [⟨depth, id⟩]) :=
    loops_walkUntil bounded
  constructor
  · intro loops
    exact loops.unique walked
  · intro same
    rw [same]
    exact walked

end Loops

namespace Tree

/-- All walks from a node come to an end, and they agree with the list that has the node first and
then the lists of its children. -/
structure Traverses (tree : Tree) (start : NodeId) : Prop where
  forward : ∀ visited, Loops (fun _ => false) tree.children [start] visited ↔
    visited = tree.preorder start
  recursive : ∀ id, tree.Reaches start id →
    tree.preorder id = id :: (tree.children id).flatMap tree.preorder
  nodup : (tree.preorder start).Nodup
  mem_iff : ∀ id, id ∈ tree.preorder start ↔ tree.Reaches start id
  backward : ∀ (stop : Node → Bool) visited,
    Loops (fun id => stop (tree.node id)) (fun id => (tree.children id).reverse) [start] visited ↔
      visited = tree.visitedUntil stop start
  countNodes : ∀ wanted : Node → Bool, tree.countNodes wanted start =
    (tree.preorder start).countP fun id => wanted (tree.node id)
  existsNode : ∀ wanted : Node → Bool, tree.existsNode wanted start = true ↔
    ∃ id ∈ tree.preorder start, wanted (tree.node id) = true
  countReachable : tree.countReachable start = (tree.preorder start).length
  weight : tree.weight start =
    ⟨(tree.preorder start).length, tree.textAt (tree.preorder start)⟩

variable {tree : Tree} {layout part : Layout}

namespace Planted

theorem preorder_recursive (planted : tree.Planted layout) (inside : part.Within layout) :
    tree.preorder part.place =
      part.place :: (tree.children part.place).flatMap tree.preorder := by
  rw [planted.preorder_place inside]
  cases part with
  | node place below =>
      rw [Layout.place_node, (planted.spans.within inside).children, List.flatMap_map,
        Layout.places_node]
      refine congrArg _ (List.flatMap_congr fun child member => ?_)
      exact (planted.preorder_place ((Layout.Within.of_mem .refl member).trans inside)).symm

/-- No path from a reachable node is longer than the arena. -/
theorem endsWithin (planted : tree.Planted layout) (inside : part.Within layout) :
    EndsWithin tree.children tree.size part.place :=
  (planted.spans.within inside).follows_children.endsWithin (planted.height_within_le inside)

theorem traverses (planted : tree.Planted layout) (inside : part.Within layout) :
    tree.Traverses part.place := by
  have spans := planted.spans.within inside
  have listed := planted.preorder_place inside
  have reached (id : NodeId) : tree.Reaches part.place id ↔ id ∈ part.places := spans.reaches_iff
  constructor
  case forward =>
    intro visited
    exact (planted.endsWithin inside).loops_iff
  case recursive =>
    intro id below
    obtain ⟨inner, within, rfl⟩ := Layout.exists_within_of_mem ((reached id).mp below)
    exact planted.preorder_recursive (within.trans inside)
  case nodup =>
    rw [listed]
    exact inside.nodup planted.nodup
  case mem_iff =>
    intro id
    rw [listed]
    exact (reached id).symm
  case backward =>
    intro stop visited
    have reversed := (planted.endsWithin inside).mono fun id => List.reverse_subset.mpr
      (List.Subset.refl (tree.children id))
    exact reversed.loops_iff
  case countNodes =>
    intro wanted
    rw [listed]
    exact planted.countNodes_place inside wanted
  case existsNode =>
    intro wanted
    rw [listed, planted.existsNode_place inside, List.any_eq_true]
  case countReachable =>
    rw [listed, countReachable, planted.countNodes_place inside]
    exact congrFun List.countP_true part.places
  case weight =>
    rw [listed]
    exact planted.weight_place inside

end Planted

end Tree

end Juxtaposition
