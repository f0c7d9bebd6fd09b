import Juxtaposition.Normalization.Order
import Juxtaposition.Proofs.Layout.Planted

/-!
# Walks along a layout

On a sound tree no walk is cut off by its depth limit, so every walk lists the
places of the layout. The order of a pass lists a name before the call it heads,
and every other call before all that its callee consists of.
-/

set_option autoImplicit false

namespace Juxtaposition

/-! ## Walks in general -/

inductive Layout.Follows (successors : NodeId → List NodeId) : Layout → Prop where
  | node {place : NodeId} {below : List Layout} :
      successors place = below.map Layout.place →
      (∀ child ∈ below, Follows successors child) → Follows successors (.node place below)

theorem answer_visits {α : Type} (answer : List Visit → List α) {list : Layout → List α}
    {depth : Nat} {layouts : List Layout}
    (walk : ∀ layout ∈ layouts, ∀ pending,
      answer (⟨depth, layout.place⟩ :: pending) = list layout ++ answer pending)
    (pending : List Visit) :
    answer (layouts.map (fun layout => ⟨depth, layout.place⟩) ++ pending) =
      layouts.flatMap list ++ answer pending := by
  induction layouts with
  | nil => rfl
  | cons first rest ih =>
      rw [List.map_cons, List.cons_append, walk first List.mem_cons_self,
        ih fun layout member => walk layout (List.mem_cons_of_mem _ member),
        List.flatMap_cons, List.append_assoc]

theorem Layout.Follows.walkUntil_eq {successors : NodeId → List NodeId} {layout : Layout}
    (follows : layout.Follows successors) {depth : Nat} (enough : layout.height ≤ depth)
    (pending : List Visit) :
    walkUntil (fun _ => false) successors (⟨depth, layout.place⟩ :: pending) =
      layout.places ++ walkUntil (fun _ => false) successors pending := by
  induction follows generalizing depth pending with
  | @node place below ahead _ ih =>
      cases depth with
      | zero => simp at enough
      | succ depth =>
          rw [Layout.place_node, walkUntil, if_neg Bool.false_ne_true, ahead, List.map_map,
            Layout.places_node, List.cons_append]
          refine congrArg _ (answer_visits (walkUntil (fun _ => false) successors)
            (fun child member => ih child member ?_) pending)
          have less := Layout.height_lt_of_mem place member
          omega

/-- A walk that stops at the first node of some kind meets one if a walk that goes on does. -/
theorem any_walkUntil (stop : NodeId → Bool) (successors : NodeId → List NodeId)
    (pending : List Visit) :
    (walkUntil stop successors pending).any stop =
      (walkUntil (fun _ => false) successors pending).any stop := by
  fun_induction walkUntil stop successors pending with
  | case1 => rw [walkUntil]
  | case2 id pending ih => rw [walkUntil, ih]
  | case3 depth id pending stops => simp [walkUntil, stops]
  | case4 depth id pending continues ih => simp [walkUntil, continues, ih]

def Layout.mirror : Layout → Layout :=
  Layout.fold fun place below => .node place below.reverse

theorem Layout.mirror_node (place : NodeId) (below : List Layout) :
    (Layout.node place below).mirror = .node place (below.map Layout.mirror).reverse :=
  Layout.fold_node _ place below

@[simp] theorem Layout.place_mirror (layout : Layout) : layout.mirror.place = layout.place := by
  cases layout with
  | node place below => rw [mirror_node, place_node, place_node]

theorem Layout.places_mirror (layout : Layout) : layout.mirror.places.Perm layout.places := by
  induction layout using Layout.induction with
  | node place below ih =>
      rw [mirror_node, places_node, places_node]
      refine .cons _ (((List.reverse_perm _).flatMap_right _).trans ?_)
      rw [List.flatMap_map]
      exact .flatMap_left _ ih

theorem Layout.height_mirror (layout : Layout) : layout.mirror.height = layout.height := by
  induction layout using Layout.induction with
  | node place below ih =>
      have same : (below.map mirror).map height = below.map height := by
        rw [List.map_map]
        exact List.map_congr_left ih
      rw [mirror_node, height_node, height_node, List.map_reverse, same]
      congr 1
      exact (List.reverse_perm _).foldr_eq' (fun _ _ _ _ _ => by omega) 0

namespace Tree

variable {tree : Tree} {layout part : Layout}

theorem Spans.follows_children (spans : tree.Spans layout) : layout.Follows tree.children := by
  induction spans with
  | node children _ _ _ ih => exact .node children ih

theorem Spans.follows_reversed (spans : tree.Spans layout) :
    layout.mirror.Follows fun id => (tree.children id).reverse := by
  induction spans with
  | @node place below children _ _ _ ih =>
      rw [Layout.mirror_node]
      refine .node ?_ ?_
      · rw [children, List.map_reverse, List.map_map]
        exact congrArg _ (List.map_congr_left fun child _ => child.place_mirror.symm)
      · intro child member
        obtain ⟨inner, inside, rfl⟩ := List.mem_map.mp (List.mem_reverse.mp member)
        exact ih inner inside

/-! ## Weights -/

def textAt (tree : Tree) (ids : List NodeId) : Nat :=
  ids.foldr (fun id total => (tree.node id).textSize + total) 0

theorem textAt_append (left right : List NodeId) :
    tree.textAt (left ++ right) = tree.textAt left + tree.textAt right := by
  induction left with
  | nil => simp [textAt]
  | cons first rest ih =>
      simp only [textAt, List.cons_append, List.foldr_cons] at ih ⊢
      omega

theorem textAt_perm {left right : List NodeId} (same : left.Perm right) :
    tree.textAt left = tree.textAt right :=
  same.foldr_eq' (fun _ _ _ _ _ => by omega) 0

private theorem foldl_weight (ids : List NodeId) (nodes text : Nat) :
    ids.foldl (fun (weight : Weight) id =>
        (⟨weight.nodes + 1, weight.text + (tree.node id).textSize⟩ : Weight)) ⟨nodes, text⟩ =
      ⟨nodes + ids.length, text + tree.textAt ids⟩ := by
  induction ids generalizing nodes text with
  | nil => rfl
  | cons first rest ih =>
      simp only [List.foldl_cons, ih, List.length_cons, textAt, List.foldr_cons, Weight.mk.injEq]
      omega

namespace Planted

theorem preorder_place (planted : tree.Planted layout) (inside : part.Within layout) :
    tree.preorder part.place = part.places := by
  have walk := (planted.spans.within inside).follows_children.walkUntil_eq
    (planted.height_within_le inside) []
  rwa [walkUntil, List.append_nil] at walk

theorem preorder_root (planted : tree.Planted layout) : tree.preorder root = layout.places := by
  rw [← planted.place]
  exact planted.preorder_place .refl

theorem mirror_height_le (planted : tree.Planted layout) (inside : part.Within layout) :
    part.mirror.height ≤ tree.size := by
  rw [part.height_mirror]
  exact planted.height_within_le inside

/-- A walk that takes the last child first lists the places of the mirrored layout. -/
theorem visitedUntil_place (planted : tree.Planted layout) (inside : part.Within layout) :
    tree.visitedUntil (fun _ => false) part.place = part.mirror.places := by
  have walk := (planted.spans.within inside).follows_reversed.walkUntil_eq
    (planted.mirror_height_le inside) []
  rwa [Layout.place_mirror, walkUntil, List.append_nil] at walk

theorem visitedUntil_root (planted : tree.Planted layout) :
    tree.visitedUntil (fun _ => false) root = layout.mirror.places := by
  rw [← planted.place]
  exact planted.visitedUntil_place .refl

theorem countNodes_place (planted : tree.Planted layout) (inside : part.Within layout)
    (wanted : Node → Bool) :
    tree.countNodes wanted part.place = part.places.countP fun id => wanted (tree.node id) := by
  rw [countNodes, planted.visitedUntil_place inside, part.places_mirror.countP_eq]

theorem weight_place (planted : tree.Planted layout) (inside : part.Within layout) :
    tree.weight part.place = ⟨part.places.length, tree.textAt part.places⟩ := by
  rw [weight, planted.visitedUntil_place inside, foldl_weight, part.places_mirror.length_eq,
    textAt_perm part.places_mirror, Nat.zero_add, Nat.zero_add]

theorem weight_root (planted : tree.Planted layout) :
    tree.weight root = ⟨layout.places.length, tree.textAt layout.places⟩ := by
  rw [← planted.place]
  exact planted.weight_place .refl

/-- A search finds what it comes by. -/
theorem existsNode_place (planted : tree.Planted layout) (inside : part.Within layout)
    (wanted : Node → Bool) :
    tree.existsNode wanted part.place = part.places.any fun id => wanted (tree.node id) := by
  have same : tree.existsNode wanted part.place =
      part.mirror.places.any fun id => wanted (tree.node id) := by
    rw [← planted.visitedUntil_place inside]
    exact any_walkUntil (fun id => wanted (tree.node id)) _ _
  rw [same, part.places_mirror.any_eq]

/-- A search from the root finds what is reachable. -/
theorem existsNode_iff (planted : tree.Planted layout) {wanted : Node → Bool} :
    tree.existsNode wanted root = true ↔
      ∃ id, tree.Reaches root id ∧ wanted (tree.node id) = true := by
  rw [← planted.place, planted.existsNode_place .refl, List.any_eq_true, planted.place]
  exact exists_congr fun id => and_congr_left' planted.reaches_iff.symm

end Planted

end Tree

end Juxtaposition
