import Juxtaposition.Proofs.Layout.Parts
import Juxtaposition.Proofs.Layout.Planted
import Juxtaposition.Proofs.Tree.Twins
import Mathlib.Data.List.Forall2

/-!
# Twin layouts

The same layout at other places. Sound arenas with the same expression are twins along it, and
what is reachable in one of two twins is reachable at the paired places of the other one.
-/

set_option autoImplicit false

namespace Juxtaposition

namespace Layout

variable {first second : NodeId → NodeId} {layout part : Layout}

def map (place : NodeId → NodeId) : Layout → Layout :=
  fold fun id below => node (place id) below

theorem map_node (place : NodeId → NodeId) (id : NodeId) (below : List Layout) :
    (node id below).map place = node (place id) (below.map (map place)) :=
  fold_node _ id below

@[simp] theorem place_map (place : NodeId → NodeId) (layout : Layout) :
    (layout.map place).place = place layout.place := by
  cases layout with
  | node id below => rw [map_node, place_node, place_node]

theorem places_map (place : NodeId → NodeId) (layout : Layout) :
    (layout.map place).places = layout.places.map place := by
  induction layout using induction with
  | node id below ih =>
      rw [map_node, places_node, places_node, List.map_cons, List.flatMap_map, List.map_flatMap]
      exact congrArg _ (List.flatMap_congr ih)

theorem map_congr (same : ∀ id ∈ layout.places, first id = second id) :
    layout.map first = layout.map second := by
  induction layout using induction with
  | node id below ih =>
      rw [map_node, map_node, same id (place_mem_places _)]
      exact congrArg _ (List.map_congr_left fun child member => ih child member fun inner inChild =>
        same inner (mem_places_of_mem member inChild))

theorem Within.map (inside : part.Within layout) (place : NodeId → NodeId) :
    (part.map place).Within (layout.map place) := by
  induction inside with
  | refl => exact .refl
  | child _ ih =>
      rw [map_node, List.map_append, List.map_cons]
      exact .child ih

/-- Places that are given child by child fit together, since no place is below two children. -/
private theorem exists_map_all {below others : List Layout}
    (paired : List.Forall₂ (fun child other => ∃ place, child.map place = other) below others)
    (nodup : (below.flatMap places).Nodup) : ∃ place, below.map (map place) = others := by
  induction paired with
  | nil => exact ⟨id, rfl⟩
  | @cons child other below others found _ ih =>
      rw [List.flatMap_cons, List.nodup_append'] at nodup
      obtain ⟨_, rest, apart⟩ := nodup
      obtain ⟨head, rfl⟩ := found
      obtain ⟨tail, rfl⟩ := ih rest
      refine ⟨fun id => if id ∈ child.places then head id else tail id, ?_⟩
      rw [List.map_cons]
      refine congrArg₂ _ (map_congr fun id member => if_pos member)
        (List.map_congr_left fun sibling inBelow => map_congr fun id member => if_neg ?_)
      exact fun inChild => apart inChild (List.mem_flatMap.mpr ⟨sibling, inBelow, member⟩)

theorem exists_map_node {id twin : NodeId} {below others : List Layout}
    (paired : List.Forall₂ (fun child other => ∃ place, child.map place = other) below others)
    (nodup : (node id below).places.Nodup) :
    ∃ place, (node id below).map place = node twin others := by
  rw [places_node, List.nodup_cons] at nodup
  obtain ⟨place, rfl⟩ := exists_map_all paired nodup.2
  refine ⟨Function.update place id twin, ?_⟩
  rw [map_node, Function.update_self]
  refine congrArg _ (List.map_congr_left fun child member => map_congr fun inner inChild => ?_)
  refine Function.update_of_ne ?_ _ _
  rintro rfl
  exact nodup.1 (List.mem_flatMap.mpr ⟨child, member, inChild⟩)

end Layout

namespace Tree

variable {tree other : Tree} {layout twin : Layout} {pairing : Pairing}

/-! ## The same expression -/

theorem Spans.exists_map (spans : tree.Spans layout) (again : other.Spans twin)
    (inner : (tree.node layout.place).isRoot = false)
    (innerAgain : (other.node twin.place).isRoot = false) (nodup : layout.places.Nodup)
    (same : other.exprAlong twin = tree.exprAlong layout) : ∃ place, layout.map place = twin := by
  induction layout using Layout.induction generalizing twin with
  | node id below ih =>
      cases twin with
      | node id' others =>
          have parts : others.map other.exprAlong = below.map tree.exprAlong := by
            rw [← again.parts_exprAlong innerAgain, same, spans.parts_exprAlong inner]
          have equal : List.Forall₂ (· = ·) (below.map tree.exprAlong)
              (others.map other.exprAlong) := by
            rw [List.forall₂_eq_eq_eq, parts]
          have paired := List.forall₂_map_right_iff.mp (List.forall₂_map_left_iff.mp equal)
          refine Layout.exists_map_node (List.forall₂_iff_zip.mpr ⟨paired.length_eq, ?_⟩) nodup
          intro child next both
          obtain ⟨member, memberAgain⟩ := List.of_mem_zip both
          have distinct := (Layout.Within.of_mem .refl member).nodup nodup
          exact ih child member (spans.child member) (again.child memberAgain)
            (spans.isRoot member) (again.isRoot memberAgain) distinct
            ((List.forall₂_iff_zip.mp paired).2 both).symm

namespace Planted

/-- Sound trees with the same expression have the same layout at other places, and the same nodes
there. -/
theorem exists_map (planted : tree.Planted layout) (again : other.Planted twin)
    (same : other.exprAlong twin = tree.exprAlong layout) :
    ∃ place, layout.map place = twin ∧ ∀ id ∈ layout.places,
      (other.node (place id)).outline = (tree.node id).outline := by
  obtain ⟨body, rfl, kind, reading⟩ := planted.exists_body
  obtain ⟨twinBody, rfl, twinKind, twinReading⟩ := again.exists_body
  have nodup := planted.nodup
  have spans := planted.spans.child List.mem_cons_self
  have twinSpans := again.spans.child List.mem_cons_self
  have inner := planted.spans.isRoot List.mem_cons_self
  have twinInner := again.spans.isRoot List.mem_cons_self
  rw [reading, twinReading] at same
  have bodyNodup := (Layout.Within.of_mem .refl List.mem_cons_self).nodup nodup
  have found := spans.exists_map twinSpans inner twinInner bodyNodup same
  obtain ⟨place, mapped⟩ :
      ∃ place, (Layout.node root [body]).map place = .node root [twinBody] :=
    Layout.exists_map_node (.cons found .nil) nodup
  refine ⟨place, mapped, fun id member => ?_⟩
  rw [Layout.map_node, List.map_singleton, Layout.node.injEq, List.singleton_inj] at mapped
  obtain ⟨top, rfl⟩ := mapped
  rw [Layout.places_node, List.flatMap_singleton, List.mem_cons] at member
  rcases member with rfl | inBody
  · rw [top, kind, twinKind]
    rfl
  · have outlines := twinSpans.outlines_exprAlong twinInner
    rw [same, ← spans.outlines_exprAlong inner, Layout.places_map, List.map_map] at outlines
    exact List.map_inj_left.mp outlines id inBody

/-- The places of a layout and those of the same layout elsewhere, as pairs. -/
theorem twins (planted : tree.Planted layout) {place : NodeId → NodeId}
    (again : other.Planted (layout.map place))
    (outlines : ∀ id ∈ layout.places, (other.node (place id)).outline = (tree.node id).outline) :
    tree.Twins ⟨place, (· ∈ layout.places)⟩ other := by
  have paired (id : NodeId) (member : id ∈ layout.places) :
      place id ∈ (layout.map place).places := by
    rw [layout.places_map]
    exact List.mem_map_of_mem member
  constructor
  case rooted =>
    have top := again.place
    rw [layout.place_map, planted.place] at top
    exact ⟨planted.root_mem, top⟩
  case inside => exact fun id member => ⟨planted.index_lt member, again.index_lt (paired id member)⟩
  case injective =>
    have distinct := again.nodup
    rw [layout.places_map] at distinct
    exact fun id next member memberNext same =>
      List.inj_on_of_nodup_map distinct member memberNext same
  case node =>
    intro id member
    refine Node.eq_rename_of_outline (outlines id member) ?_
    obtain ⟨part, inside, rfl⟩ := Layout.exists_within_of_mem member
    cases part with
    | node id below =>
        have children := (planted.spans.within inside).children
        have spans := again.spans.within (inside.map place)
        rw [Layout.map_node] at spans
        refine spans.children.trans ?_
        rw [Layout.place_node, ← Tree.children, children, List.map_map, List.map_map]
        exact List.map_congr_left fun child _ => child.place_map place
  case parent =>
    intro id member
    obtain ⟨part, inside, rfl⟩ := Layout.exists_within_of_mem member
    dsimp only
    rw [← part.place_map place]
    rcases planted.eq_root_or_held inside with rfl | ⟨holder, before, after, outer, link⟩
    · rw [again.place, again.unheld, planted.place, planted.unheld]
      rfl
    · have spans := again.spans.within (outer.map place)
      rw [Layout.map_node, List.map_append, List.map_cons] at spans
      rw [link, Option.map_some, spans.parent (by simp)]
  case child => exact fun id child member => planted.child_mem member
  case holder => exact fun id holder member => planted.parent_mem member

/-- Sound trees with the same expression are twins. -/
theorem exists_twins (planted : tree.Planted layout) (again : other.Planted twin)
    (same : other.exprAlong twin = tree.exprAlong layout) :
    ∃ pairing, tree.Twins pairing other := by
  obtain ⟨place, rfl, outlines⟩ := planted.exists_map again same
  exact ⟨_, planted.twins again outlines⟩

end Planted

/-! ## What is reachable -/

namespace Twins

theorem known_of_mem (twins : tree.Twins pairing other) (planted : tree.Planted layout)
    {id : NodeId} (member : id ∈ layout.places) : pairing.known id :=
  twins.known_of_reaches twins.rooted.1 (planted.reaches_iff.mpr member)

theorem spans_map (twins : tree.Twins pairing other) (spans : tree.Spans layout)
    (knows : ∀ id ∈ layout.places, pairing.known id) :
    other.Spans (layout.map pairing.place) := by
  induction spans with
  | @node id below children parents roots _ ih =>
      have inside {child : Layout} (member : child ∈ below) {inner : NodeId}
          (inChild : inner ∈ child.places) : pairing.known inner :=
        knows inner (Layout.mem_places_of_mem member inChild)
      have top {child : Layout} (member : child ∈ below) := inside member child.place_mem_places
      rw [Layout.map_node]
      refine .node ?_ ?_ ?_ ?_
      · rw [twins.children_place (knows id (Layout.place_mem_places _)), children, List.map_map,
          List.map_map]
        exact List.map_congr_left fun child _ => (child.place_map pairing.place).symm
      all_goals
        intro _ mapped
        obtain ⟨child, member, rfl⟩ := List.mem_map.mp mapped
      · rw [Layout.place_map, twins.parent _ (top member), parents child member]
        rfl
      · rw [Layout.place_map, twins.node _ (top member), Node.isRoot_rename]
        exact roots child member
      · exact ih child member fun inner inChild => inside member inChild

theorem planted_map (twins : tree.Twins pairing other) (planted : tree.Planted layout) :
    other.Planted (layout.map pairing.place) where
  place := by rw [Layout.place_map, planted.place, twins.rooted.2]
  isRoot := by
    have top := twins.node root twins.rooted.1
    rw [twins.rooted.2] at top
    rw [top, Node.isRoot_rename]
    exact planted.isRoot
  unheld := by
    have top := twins.parent root twins.rooted.1
    rw [twins.rooted.2, planted.unheld] at top
    exact top
  spans := twins.spans_map planted.spans fun _ => twins.known_of_mem planted
  nodup := by
    rw [Layout.places_map]
    exact planted.nodup.map_on fun id member next memberNext =>
      twins.injective id next (twins.known_of_mem planted member)
        (twins.known_of_mem planted memberNext)

theorem exprAlong_map (twins : tree.Twins pairing other)
    (knows : ∀ id ∈ layout.places, pairing.known id) :
    other.exprAlong (layout.map pairing.place) = tree.exprAlong layout := by
  induction layout using Layout.induction with
  | node id below ih =>
      have top := twins.node id (knows id (Layout.place_mem_places _))
      rw [Layout.map_node, exprAlong_node, exprAlong_node, top, Node.expr_rename, List.map_map]
      exact congrArg _ (List.map_congr_left fun child member => ih child member fun inner inChild =>
        knows inner (Layout.mem_places_of_mem member inChild))

end Twins

end Tree

end Juxtaposition
