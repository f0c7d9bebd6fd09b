import Juxtaposition.Tree.Node
import Mathlib.Data.List.Nodup
import Mathlib.Data.List.Perm.Basic

/-!
# Layouts

The shape of a subtree as a finite tree of places. A layout is independent of
what the arena stores at those places, so an edit of the arena is described by
the part of the layout that it exchanges.
-/

set_option autoImplicit false

namespace Juxtaposition

/-- The places of a subtree, arranged as the subtree is. -/
inductive Layout where
  | node (place : NodeId) (below : List Layout)

namespace Layout

def place : Layout → NodeId
  | node place _ => place

@[simp] theorem place_node (place : NodeId) (below : List Layout) :
    (node place below).place = place := rfl

@[elab_as_elim]
theorem induction {motive : Layout → Prop}
    (node : ∀ place below, (∀ child ∈ below, motive child) → motive (.node place below)) :
    ∀ layout, motive layout
  | .node place below => node place below fun child _ => induction node child

mutual

def fold {α : Type} (combine : NodeId → List α → α) : Layout → α
  | node place below => combine place (foldAll combine below)

def foldAll {α : Type} (combine : NodeId → List α → α) : List Layout → List α
  | [] => []
  | layout :: rest => layout.fold combine :: foldAll combine rest

end

theorem foldAll_eq_map {α : Type} (combine : NodeId → List α → α) (layouts : List Layout) :
    foldAll combine layouts = layouts.map (fold combine) := by
  induction layouts with
  | nil => rfl
  | cons layout rest ih => simp only [foldAll, ih, List.map_cons]

theorem fold_node {α : Type} (combine : NodeId → List α → α) (place : NodeId)
    (below : List Layout) :
    (node place below).fold combine = combine place (below.map (fold combine)) := by
  rw [fold, foldAll_eq_map]

def places : Layout → List NodeId :=
  fold fun place below => place :: below.flatten

@[simp] theorem places_node (place : NodeId) (below : List Layout) :
    (node place below).places = place :: below.flatMap places :=
  fold_node _ place below

def height : Layout → Nat :=
  fold fun _ heights => heights.foldr max 0 + 1

@[simp] theorem height_node (place : NodeId) (below : List Layout) :
    (node place below).height = (below.map height).foldr max 0 + 1 :=
  fold_node _ place below

def graft (layout : Layout) (target : NodeId) (replacement : Layout) : Layout :=
  layout.fold fun place below => if place = target then replacement else node place below

theorem graft_node (place : NodeId) (below : List Layout) (target : NodeId)
    (replacement : Layout) :
    (node place below).graft target replacement =
      if place = target then replacement
      else node place (below.map fun child => child.graft target replacement) :=
  fold_node _ place below

def outside (target : NodeId) : Layout → List NodeId :=
  fold fun place below => if place = target then [] else place :: below.flatten

theorem outside_node (target place : NodeId) (below : List Layout) :
    (node place below).outside target =
      if place = target then [] else place :: below.flatMap (outside target) :=
  fold_node _ place below

inductive Within (part : Layout) : Layout → Prop where
  | refl : Within part part
  | child {place : NodeId} {before after : List Layout} {child : Layout} :
      Within part child → Within part (.node place (before ++ child :: after))

theorem place_mem_places (layout : Layout) : layout.place ∈ layout.places := by
  cases layout with
  | node place below => simp

theorem eq_place_or_mem_tail {layout : Layout} {id : NodeId} (member : id ∈ layout.places) :
    id = layout.place ∨ id ∈ layout.places.tail := by
  cases layout with
  | node place below =>
      rw [places_node] at member ⊢
      exact List.mem_cons.mp member

theorem place_not_mem_tail {layout : Layout} (nodup : layout.places.Nodup) :
    layout.place ∉ layout.places.tail := by
  cases layout with
  | node place below =>
      rw [places_node] at nodup ⊢
      exact (List.nodup_cons.mp nodup).1

theorem mem_places_of_mem {place id : NodeId} {below : List Layout} {child : Layout}
    (member : child ∈ below) (inside : id ∈ child.places) : id ∈ (node place below).places := by
  rw [places_node]
  exact List.mem_cons_of_mem _ (List.mem_flatMap.mpr ⟨child, member, inside⟩)

theorem height_lt_of_mem (place : NodeId) {below : List Layout} {child : Layout}
    (member : child ∈ below) : child.height < (node place below).height := by
  rw [height_node, Nat.lt_succ_iff]
  induction below with
  | nil => cases member
  | cons first rest ih =>
      simp only [List.map_cons, List.foldr_cons]
      rcases List.mem_cons.mp member with rfl | later
      · exact Nat.le_max_left _ _
      · exact Nat.le_trans (ih later) (Nat.le_max_right _ _)

theorem height_le_length (layout : Layout) : layout.height ≤ layout.places.length := by
  induction layout using induction with
  | node place below ih =>
      simp only [height_node, places_node, List.length_cons, Nat.add_le_add_iff_right]
      induction below with
      | nil => simp
      | cons first rest step =>
          have tail := step fun child member => ih child (List.mem_cons_of_mem _ member)
          have head := ih first List.mem_cons_self
          simp only [List.map_cons, List.foldr_cons, List.flatMap_cons, List.length_append]
          omega

/-! ## Parts -/

theorem Within.of_mem {part child : Layout} {place : NodeId} {below : List Layout}
    (within : part.Within child) (member : child ∈ below) :
    part.Within (node place below) := by
  obtain ⟨before, after, rfl⟩ := List.append_of_mem member
  exact .child within

theorem Within.trans {inner part layout : Layout} (inside : inner.Within part)
    (within : part.Within layout) : inner.Within layout := by
  induction within with
  | refl => exact inside
  | child _ ih => exact .child ih

theorem sublist_flatMap_of_mem {α β : Type} (list : α → List β) {item : α} {items : List α}
    (member : item ∈ items) : (list item).Sublist (items.flatMap list) := by
  rw [List.flatMap_def]
  exact List.sublist_flatten_of_mem (List.mem_map_of_mem member)

theorem Within.isInfix {part layout : Layout} (within : part.Within layout) :
    part.places <:+: layout.places := by
  induction within with
  | refl => exact List.infix_rfl
  | @child place before after child _ ih =>
      have inner : child.places <:+: (node place (before ++ child :: after)).places :=
        ⟨place :: before.flatMap places, after.flatMap places, by simp⟩
      exact ih.trans inner

theorem Within.sublist {part layout : Layout} (within : part.Within layout) :
    part.places.Sublist layout.places :=
  within.isInfix.sublist

theorem Within.place_mem {part layout : Layout} (within : part.Within layout) :
    part.place ∈ layout.places :=
  within.sublist.subset part.place_mem_places

theorem Within.nodup {part layout : Layout} (within : part.Within layout)
    (nodup : layout.places.Nodup) : part.places.Nodup :=
  within.sublist.nodup nodup

theorem Within.eq_or_held {part layout : Layout} (within : part.Within layout) :
    part = layout ∨
      ∃ place before after, (node place (before ++ part :: after)).Within layout := by
  induction within with
  | refl => exact .inl rfl
  | child _ ih =>
      rcases ih with rfl | ⟨place, before, after, held⟩
      · exact .inr ⟨_, _, _, .refl⟩
      · exact .inr ⟨place, before, after, .child held⟩

theorem exists_within_of_mem {layout : Layout} {id : NodeId} (member : id ∈ layout.places) :
    ∃ part : Layout, part.Within layout ∧ part.place = id := by
  induction layout using induction with
  | node place below ih =>
      rw [places_node, List.mem_cons, List.mem_flatMap] at member
      rcases member with rfl | ⟨child, childMember, inChild⟩
      · exact ⟨_, .refl, rfl⟩
      · obtain ⟨part, within, same⟩ := ih child childMember inChild
        exact ⟨part, within.of_mem childMember, same⟩

theorem nodup_split {place : NodeId} {before after : List Layout} {child : Layout}
    (nodup : (node place (before ++ child :: after)).places.Nodup) :
    child.places.Nodup ∧ place ∉ child.places ∧
      (∀ sibling ∈ before, ∀ id ∈ child.places, id ∉ sibling.places) ∧
      ∀ sibling ∈ after, ∀ id ∈ child.places, id ∉ sibling.places := by
  simp only [places_node, List.flatMap_append, List.flatMap_cons, List.nodup_cons,
    List.mem_append, not_or, List.nodup_append, List.mem_flatMap, not_exists, not_and] at nodup
  obtain ⟨⟨_, notInChild, _⟩, _, ⟨childNodup, _, apartAfter⟩, apartBefore⟩ := nodup
  refine ⟨childNodup, notInChild, ?_, ?_⟩
  · intro sibling member id inChild inSibling
    exact apartBefore id ⟨sibling, member, inSibling⟩ id (.inl inChild) rfl
  · intro sibling member id inChild inSibling
    exact apartAfter id inChild id ⟨sibling, member, inSibling⟩ rfl

/-! ## Grafts -/

theorem graft_of_not_mem {target : NodeId} {layout : Layout} (replacement : Layout)
    (absent : target ∉ layout.places) : layout.graft target replacement = layout := by
  induction layout using induction with
  | node place below ih =>
      rw [places_node, List.mem_cons, List.mem_flatMap, not_or] at absent
      rw [graft_node, if_neg (Ne.symm absent.1)]
      congr 1
      refine (List.map_congr_left fun child member => ?_).trans (List.map_id _)
      exact ih child member fun inChild => absent.2 ⟨child, member, inChild⟩

theorem outside_of_not_mem {target : NodeId} {layout : Layout}
    (absent : target ∉ layout.places) : layout.outside target = layout.places := by
  induction layout using induction with
  | node place below ih =>
      rw [places_node, List.mem_cons, List.mem_flatMap, not_or] at absent
      rw [outside_node, if_neg (Ne.symm absent.1), places_node]
      congr 1
      refine List.flatMap_congr fun child member => ?_
      exact ih child member fun inChild => absent.2 ⟨child, member, inChild⟩

@[simp] theorem graft_place (layout replacement : Layout) :
    layout.graft layout.place replacement = replacement := by
  cases layout with
  | node place below => simp [graft_node]

@[simp] theorem outside_place (layout : Layout) : layout.outside layout.place = [] := by
  cases layout with
  | node place below => simp [outside_node]

theorem place_graft (layout : Layout) (target : NodeId) (replacement : Layout) :
    (layout.graft target replacement).place =
      if layout.place = target then replacement.place else layout.place := by
  cases layout with
  | node place below =>
      rw [graft_node]
      split <;> simp_all

theorem place_mem_outside {layout : Layout} {target : NodeId}
    (different : layout.place ≠ target) : layout.place ∈ layout.outside target := by
  cases layout with
  | node place below =>
      rw [outside_node, if_neg (show place ≠ target from different)]
      exact List.mem_cons_self

section Split

variable {place target : NodeId} {before after : List Layout} {child : Layout}

private theorem not_mem_siblings
    (nodup : (node place (before ++ child :: after)).places.Nodup)
    (member : target ∈ child.places) :
    place ≠ target ∧ (∀ sibling ∈ before, target ∉ sibling.places) ∧
      ∀ sibling ∈ after, target ∉ sibling.places := by
  obtain ⟨_, fresh, apartBefore, apartAfter⟩ := nodup_split nodup
  refine ⟨?_, fun sibling inBefore => apartBefore sibling inBefore target member,
    fun sibling inAfter => apartAfter sibling inAfter target member⟩
  rintro rfl
  exact fresh member

theorem graft_split (replacement : Layout)
    (nodup : (node place (before ++ child :: after)).places.Nodup)
    (member : target ∈ child.places) :
    (node place (before ++ child :: after)).graft target replacement =
      node place (before ++ child.graft target replacement :: after) := by
  obtain ⟨different, absentBefore, absentAfter⟩ := not_mem_siblings nodup member
  have untouched (siblings : List Layout) (absent : ∀ sibling ∈ siblings, target ∉ sibling.places) :
      siblings.map (fun sibling => sibling.graft target replacement) = siblings :=
    (List.map_congr_left fun sibling inside => graft_of_not_mem replacement (absent sibling inside)).trans
      (List.map_id _)
  rw [graft_node, if_neg different, List.map_append, List.map_cons, untouched before absentBefore,
    untouched after absentAfter]

theorem outside_split
    (nodup : (node place (before ++ child :: after)).places.Nodup)
    (member : target ∈ child.places) :
    (node place (before ++ child :: after)).outside target =
      place :: (before.flatMap places ++ (child.outside target ++ after.flatMap places)) := by
  obtain ⟨different, absentBefore, absentAfter⟩ := not_mem_siblings nodup member
  have untouched (siblings : List Layout) (absent : ∀ sibling ∈ siblings, target ∉ sibling.places) :
      siblings.flatMap (outside target) = siblings.flatMap places :=
    List.flatMap_congr fun sibling inside => outside_of_not_mem (absent sibling inside)
  rw [outside_node, if_neg different, List.flatMap_append, List.flatMap_cons,
    untouched before absentBefore, untouched after absentAfter]

end Split

theorem Within.places_graft {part layout : Layout} (within : part.Within layout)
    (nodup : layout.places.Nodup) (replacement : Layout) :
    (layout.graft part.place replacement).places.Perm
      (layout.outside part.place ++ replacement.places) := by
  induction within with
  | refl => simp
  | @child place before after child inside ih =>
      have member := inside.place_mem
      have step := ih (nodup_split nodup).1
      rw [graft_split replacement nodup member, outside_split nodup member, places_node,
        List.flatMap_append, List.flatMap_cons, List.cons_append]
      refine .cons _ ?_
      rw [List.append_assoc, List.append_assoc]
      refine .append_left _ ?_
      refine (step.append_right _).trans ?_
      rw [List.append_assoc]
      exact .append_left _ (List.perm_append_comm)

theorem Within.places_perm {part layout : Layout} (within : part.Within layout)
    (nodup : layout.places.Nodup) :
    layout.places.Perm (layout.outside part.place ++ part.places) := by
  have same : layout.graft part.place part = layout := by
    induction within with
    | refl => exact graft_place _ _
    | @child place before after child inside ih =>
        rw [graft_split part nodup inside.place_mem, ih (nodup_split nodup).1]
  have exchanged := within.places_graft nodup part
  rwa [same] at exchanged

end Layout

end Juxtaposition
