import Juxtaposition.Proofs.Layout.Spans
import Juxtaposition.Tree.Validity
import Mathlib.Data.List.Perm.Subperm

/-!
# Planted layouts

A tree without defects is one that spans a layout of distinct places from its
root. The layout is what the check of the links walks through, and it holds all
that is reachable.
-/

set_option autoImplicit false

namespace Juxtaposition.Tree

/-- The layout of everything reachable from the root of a sound tree. -/
structure Planted (tree : Tree) (layout : Layout) : Prop where
  place : layout.place = root
  isRoot : (tree.node root).isRoot = true
  unheld : tree.parent root = none
  spans : tree.Spans layout
  nodup : layout.places.Nodup

def read (tree : Tree) (id : NodeId) : Expr :=
  (tree.expr? id).getD (.group [])

variable {tree : Tree} {layout part : Layout}

theorem length_le_size {ids : List NodeId} (nodup : ids.Nodup)
    (inside : ∀ id ∈ ids, id.index < tree.size) : ids.length ≤ tree.size := by
  have indices : (ids.map NodeId.index).Nodup :=
    nodup.map fun _ _ same => NodeId.eq_of_index_eq same
  have bounded : ids.map NodeId.index ⊆ List.range tree.size := by
    intro index member
    obtain ⟨id, inIds, rfl⟩ := List.mem_map.mp member
    exact List.mem_range.mpr (inside id inIds)
  have shorter := (indices.subperm bounded).length_le
  rwa [List.length_map, List.length_range] at shorter

/-- Every place below the top of a layout points at its holder, so it is inside the arena. -/
theorem Spans.index_lt (spans : tree.Spans layout) (top : layout.place.index < tree.size)
    {id : NodeId} (member : id ∈ layout.places) : id.index < tree.size := by
  rcases Layout.eq_place_or_mem_tail member with rfl | inTail
  · exact top
  · obtain ⟨_, _, link⟩ := spans.exists_holder inTail
    exact index_lt_of_parent tree link

theorem Spans.expr?_place (spans : tree.Spans layout) (nodup : layout.places.Nodup)
    (top : layout.place.index < tree.size) :
    tree.expr? layout.place = some (tree.exprAlong layout) := by
  have enough : layout.height ≤ tree.size :=
    Nat.le_trans layout.height_le_length (length_le_size nodup fun _ => spans.index_lt top)
  exact spans.exprWithin?_eq enough

namespace Planted

theorem eq_root_or_held (planted : tree.Planted layout) (inside : part.Within layout) :
    part = layout ∨ ∃ place before after,
      (Layout.node place (before ++ part :: after)).Within layout ∧
        tree.parent part.place = some place := by
  rcases inside.eq_or_held with same | ⟨place, before, after, held⟩
  · exact .inl same
  · exact .inr ⟨place, before, after, held, (planted.spans.within held).parent (by simp)⟩

theorem parent_mem (planted : tree.Planted layout) {holder id : NodeId}
    (member : id ∈ layout.places)
    (link : tree.parent id = some holder) : holder ∈ layout.places := by
  obtain ⟨part, inside, rfl⟩ := Layout.exists_within_of_mem member
  rcases planted.eq_root_or_held inside with rfl | ⟨place, before, after, outer, parent⟩
  · rw [planted.place, planted.unheld] at link
    cases link
  · rw [link, Option.some.injEq] at parent
    rw [parent]
    exact outer.place_mem

theorem index_lt (planted : tree.Planted layout) {id : NodeId} (member : id ∈ layout.places) :
    id.index < tree.size := by
  refine planted.spans.index_lt ?_ member
  rw [planted.place]
  exact index_lt_of_isRoot tree planted.isRoot

theorem height_within_le (planted : tree.Planted layout) (inside : part.Within layout) :
    part.height ≤ tree.size := by
  refine Nat.le_trans part.height_le_length (length_le_size (inside.nodup planted.nodup) ?_)
  exact fun id member => planted.index_lt (inside.sublist.subset member)

theorem height_le (planted : tree.Planted layout) : layout.height ≤ tree.size :=
  planted.height_within_le .refl

theorem expr?_place (planted : tree.Planted layout) (inside : part.Within layout) :
    tree.expr? part.place = some (tree.exprAlong part) :=
  (planted.spans.within inside).expr?_place (inside.nodup planted.nodup)
    (planted.index_lt inside.place_mem)

theorem expr?_root (planted : tree.Planted layout) :
    tree.expr? root = some (tree.exprAlong layout) := by
  rw [← planted.place]
  exact planted.expr?_place .refl

theorem read_place (planted : tree.Planted layout) (inside : part.Within layout) :
    tree.read part.place = tree.exprAlong part := by
  rw [read, planted.expr?_place inside, Option.getD_some]

/-- A sound tree is a root node with a body, and reads as its body. -/
theorem exists_body (planted : tree.Planted layout) :
    ∃ body, layout = .node root [body] ∧ tree.node root = .root body.place ∧
      tree.exprAlong layout = tree.exprAlong body := by
  cases layout with
  | node id below =>
      obtain rfl : id = root := planted.place
      have children := planted.spans.children
      cases kind : tree.node root with
      | root body =>
          rw [Tree.children, kind] at children
          obtain ⟨only, rest, rfl, rfl, nothing⟩ := List.map_eq_cons_iff.mp children.symm
          obtain rfl := List.map_eq_nil_iff.mp nothing
          refine ⟨only, rfl, rfl, ?_⟩
          rw [exprAlong_node, kind]
          rfl
      | _ =>
          have isRoot := planted.isRoot
          rw [kind] at isRoot
          cases isRoot

theorem reaches_iff (planted : tree.Planted layout) {id : NodeId} :
    tree.Reaches root id ↔ id ∈ layout.places := by
  rw [← planted.place]
  exact planted.spans.reaches_iff

theorem root_mem (planted : tree.Planted layout) : root ∈ layout.places :=
  planted.reaches_iff.mp .refl

theorem child_mem (planted : tree.Planted layout) {holder id : NodeId}
    (member : holder ∈ layout.places) (child : id ∈ tree.children holder) :
    id ∈ layout.places :=
  planted.reaches_iff.mp (.child (planted.reaches_iff.mpr member) child)

end Planted

/-! ## The check of the links -/

theorem linkDefect?_eq_none {id : NodeId} :
    tree.linkDefect? id = none ↔ ∀ child ∈ tree.children id,
      tree.parent child = some id ∧ (tree.node child).isRoot = false := by
  simp only [linkDefect?, List.findSome?_eq_none_iff]
  refine forall₂_congr fun child _ => ?_
  by_cases held : tree.parent child = some id <;> simp [held]

/-- A walk that meets no defect has walked through layouts of distinct places. There are no more of
them than the arena has, so the bound is never met. -/
theorem exists_layouts_of_sound {bound : Nat} {seen pending : List NodeId}
    (enough : tree.size < seen.length + bound) (nodup : seen.Nodup)
    (seenInside : ∀ id ∈ seen, id.index < tree.size)
    (pendingInside : ∀ id ∈ pending, id.index < tree.size)
    (sound : tree.reachableDefect? bound seen pending = none) :
    ∃ layouts : List Layout, layouts.map Layout.place = pending ∧
      (∀ layout ∈ layouts, tree.Spans layout) ∧
      (seen ++ layouts.flatMap Layout.places).Nodup := by
  induction bound generalizing seen pending with
  | zero =>
      have few := length_le_size nodup seenInside
      omega
  | succ bound ih =>
      cases pending with
      | nil => exact ⟨[], rfl, by simp, by simpa using nodup⟩
      | cons id pending =>
          simp only [reachableDefect?] at sound
          split at sound
          · cases sound
          · next fresh =>
            cases links : tree.linkDefect? id with
            | some defect => simp [links] at sound
            | none =>
                simp only [links] at sound
                have held := linkDefect?_eq_none.mp links
                obtain ⟨layouts, places, spans, distinct⟩ := ih
                  (by simp only [List.length_cons]; omega)
                  (List.nodup_cons.mpr ⟨fresh, nodup⟩)
                  (by
                    intro other member
                    rcases List.mem_cons.mp member with rfl | earlier
                    · exact pendingInside other List.mem_cons_self
                    · exact seenInside other earlier)
                  (by
                    intro other member
                    rcases List.mem_append.mp member with child | later
                    · exact index_lt_of_parent tree (held other (List.mem_reverse.mp child)).1
                    · exact pendingInside other (List.mem_cons_of_mem _ later))
                  sound
                obtain ⟨below, rest, rfl, belowPlaces, restPlaces⟩ :=
                  List.map_eq_append_iff.mp places
                have top : tree.children id = below.reverse.map Layout.place := by
                  rw [List.map_reverse, belowPlaces, List.reverse_reverse]
                have inChildren {child : Layout} (member : child ∈ below.reverse) :
                    child.place ∈ tree.children id := by
                  rw [top]
                  exact List.mem_map_of_mem member
                refine ⟨.node id below.reverse :: rest, by simp [restPlaces], ?_, ?_⟩
                · intro layout member
                  rcases List.mem_cons.mp member with rfl | later
                  · exact .node top
                      (fun child inside => (held _ (inChildren inside)).1)
                      (fun child inside => (held _ (inChildren inside)).2)
                      (fun child inside => spans child
                        (List.mem_append_left _ (List.mem_reverse.mp inside)))
                  · exact spans layout (List.mem_append_right _ later)
                · refine (List.Perm.nodup_iff ?_).mp distinct
                  rw [List.cons_append, List.flatMap_append, List.flatMap_cons,
                    Layout.places_node]
                  refine List.perm_middle.symm.trans ?_
                  refine .append_left _ (.cons _ (.append_right _ ?_))
                  exact (List.reverse_perm below).symm.flatMap_right _

/-- A walk through layouts of distinct places meets no defect. -/
theorem sound_of_layouts {bound : Nat} {seen : List NodeId} {layouts : List Layout}
    (spans : ∀ layout ∈ layouts, tree.Spans layout)
    (distinct : (seen ++ layouts.flatMap Layout.places).Nodup) :
    tree.reachableDefect? bound seen (layouts.map Layout.place) = none := by
  induction bound generalizing seen layouts with
  | zero => rfl
  | succ bound ih =>
      cases layouts with
      | nil => rfl
      | cons layout rest =>
          cases layout with
          | node id below =>
              have top := spans _ List.mem_cons_self
              have shuffled : (seen ++ (Layout.node id below :: rest).flatMap Layout.places).Perm
                  (id :: seen ++ (below.reverse ++ rest).flatMap Layout.places) := by
                rw [List.flatMap_append, List.flatMap_cons, Layout.places_node]
                refine List.perm_middle.trans ?_
                refine .cons _ (.append_left _ (.append_right _ ?_))
                exact (List.reverse_perm below).symm.flatMap_right _
              have fresh : id ∉ seen := by
                have first := (shuffled.nodup_iff.mp distinct)
                rw [List.cons_append, List.nodup_cons, List.mem_append, not_or] at first
                exact first.1.1
              have links : tree.linkDefect? id = none := by
                rw [linkDefect?_eq_none, top.children]
                intro child member
                obtain ⟨inner, inBelow, rfl⟩ := List.mem_map.mp member
                exact ⟨top.parent inBelow, top.isRoot inBelow⟩
              have inner : ∀ layout ∈ below.reverse ++ rest, tree.Spans layout := by
                intro layout member
                rcases List.mem_append.mp member with child | later
                · exact top.child (List.mem_reverse.mp child)
                · exact spans layout (List.mem_cons_of_mem _ later)
              have next := ih inner (shuffled.nodup_iff.mp distinct)
              simp only [List.map_cons, Layout.place_node, reachableDefect?, if_neg fresh, links,
                top.children, ← List.map_reverse, ← List.map_append]
              exact next

/-- The check accepts exactly the trees whose reachable part has a layout. -/
theorem check_eq_ok_iff : tree.check = .ok () ↔ ∃ layout, tree.Planted layout := by
  constructor
  · intro accepted
    have sound : tree.defect? = none := by
      cases found : tree.defect? with
      | none => rfl
      | some defect => simp [check, found] at accepted
    unfold defect? at sound
    split at sound
    · cases sound
    · next isRoot =>
      split at sound
      · cases sound
      · next unheld =>
        have isRoot : (tree.node root).isRoot = true := by simpa using isRoot
        obtain ⟨layouts, places, spans, distinct⟩ := exists_layouts_of_sound
          (by simp) List.nodup_nil (by simp)
          (by
            intro id member
            rw [List.mem_singleton.mp member]
            exact index_lt_of_isRoot tree isRoot)
          sound
        obtain ⟨layout, rest, rfl, place, nothing⟩ := List.map_eq_cons_iff.mp places
        obtain rfl := List.map_eq_nil_iff.mp nothing
        exact ⟨layout, place, isRoot, by simpa using unheld, spans layout List.mem_cons_self,
          by simpa using distinct⟩
  · rintro ⟨layout, planted⟩
    have sound : tree.reachableDefect? (tree.size + 1) [] ([layout].map Layout.place) = none :=
      sound_of_layouts (by simpa using planted.spans) (by simpa using planted.nodup)
    rw [List.map_singleton, planted.place] at sound
    simp [check, defect?, planted.isRoot, planted.unheld, sound]

end Juxtaposition.Tree
