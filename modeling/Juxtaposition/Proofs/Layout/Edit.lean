import Juxtaposition.Proofs.Rule.Draft
import Juxtaposition.Proofs.Tree.Replace

/-!
# Edits of a planted tree

A draft that keeps children of its target can always be carried out. The edited
tree is planted again, on the layout with the new part in place of the old one.
-/

set_option autoImplicit false

namespace Juxtaposition

namespace Layout

theorem places_nodup_of_children {place : NodeId} {below : List Layout}
    (nodup : (node place below).places.Nodup) : (below.map Layout.place).Nodup := by
  have tops : (below.map Layout.place).Sublist (below.flatMap places) := by
    clear nodup
    induction below with
    | nil => exact List.Sublist.refl _
    | cons first rest ih =>
        rw [List.map_cons, List.flatMap_cons]
        exact (List.singleton_sublist.mpr first.place_mem_places).append ih
  rw [places_node] at nodup
  exact tops.nodup (List.nodup_cons.mp nodup).2

theorem Within.place_mem_outside {part layout : Layout} {target : NodeId}
    (within : part.Within layout) (nodup : layout.places.Nodup) (member : target ∈ part.places)
    (different : part.place ≠ target) : part.place ∈ layout.outside target := by
  induction within with
  | refl => exact Layout.place_mem_outside different
  | child inside ih =>
      rw [outside_split nodup (inside.sublist.subset member)]
      have deeper := ih (nodup_split nodup).1
      simp [deeper]

theorem Within.disjoint_outside {part layout : Layout} (within : part.Within layout)
    (nodup : layout.places.Nodup) : (layout.outside part.place).Disjoint part.places :=
  (List.nodup_append'.mp ((within.places_perm nodup).nodup_iff.mp nodup)).2.2

theorem Within.outside_subset {part layout : Layout} (within : part.Within layout)
    (nodup : layout.places.Nodup) : layout.outside part.place ⊆ layout.places :=
  fun _ member => (within.places_perm nodup).mem_iff.mpr (List.mem_append_left _ member)

end Layout

namespace Tree

variable {tree edited : Tree} {layout grafted : Layout} {target holder : NodeId}
  {below held : List Layout}

theorem Spans.outside_cases (spans : tree.Spans layout) {id : NodeId}
    (member : id ∈ layout.outside target) :
    id = layout.place ∨ ∃ holder ∈ layout.outside target, tree.parent id = some holder := by
  induction spans with
  | @node place below children parents roots _ ih =>
      rw [Layout.outside_node] at member
      split at member
      · cases member
      · next different =>
        rw [Layout.outside_node, if_neg different]
        rcases List.mem_cons.mp member with rfl | inBelow
        · exact .inl rfl
        · obtain ⟨child, childMember, inChild⟩ := List.mem_flatMap.mp inBelow
          right
          rcases ih child childMember inChild with rfl | ⟨holder, holderMember, link⟩
          · exact ⟨place, List.mem_cons_self, parents child childMember⟩
          · exact ⟨holder, List.mem_cons_of_mem _
              (List.mem_flatMap.mpr ⟨child, childMember, holderMember⟩), link⟩

/-- What an edit does to a tree. The node at `target`, which `holder` held, gives
way to `grafted`, and `held` are the layouts below it that are kept. -/
structure Exchanged (tree : Tree) (target holder : NodeId) (held : List Layout) (edited : Tree)
    (grafted : Layout) : Prop where
  node : ∀ id, id.index < tree.size → id ≠ holder → edited.node id = tree.node id
  repoints : Node.Repoints target grafted.place (tree.node holder) (edited.node holder)
  fresh : tree.size ≤ grafted.place.index
  parent : ∀ id, id.index < tree.size → id ≠ target → id ∉ held.map Layout.place →
    edited.parent id = tree.parent id
  link : edited.parent grafted.place = some holder
  spans : edited.Spans grafted
  isRoot : (edited.node grafted.place).isRoot = false
  nodup : grafted.places.Nodup
  mem_cases : ∀ id ∈ grafted.places, tree.size ≤ id.index ∨ id ∈ held.flatMap Layout.places
  mem_of_held : ∀ id ∈ held.flatMap Layout.places, id ∈ grafted.places
  heads : ∀ id callee arguments, tree.size ≤ id.index →
    edited.node id = .call callee arguments → tree.size ≤ callee.index

/-- A node inside a planted layout that is to be edited, with those of its children
that are kept. -/
structure Site (tree : Tree) (layout : Layout) (target holder : NodeId) (below held : List Layout) :
    Prop where
  planted : tree.Planted layout
  outer : ∃ before after,
    (Layout.node holder (before ++ .node target below :: after)).Within layout
  kept : held.Sublist below

theorem Planted.exists_site (planted : tree.Planted layout)
    (inside : (Layout.node target below).Within layout) (inner : (tree.node target).isRoot = false)
    (kept : held.Sublist below) : ∃ holder, tree.Site layout target holder below held := by
  rcases planted.eq_root_or_held inside with same | ⟨holder, before, after, outer, _⟩
  · have top : target = root := by rw [← planted.place, ← same, Layout.place_node]
    rw [top, planted.isRoot] at inner
    cases inner
  · exact ⟨holder, planted, ⟨before, after, outer⟩, kept⟩

namespace Site

variable {id : NodeId}

theorem inside (site : tree.Site layout target holder below held) :
    (Layout.node target below).Within layout := by
  obtain ⟨_, _, outer⟩ := site.outer
  exact (Layout.Within.child .refl).trans outer

theorem parent (site : tree.Site layout target holder below held) :
    tree.parent target = some holder := by
  obtain ⟨before, after, outer⟩ := site.outer
  have member : Layout.node target below ∈ before ++ .node target below :: after := by simp
  exact (site.planted.spans.within outer).parent member

theorem holder_outside (site : tree.Site layout target holder below held) :
    holder ∈ layout.outside target := by
  obtain ⟨before, after, outer⟩ := site.outer
  refine outer.place_mem_outside site.planted.nodup (by simp) ?_
  intro (same : holder = target)
  refine (Layout.nodup_split (outer.nodup site.planted.nodup)).2.1 ?_
  rw [same, Layout.places_node]
  exact List.mem_cons_self

theorem target_mem (site : tree.Site layout target holder below held) : target ∈ layout.places :=
  site.inside.place_mem

theorem target_ne_root (site : tree.Site layout target holder below held) : target ≠ root := by
  rintro rfl
  have unheld := site.planted.unheld
  rw [site.parent] at unheld
  cases unheld

theorem mem_below_of_held (site : tree.Site layout target holder below held)
    (member : id ∈ held.flatMap Layout.places) : id ∈ below.flatMap Layout.places := by
  obtain ⟨child, inHeld, inChild⟩ := List.mem_flatMap.mp member
  exact List.mem_flatMap.mpr ⟨child, site.kept.subset inHeld, inChild⟩

theorem mem_of_held (site : tree.Site layout target holder below held)
    (member : id ∈ held.flatMap Layout.places) : id ∈ layout.places := by
  refine site.inside.sublist.subset ?_
  rw [Layout.places_node]
  exact List.mem_cons_of_mem _ (site.mem_below_of_held member)

theorem target_not_held (site : tree.Site layout target holder below held) :
    target ∉ held.flatMap Layout.places := by
  intro member
  have nodup := site.inside.nodup site.planted.nodup
  rw [Layout.places_node] at nodup
  exact (List.nodup_cons.mp nodup).1 (site.mem_below_of_held member)

theorem not_held_of_outside (site : tree.Site layout target holder below held)
    (outside : id ∈ layout.outside target) :
    id ≠ target ∧ id ∉ held.flatMap Layout.places := by
  have apart := site.inside.disjoint_outside site.planted.nodup
  rw [Layout.place_node, Layout.places_node] at apart
  refine ⟨?_, fun member => ?_⟩
  · rintro rfl
    exact apart outside List.mem_cons_self
  · exact apart outside (List.mem_cons_of_mem _ (site.mem_below_of_held member))

theorem mem_of_outside (site : tree.Site layout target holder below held)
    (outside : id ∈ layout.outside target) : id ∈ layout.places :=
  site.inside.outside_subset site.planted.nodup outside

theorem target_mem_children (site : tree.Site layout target holder below held) :
    target ∈ tree.children holder := by
  obtain ⟨before, after, outer⟩ := site.outer
  rw [(site.planted.spans.within outer).children]
  simp

/-- A child of the target that is not kept is gone after the edit. -/
theorem child_gone (site : tree.Site layout target holder below held)
    (link : tree.parent id = some target) (dropped : id ∉ held.map Layout.place) :
    id ∉ layout.outside target ∧ id ∉ held.flatMap Layout.places := by
  constructor
  · intro outside
    rcases site.planted.spans.outside_cases outside with rfl | ⟨above, aboveOutside, aboveLink⟩
    · rw [site.planted.place, site.planted.unheld] at link
      cases link
    · rw [link, Option.some.injEq] at aboveLink
      exact (site.not_held_of_outside aboveOutside).1 aboveLink.symm
  · intro member
    obtain ⟨top, inHeld, inTop⟩ := List.mem_flatMap.mp member
    have spans := site.planted.spans.within
      (.trans (.of_mem .refl (site.kept.subset inHeld)) site.inside)
    rcases Layout.eq_place_or_mem_tail inTop with rfl | deeper
    · exact dropped (List.mem_map.mpr ⟨top, inHeld, rfl⟩)
    · obtain ⟨above, aboveIn, aboveLink⟩ := spans.exists_holder deeper
      rw [link, Option.some.injEq] at aboveLink
      exact site.target_not_held (List.mem_flatMap.mpr ⟨top, inHeld, aboveLink ▸ aboveIn⟩)

theorem not_top_of_not_held (absent : id ∉ held.flatMap Layout.places) :
    id ∉ held.map Layout.place := by
  intro member
  obtain ⟨top, inHeld, rfl⟩ := List.mem_map.mp member
  exact absent (List.mem_flatMap.mpr ⟨top, inHeld, top.place_mem_places⟩)

theorem forest (site : tree.Site layout target holder below held) : tree.Forest held where
  spans child member :=
    (site.planted.spans.within site.inside).child (site.kept.subset member)
  isRoot child member :=
    (site.planted.spans.within site.inside).isRoot (site.kept.subset member)
  index_lt child member id inside :=
    site.planted.index_lt (site.mem_of_held (List.mem_flatMap.mpr ⟨child, member, inside⟩))
  nodup := by
    have nodup := site.inside.nodup site.planted.nodup
    rw [Layout.places_node] at nodup
    have sublist : (held.flatMap Layout.places).Sublist (below.flatMap Layout.places) := by
      rw [List.flatMap_def, List.flatMap_def]
      exact (site.kept.map _).flatten
    exact sublist.nodup (List.nodup_cons.mp nodup).2

theorem exprAlong_held (site : tree.Site layout target holder below held) {child : Layout}
    (member : child ∈ held) : tree.exprAlong child = tree.read child.place :=
  (site.planted.read_place
    (.trans (.of_mem .refl (site.kept.subset member)) site.inside)).symm

theorem children_of_outside (site : tree.Site layout target holder below held)
    (outside : id ∈ layout.outside target) (other : id ≠ holder) : target ∉ tree.children id := by
  intro member
  have link := site.planted.spans.parent_of_mem (site.mem_of_outside outside) member
  rw [site.parent, Option.some.injEq] at link
  exact other link.symm

/-- The holder has one slot for the target. -/
theorem exists_repoint? (site : tree.Site layout target holder below held)
    (replacement : NodeId) :
    ∃ repointed, (tree.node holder).repoint? target replacement = some repointed ∧
      Node.Repoints target replacement (tree.node holder) repointed := by
  obtain ⟨before, after, outer⟩ := site.outer
  have children := (site.planted.spans.within outer).children
  have distinct := Layout.places_nodup_of_children (outer.nodup site.planted.nodup)
  rw [← children] at distinct
  exact Node.exists_repoint? replacement
    (show target ∈ tree.children holder by rw [children]; simp) distinct

section Built

variable {stored : Tree} {exprs : List Expr}

private theorem parent_outside (site : tree.Site layout target holder below held)
    (builds : tree.Builds held stored [grafted] exprs) (outside : id ∈ layout.outside target) :
    stored.parent id = tree.parent id :=
  builds.grows.parent id (site.planted.index_lt (site.mem_of_outside outside))
    (not_top_of_not_held (site.not_held_of_outside outside).2)

private theorem ne_of_mem (site : tree.Site layout target holder below held)
    (fresh : tree.size ≤ grafted.place.index) (member : id ∈ layout.places) :
    id ≠ grafted.place := by
  rintro rfl
  exact Nat.not_lt_of_le fresh (site.planted.index_lt member)

private theorem not_mem_lineage (site : tree.Site layout target holder below held)
    (builds : tree.Builds held stored [grafted] exprs)
    (fresh : tree.size ≤ grafted.place.index) : grafted.place ∉ stored.lineage holder := by
  intro member
  refine site.ne_of_mem fresh (site.mem_of_outside ?_) rfl
  refine lineage_closed (fun id above outside link => ?_) site.holder_outside _ member
  rw [site.parent_outside builds outside] at link
  rcases site.planted.spans.outside_cases outside with rfl | ⟨next, nextOutside, nextLink⟩
  · rw [site.planted.place, site.planted.unheld] at link
    cases link
  · rw [link, Option.some.injEq] at nextLink
    rwa [nextLink]

private theorem exists_replaced (site : tree.Site layout target holder below held)
    (builds : tree.Builds held stored [grafted] exprs) (fresh : tree.size ≤ grafted.place.index)
    (detached : stored.parent grafted.place = none) :
    ∃ edited repointed, stored.replace target grafted.place = .ok edited ∧
      Node.Repoints target grafted.place (tree.node holder) repointed ∧
      (∀ id, edited.node id = if id = holder then repointed else stored.node id) ∧
      ∀ id, edited.parent id =
        if id = target then none
        else if id = grafted.place then some holder else stored.parent id := by
  obtain ⟨repointed, repoint, repoints⟩ := site.exists_repoint? grafted.place
  have holderInside := site.planted.index_lt (site.mem_of_outside site.holder_outside)
  have targetInside := site.planted.index_lt site.target_mem
  rw [← builds.grows.node holder holderInside] at repoint
  have link : stored.parent target = some holder := by
    rw [builds.grows.parent target targetInside (not_top_of_not_held site.target_not_held),
      site.parent]
  have graftedInside : grafted.place.index < stored.size :=
    builds.forest.index_lt grafted (by simp) _ grafted.place_mem_places
  obtain ⟨edited, replaced, _, nodes, parents⟩ := exists_replace
    (site.ne_of_mem fresh site.target_mem) site.target_ne_root
    (site.ne_of_mem fresh site.planted.root_mem).symm graftedInside detached link
    (site.not_mem_lineage builds fresh) repoint
  exact ⟨edited, repointed, replaced, repoints, nodes, parents⟩

private theorem mem_grafted_cases (builds : tree.Builds held stored [grafted] exprs)
    (member : id ∈ grafted.places) :
    tree.size ≤ id.index ∨ id ∈ held.flatMap Layout.places :=
  builds.mem_cases (by simpa using member)

private theorem not_mem_grafted (site : tree.Site layout target holder below held)
    (builds : tree.Builds held stored [grafted] exprs) (member : id ∈ layout.places)
    (absent : id ∉ held.flatMap Layout.places) : id ∉ grafted.places := by
  intro inGrafted
  rcases mem_grafted_cases builds inGrafted with beyond | kept
  · exact Nat.not_lt_of_le beyond (site.planted.index_lt member)
  · exact absent kept

private theorem exchanged_of_replaced (site : tree.Site layout target holder below held)
    (builds : tree.Builds held stored [grafted] exprs) (fresh : tree.size ≤ grafted.place.index)
    {repointed : Node} (repoints : Node.Repoints target grafted.place (tree.node holder) repointed)
    (nodes : ∀ id, edited.node id = if id = holder then repointed else stored.node id)
    (parents : ∀ id, edited.parent id =
      if id = target then none
      else if id = grafted.place then some holder else stored.parent id) :
    tree.Exchanged target holder held edited grafted ∧
      [edited.exprAlong grafted] = exprs := by
  have holderMember := site.mem_of_outside site.holder_outside
  have holderApart : holder ∉ grafted.places :=
    site.not_mem_grafted builds holderMember (site.not_held_of_outside site.holder_outside).2
  have targetApart : target ∉ grafted.places :=
    site.not_mem_grafted builds site.target_mem site.target_not_held
  have other (id : NodeId) (different : id ≠ holder) : edited.node id = stored.node id := by
    rw [nodes, if_neg different]
  have inGrafted (id : NodeId) (member : id ∈ grafted.places) :
      edited.node id = stored.node id := by
    refine other id ?_
    rintro rfl
    exact holderApart member
  have distinct : grafted.places.Nodup := by simpa using builds.forest.nodup
  refine ⟨⟨?_, ?_, fresh, ?_, ?_, ?_, ?_, distinct, fun _ => mem_grafted_cases builds, ?_, ?_⟩, ?_⟩
  · intro id inside different
    rw [other id different, builds.grows.node id inside]
  · rw [nodes, if_pos rfl]
    exact repoints
  · intro id inside different absent
    have older : id ≠ grafted.place := by
      rintro rfl
      exact Nat.not_lt_of_le fresh inside
    rw [parents, if_neg different, if_neg older, builds.grows.parent id inside absent]
  · rw [parents, if_neg (site.ne_of_mem fresh site.target_mem).symm, if_pos rfl]
  · refine (builds.forest.spans grafted (by simp)).frame inGrafted fun id inTail => ?_
    rw [parents, if_neg, if_neg]
    · rintro rfl
      exact builds.forest.place_not_mem_tail (by simp) (by simp) inTail
    · rintro rfl
      exact targetApart (List.mem_of_mem_tail inTail)
  · rw [inGrafted _ grafted.place_mem_places]
    exact builds.forest.isRoot grafted (by simp)
  · intro id kept
    simpa using builds.mem_of_held kept
  · intro id callee arguments beyond call
    rw [other id] at call
    · exact builds.heads id callee arguments beyond call
    · rintro rfl
      exact Nat.not_lt_of_le beyond (site.planted.index_lt holderMember)
  · rw [← builds.reads, List.map_singleton]
    exact congrArg (fun expr => [expr]) (exprAlong_congr fun id member =>
      congrArg Node.expr (inGrafted id member))

end Built

/-- A draft that keeps exactly the kept children can be put in the place of the
target. -/
theorem exists_edit (site : tree.Site layout target holder below held) {draft : Draft}
    (isNew : draft.isNew = true) (keeps : held.map Layout.place = draft.keeps) :
    ∃ edited grafted, grafted.place = (draft.store tree).1 ∧
      (draft.store tree).2.replace target (draft.store tree).1 = .ok edited ∧
      tree.Exchanged target holder held edited grafted ∧
      edited.exprAlong grafted = draft.expr tree.read := by
  obtain ⟨grafted, place, builds⟩ :=
    Draft.store_builds site.forest keeps fun child => site.exprAlong_held
  obtain ⟨fresh, detached⟩ := Draft.store_fst_fresh isNew tree
  rw [← place] at fresh detached ⊢
  obtain ⟨edited, repointed, replaced, repoints, nodes, parents⟩ :=
    site.exists_replaced builds fresh detached
  obtain ⟨exchanged, reading⟩ := site.exchanged_of_replaced builds fresh repoints nodes parents
  exact ⟨edited, grafted, rfl, replaced, exchanged, List.singleton_inj.mp reading⟩

end Site

end Tree

end Juxtaposition
