import Juxtaposition.Proofs.Normalization.Still

/-!
# Paths through an edit

An edit changes no path between two nodes that it leaves in the tree. A path that went through
the target goes through what was built for it, and the other way round.
-/

set_option autoImplicit false

namespace Juxtaposition.Tree

variable {tree edited last : Tree} {layout final : Layout} {options : Options} {change : Change}
  {id child start : NodeId} {count : Nat}

namespace Carries

/-! ## Links at old nodes -/

/-- Only a name that heads the target, or the target itself, is visited for an edit. -/
theorem visited_cases (carried : tree.Carries options layout change edited) :
    change.visited = change.target ∨ tree.children change.visited = [] := by
  rcases tree.gist_verdict_cases options change.visited with
    ⟨name, named⟩ | ⟨callee, arguments, call⟩ | ⟨value, literal, float⟩ | declined
  · exact .inr (by rw [Tree.children, named]; rfl)
  · rcases gist_verdict_call_cases options call with declined | product
    · rw [carried.proposed] at declined
      cases declined
    · have proposed := carried.proposed
      rw [product, callGist, Except.ok.injEq, Option.some.injEq, Prod.mk.injEq] at proposed
      exact .inl proposed.1
  · exact .inr (by rw [Tree.children, float]; rfl)
  · rw [carried.proposed] at declined
    cases declined

theorem target_not_changed (carried : tree.Carries options layout change edited) :
    change.target ∉ (layout.changed change).places := by
  intro member
  rcases carried.mem_changed_iff.mp member with outside | grafted
  · exact (carried.site.not_held_of_outside outside).1 rfl
  · rcases carried.exchanged.mem_cases _ grafted with fresh | kept
    · exact Nat.not_lt_of_le fresh (carried.planted.index_lt carried.site.target_mem)
    · exact carried.site.target_not_held kept

private theorem children_of_outside (carried : tree.Carries options layout change edited)
    (outside : id ∈ layout.outside change.target) :
    edited.children id =
      Node.repointAll change.target change.grafted.place (tree.children id) :=
  (carried.site.outside_node carried.exchanged outside).1

private theorem children_of_held (carried : tree.Carries options layout change edited)
    (kept : id ∈ change.held.flatMap Layout.places) : edited.children id = tree.children id := by
  have inside := carried.planted.index_lt (carried.site.mem_of_held kept)
  rw [Tree.children, carried.exchanged.node id inside, Tree.children]
  rintro rfl
  exact (carried.site.not_held_of_outside carried.site.holder_outside).2 kept

private theorem held_child (carried : tree.Carries options layout change edited)
    (kept : id ∈ change.held.flatMap Layout.places) (step : child ∈ tree.children id) :
    child ∈ change.held.flatMap Layout.places := by
  obtain ⟨top, member, inside⟩ := List.mem_flatMap.mp kept
  have spans := carried.site.forest.spans top member
  refine List.mem_flatMap.mpr ⟨top, member, ?_⟩
  exact spans.reaches_iff.mp (.child (spans.reaches_iff.mpr inside) step)

private theorem child_of_target (carried : tree.Carries options layout change edited)
    (step : child ∈ tree.children change.target) :
    child ≠ change.target ∧ child ∉ layout.outside change.target := by
  have spans := carried.planted.spans.within carried.site.inside
  have below : child ∈ (Layout.node change.target change.below).places :=
    spans.reaches_iff.mp (.child .refl step)
  have apart := carried.site.inside.disjoint_outside carried.planted.nodup
  refine ⟨?_, fun outside => apart outside below⟩
  rintro rfl
  have link := carried.planted.spans.parent_of_mem carried.site.target_mem step
  rw [carried.site.parent, Option.some.injEq] at link
  exact apart (link ▸ carried.site.holder_outside) below

/-- What holds another node stays, or it is the target. -/
private theorem holder_cases (carried : tree.Carries options layout change edited)
    (member : id ∈ layout.places) (step : child ∈ tree.children id) :
    id ∈ layout.outside change.target ∨ id = change.target ∨
      id ∈ change.held.flatMap Layout.places := by
  rcases carried.mem_cases member with outside | target | rfl | kept
  · exact .inl outside
  · exact .inr (.inl target)
  · rcases carried.visited_cases with same | leaf
    · exact .inr (.inl same)
    · rw [leaf] at step
      cases step
  · exact .inr (.inr kept)

/-! ## Paths -/

/-- An old path leads to the same node, or to what was built where it met the target. -/
private theorem reaches_edited (carried : tree.Carries options layout change edited)
    (member : start ∈ layout.places) (stays : start ∈ (layout.changed change).places)
    (path : tree.Reaches start id) :
    (id ∈ (layout.changed change).places → edited.Reaches start id) ∧
      (id = change.target → edited.Reaches start change.grafted.place) := by
  have inside : id ∈ layout.places :=
    carried.planted.reaches_iff.mp ((carried.planted.reaches_iff.mpr member).trans path)
  induction path with
  | refl =>
      refine ⟨fun _ => .refl, ?_⟩
      rintro rfl
      exact absurd stays carried.target_not_changed
  | @child holder id path step ih =>
      have holderInside : holder ∈ layout.places :=
        carried.planted.reaches_iff.mp ((carried.planted.reaches_iff.mpr member).trans path)
      obtain ⟨direct, through⟩ := ih holderInside
      rcases carried.holder_cases holderInside step with outside | rfl | kept
      · have reached := direct (carried.mem_changed_iff.mpr (.inl outside))
        have slots := carried.children_of_outside outside
        constructor
        · intro here
          have other : id ≠ change.target := by
            rintro rfl
            exact carried.target_not_changed here
          refine .child reached ?_
          rw [slots]
          exact List.mem_map.mpr ⟨id, step, if_neg other⟩
        · rintro rfl
          refine .child reached ?_
          rw [slots]
          exact List.mem_map.mpr ⟨change.target, step, if_pos rfl⟩
      · obtain ⟨other, notOutside⟩ := carried.child_of_target step
        refine ⟨fun here => (through rfl).trans ?_, fun same => absurd same other⟩
        have grafted := (carried.mem_changed_iff.mp here).resolve_left notOutside
        exact carried.exchanged.spans.reaches_iff.mpr grafted
      · have reached := direct (carried.mem_changed_of_held kept)
        rw [← carried.children_of_held kept] at step
        refine ⟨fun _ => .child reached step, ?_⟩
        rintro rfl
        rw [carried.children_of_held kept] at step
        exact absurd (carried.held_child kept step) carried.site.target_not_held

/-- A new path leads to the same node as before, or it comes through the target's place. -/
private theorem reaches_of_edited (carried : tree.Carries options layout change edited)
    (member : start ∈ layout.places) (stays : start ∈ (layout.changed change).places)
    (path : edited.Reaches start id) :
    (id ∈ layout.places → tree.Reaches start id) ∧
      (tree.size ≤ id.index → tree.Reaches start change.target) := by
  have planted := carried.planted_changed
  induction path with
  | refl =>
      refine ⟨fun _ => .refl, fun fresh => ?_⟩
      exact absurd (carried.planted.index_lt member) (Nat.not_lt_of_le fresh)
  | @child holder id path step ih =>
      obtain ⟨direct, through⟩ := ih
      have holderInside : holder ∈ (layout.changed change).places :=
        planted.reaches_iff.mp ((planted.reaches_iff.mpr stays).trans path)
      have old (known : tree.Reaches start holder) (link : id ∈ tree.children holder) :
          (id ∈ layout.places → tree.Reaches start id) ∧
            (tree.size ≤ id.index → tree.Reaches start change.target) := by
        have here := carried.planted.reaches_iff.mp
          ((carried.planted.reaches_iff.mpr member).trans (.child known link))
        exact ⟨fun _ => .child known link,
          fun fresh => absurd (carried.planted.index_lt here) (Nat.not_lt_of_le fresh)⟩
      rcases carried.mem_changed_iff.mp holderInside with outside | grafted
      · have known := direct (carried.site.mem_of_outside outside)
        rw [carried.children_of_outside outside] at step
        obtain ⟨former, link, same⟩ := List.mem_map.mp step
        split at same
        · next replaced =>
          refine ⟨fun here => ?_, fun _ => .child known (replaced ▸ link)⟩
          rw [← same] at here
          exact absurd (carried.planted.index_lt here) (Nat.not_lt_of_le carried.exchanged.fresh)
        · subst same
          exact old known link
      · rcases carried.exchanged.mem_cases holder grafted with fresh | kept
        · refine ⟨fun here => (through fresh).trans ?_, fun _ => through fresh⟩
          have spans := carried.exchanged.spans
          have inner := spans.reaches_iff.mp (.child (spans.reaches_iff.mpr grafted) step)
          have kept := (carried.exchanged.mem_cases id inner).resolve_left
            (Nat.not_le_of_lt (carried.planted.index_lt here))
          refine (carried.planted.spans.within carried.site.inside).reaches_iff.mpr ?_
          rw [Layout.places_node]
          exact List.mem_cons_of_mem _ (carried.site.mem_below_of_held kept)
        · rw [carried.children_of_held kept] at step
          exact old (direct (carried.site.mem_of_held kept)) step

/-- Two nodes that stay are connected after an edit if and only if they were before. -/
theorem reaches_iff (carried : tree.Carries options layout change edited)
    (member : start ∈ layout.places) (stays : start ∈ (layout.changed change).places)
    (inside : id ∈ layout.places) (here : id ∈ (layout.changed change).places) :
    edited.Reaches start id ↔ tree.Reaches start id :=
  ⟨fun path => (carried.reaches_of_edited member stays path).1 inside,
    fun path => (carried.reaches_edited member stays path).1 here⟩

end Carries

/-- The paths between still nodes are the same after a whole run. -/
theorem Evolves.reaches_iff (evolves : Evolves options count tree layout last final)
    (member : start ∈ layout.places) (still : (tree.node start).IsStill options)
    (inside : id ∈ layout.places) (stillToo : (tree.node id).IsStill options) :
    last.Reaches start id ↔ tree.Reaches start id := by
  induction evolves with
  | refl => exact Iff.rfl
  | cons carried _ ih =>
      have stays := carried.mem_changed_of_isStill member still
      have here := carried.mem_changed_of_isStill inside stillToo
      exact (ih stays (carried.isStill member still) here (carried.isStill inside stillToo)).trans
        (carried.reaches_iff member stays inside here)

end Juxtaposition.Tree
