import Juxtaposition.Proofs.Expr.Exchange
import Juxtaposition.Proofs.Layout.Exchange
import Juxtaposition.Proofs.Normalization.Offer

/-!
# Carried out offers

What one edit of a run does to a planted tree, and runs as sequences of such edits. A node
that was neither the target of an edit nor visited for it stays in the tree, and what an edit
brings in is new.
-/

set_option autoImplicit false

namespace Juxtaposition

/-- An edit: the node that was visited, the one that gives way and its holder, what was
below it and what of that is kept, and what was built. -/
structure Change where
  visited : NodeId
  target : NodeId
  holder : NodeId
  draft : Draft
  below : List Layout
  held : List Layout
  grafted : Layout

def Layout.changed (layout : Layout) (change : Change) : Layout :=
  layout.graft change.target change.grafted

namespace Tree

/-- What the rules propose at a node of a planted tree is carried out there. -/
structure Carries (options : Options) (tree : Tree) (layout : Layout) (change : Change)
    (edited : Tree) : Prop where
  proposed : (tree.verdict options change.visited).gist = .ok (some (change.target, change.draft))
  offer : tree.Offer options layout change.visited change.target change.draft change.below
    change.held
  headed : change.target = change.visited ∨
    ∃ arguments, tree.node change.target = .call change.visited arguments
  alike : ∀ place rest arguments,
    (Layout.node place (.node change.target change.below :: rest)).Within layout →
    tree.node place = .call change.target arguments →
    Expr.CalledAlike (tree.exprAlong (.node change.target change.below))
      (change.draft.expr tree.read)
  site : tree.Site layout change.target change.holder change.below change.held
  replaced : (change.draft.store tree).2.replace change.target (change.draft.store tree).1 =
    .ok edited
  exchanged : tree.Exchanged change.target change.holder change.held edited change.grafted
  reading : edited.exprAlong change.grafted = change.draft.expr tree.read

inductive Evolves (options : Options) : Nat → Tree → Layout → Tree → Layout → Prop where
  | refl {tree : Tree} {layout : Layout} : Evolves options 0 tree layout tree layout
  | cons {count : Nat} {tree edited last : Tree} {layout final : Layout} {change : Change} :
      tree.Carries options layout change edited →
      Evolves options count edited (layout.changed change) last final →
      Evolves options (count + 1) tree layout last final

variable {tree edited last : Tree} {layout final : Layout} {options : Options} {change : Change}
  {id : NodeId}

namespace Carries

theorem planted (carried : tree.Carries options layout change edited) : tree.Planted layout :=
  carried.site.planted

theorem planted_changed (carried : tree.Carries options layout change edited) :
    edited.Planted (layout.changed change) :=
  carried.site.planted_graft carried.exchanged

theorem step (carried : tree.Carries options layout change edited) :
    Expr.Step options (tree.exprAlong layout) (edited.exprAlong (layout.changed change)) := by
  have alike := carried.alike
  rw [← carried.reading] at alike
  refine ⟨_, _, carried.offer.reduces, ?_⟩
  rw [← carried.reading]
  exact carried.planted.spans.exchanges_graft carried.planted.nodup carried.offer.inside
    (fun _ outside => (carried.site.outside_node carried.exchanged outside).2.1) alike

/-! ## Old places -/

theorem mem_cases (carried : tree.Carries options layout change edited)
    (member : id ∈ layout.places) :
    id ∈ layout.outside change.target ∨ id = change.target ∨ id = change.visited ∨
      id ∈ change.held.flatMap Layout.places := by
  have parts := (carried.offer.inside.places_perm carried.planted.nodup).mem_iff.mp member
  rcases List.mem_append.mp parts with outside | inside
  · exact .inl outside
  · exact .inr (carried.offer.dropped id inside)

theorem mem_changed_iff (carried : tree.Carries options layout change edited) :
    id ∈ (layout.changed change).places ↔
      id ∈ layout.outside change.target ∨ id ∈ change.grafted.places :=
  carried.site.mem_graft_iff

theorem mem_changed_of_held (carried : tree.Carries options layout change edited)
    (kept : id ∈ change.held.flatMap Layout.places) : id ∈ (layout.changed change).places :=
  carried.mem_changed_iff.mpr (.inr (carried.exchanged.mem_of_held id kept))

/-- An edit takes out nothing but its target and the name that was visited. -/
theorem mem_changed (carried : tree.Carries options layout change edited)
    (member : id ∈ layout.places) (notTarget : id ≠ change.target)
    (notVisited : id ≠ change.visited) : id ∈ (layout.changed change).places := by
  rcases carried.mem_cases member with outside | rfl | rfl | kept
  · exact carried.mem_changed_iff.mpr (.inl outside)
  · exact absurd rfl notTarget
  · exact absurd rfl notVisited
  · exact carried.mem_changed_of_held kept

/-- What an edit brings in is new. -/
theorem mem_or_fresh (carried : tree.Carries options layout change edited)
    (member : id ∈ (layout.changed change).places) :
    id ∈ layout.places ∨ tree.size ≤ id.index ∧ id ∈ change.grafted.places := by
  rcases carried.mem_changed_iff.mp member with outside | grafted
  · exact .inl (carried.site.mem_of_outside outside)
  · rcases carried.exchanged.mem_cases id grafted with fresh | kept
    · exact .inr ⟨fresh, grafted⟩
    · exact .inl (carried.site.mem_of_held kept)

end Carries

/-! ## Runs -/

theorem Evolves.steps {count : Nat} (evolves : Evolves options count tree layout last final) :
    Expr.Steps options count (tree.exprAlong layout) (last.exprAlong final) := by
  induction evolves with
  | refl => exact .refl
  | cons carried _ ih => exact .cons carried.step ih

theorem Evolves.planted {count : Nat} (evolves : Evolves options count tree layout last final)
    (planted : tree.Planted layout) : last.Planted final := by
  induction evolves with
  | refl => exact planted
  | cons carried _ ih => exact ih carried.planted_changed

end Tree

end Juxtaposition
