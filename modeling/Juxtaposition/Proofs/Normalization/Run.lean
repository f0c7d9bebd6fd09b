import Juxtaposition.Proofs.Expr.EditCount
import Juxtaposition.Proofs.Normalization.Invariant
import Juxtaposition.Proofs.Normalization.Pass

/-!
# Runs

A run keeps its tree planted and skips only nodes whose numbers are too large. It ends
where no rule has a proposal, after as many edits as the expression took steps.
-/

set_option autoImplicit false

namespace Juxtaposition

namespace Normalization

variable {options : Options} {layout : Layout} {progress after : Progress}

/-- The tree is sound, and the skipped nodes are reachable ones with oversized
numbers. -/
structure Consistent (options : Options) (layout : Layout) (progress : Progress) : Prop where
  planted : progress.tree.Planted layout
  nodup : progress.skipped.Nodup
  oversized : ∀ id ∈ progress.skipped,
    id ∈ layout.places ∧ progress.tree.IsOversized options id

/-- Every node is either skipped or declined by all rules. -/
structure Settled (options : Options) (layout : Layout) (progress : Progress) : Prop where
  consistent : Consistent options layout progress
  done : ∀ id ∈ layout.places,
    id ∈ progress.skipped ∨ (progress.tree.verdict options id).gist = .ok none

theorem Scans.consistent {ids : List NodeId} (scans : Scans options ids progress after)
    (inside : ids ⊆ layout.places) (consistent : Consistent options layout progress) :
    Consistent options layout after where
  planted := by
    rw [scans.tree_eq]
    exact consistent.planted
  nodup := scans.skipped_nodup consistent.nodup
  oversized id member := by
    rw [scans.tree_eq]
    rcases scans.skipped_cases member with earlier | ⟨visited, oversized⟩
    · exact consistent.oversized id earlier
    · exact ⟨inside visited, oversized⟩

theorem Scans.quiet {ids : List NodeId} (scans : Scans options ids progress after)
    (inside : ids ⊆ layout.places) (consistent : Consistent options layout progress) :
    ∀ id ∈ ids, after.tree.Quiet options id := by
  intro id member
  rcases scans.skipped_or_declined member with skipped | declined
  · exact ((scans.consistent inside consistent).oversized id skipped).2.quiet
  · rw [scans.tree_eq]
    exact Tree.quiet_of_declined declined

theorem Consistent.exists_edit (consistent : Consistent options layout progress)
    {front back : List NodeId} {id : NodeId} {proposal : Proposal}
    (order : progress.tree.passOrder = front ++ id :: back)
    (quiet : ∀ earlier ∈ front, progress.tree.Quiet options earlier)
    (proposes : Proposes options id proposal progress) :
    ∃ change edited,
      (proposal.draft.store progress.tree).2.replace proposal.target
          (proposal.draft.store progress.tree).1 = .ok edited ∧
        progress.tree.Carries options layout change edited ∧
        ∀ later : Progress, later.tree = edited → later.skipped = progress.skipped →
          Consistent options (layout.changed change) later := by
  obtain ⟨change, edited, rfl, target, draft, carried⟩ :=
    consistent.planted.exists_carried order quiet proposes.proposed
  have replaced := carried.replaced
  rw [target, draft] at replaced
  refine ⟨change, edited, replaced, carried, ?_⟩
  rintro later rfl skipped
  refine ⟨carried.planted_changed, by rw [skipped]; exact consistent.nodup,
    fun other member => ?_⟩
  rw [skipped] at member
  obtain ⟨inside, oversized⟩ := consistent.oversized other member
  have different : other ≠ change.visited := by
    rintro rfl
    exact proposes.fresh member
  have survives := carried.survives inside different oversized.children_eq
  exact ⟨survives.member, oversized.survives survives⟩

variable {setting : Setting}

theorem Consistent.runPass_cases (rules : setting.rules = Rule.standard)
    (consistent : Consistent setting.options layout progress) :
    (∃ final, runPass setting progress = (.ok none, final) ∧ final.tree = progress.tree ∧
      final.edits = progress.edits ∧ final.passes = progress.passes + 1 ∧
      Settled setting.options layout final) ∨
    ∃ rule proposal middle change edited,
      runPass setting progress = foundAt rule proposal middle ∧
      (proposal.draft.store middle.tree).2.replace proposal.target
        (proposal.draft.store middle.tree).1 = .ok edited ∧
      middle.edits = progress.edits ∧
      progress.tree.Carries setting.options layout change edited ∧
      ∀ later : Progress, later.tree = edited → later.skipped = middle.skipped →
        Consistent setting.options (layout.changed change) later := by
  let begun : Progress := { progress with passes := progress.passes + 1 }
  have begunConsistent : Consistent setting.options layout begun :=
    ⟨consistent.planted, consistent.nodup, consistent.oversized⟩
  have inside : progress.tree.passOrder ⊆ layout.places :=
    fun id member => consistent.planted.mem_passOrder_iff.mp member
  rcases search_cases rules progress.tree.passOrder begun with
    ⟨final, scans, found⟩ | ⟨front, id, back, rule, proposal, middle, order, scans, proposes, found⟩
  · refine .inl ⟨final, found, scans.tree_eq, scans.edits_eq, scans.passes_eq,
      scans.consistent inside begunConsistent, fun id member => ?_⟩
    rw [scans.tree_eq]
    exact scans.skipped_or_declined (consistent.planted.mem_passOrder_iff.mpr member)
  · have frontInside : front ⊆ layout.places := fun id member =>
      inside (by rw [order]; exact List.mem_append_left _ member)
    have middleConsistent := scans.consistent frontInside begunConsistent
    have quiet := scans.quiet frontInside begunConsistent
    have middleTree : middle.tree = progress.tree := scans.tree_eq
    rw [← middleTree] at order
    obtain ⟨change, edited, replaced, carried, later⟩ :=
      middleConsistent.exists_edit order quiet proposes
    rw [middleTree] at carried
    exact .inr ⟨rule, proposal, middle, change, edited, found, replaced, scans.edits_eq, carried,
      later⟩

/-- What a pass finds leads to a consistent state, once it is carried out. -/
theorem Consistent.exists_next (rules : setting.rules = Rule.standard)
    (consistent : Consistent setting.options layout progress) {rule : String} {edit : Edit}
    {middle : Progress} (pass : runPass setting progress = (.ok (some ⟨rule, edit⟩), middle))
    {edited : Tree} (replaced : middle.tree.replace edit.target edit.replacement = .ok edited) :
    ∃ next, ∀ later : Progress, later.tree = edited → later.skipped = middle.skipped →
      Consistent setting.options next later := by
  rcases consistent.runPass_cases rules with
    ⟨_, ended, _⟩ | ⟨_, _, _, change, _, found, again, _, _, consistently⟩
  · rw [pass] at ended
    cases ended
  · rw [pass] at found
    cases found
    rw [replaced] at again
    cases again
    exact ⟨layout.changed change, consistently⟩

private theorem runPasses_of_found (remaining : Nat) {rule : String} {proposal : Proposal}
    {middle : Progress} {edited : Tree}
    (pass : runPass setting progress = foundAt rule proposal middle)
    (replaced : (proposal.draft.store middle.tree).2.replace proposal.target
      (proposal.draft.store middle.tree).1 = .ok edited) :
    ∃ later : Progress, later.tree = edited ∧ later.skipped = middle.skipped ∧
      later.edits = middle.edits + 1 ∧
      runPasses setting (remaining + 1) progress = runPasses setting remaining later := by
  let stored : Progress := { middle with tree := (proposal.draft.store middle.tree).2 }
  refine ⟨(stored.report (.fired rule proposal.target proposal.description)).advance
    setting.permitImplicit edited, rfl, rfl, rfl, ?_⟩
  rw [runPasses_of_finding pass]
  dsimp only
  rw [replaced]

/-- A run with enough edits left ends where nothing is left to propose, because every finding that
is carried out lowers the number of edits that the expression still takes by one. -/
theorem Consistent.runPasses_settled (rules : setting.rules = Rule.standard)
    {remaining : Nat} (consistent : Consistent setting.options layout progress)
    (enough : (progress.tree.exprAlong layout).editCount setting.options ≤ remaining) :
    ∃ final next count, runPasses setting remaining progress = (.ok (), final) ∧
      Settled setting.options next final ∧
      Tree.Evolves setting.options count progress.tree layout final.tree next ∧
      final.edits = progress.edits + count := by
  induction remaining generalizing progress layout with
  | zero =>
      rcases consistent.runPass_cases rules with
        ⟨final, pass, tree, edits, _, settled⟩ | ⟨_, _, _, _, _, _, _, _, carried, _⟩
      · refine ⟨final, layout, 0, runPasses_of_nothing pass _, settled, ?_, edits⟩
        rw [tree]
        exact .refl
      · rw [carried.step.editCount_eq] at enough
        cases enough
  | succ remaining ih =>
      rcases consistent.runPass_cases rules with ⟨final, pass, tree, edits, _, settled⟩ |
        ⟨rule, proposal, middle, change, edited, pass, replaced, edits, carried, consistently⟩
      · refine ⟨final, layout, 0, runPasses_of_nothing pass _, settled, ?_, edits⟩
        rw [tree]
        exact .refl
      · obtain ⟨later, rfl, skipped, counted, unfolded⟩ :=
          runPasses_of_found remaining pass replaced
        have fewer := carried.step.editCount_eq
        obtain ⟨final, last, count, result, settled, evolves, total⟩ :=
          ih (consistently later rfl skipped) (by omega)
        refine ⟨final, last, count + 1, unfolded.trans result, settled, .cons carried evolves, ?_⟩
        omega

end Normalization

end Juxtaposition
