import Juxtaposition.Normalization.Run
import Juxtaposition.Proofs.Normalization.Step

/-!
# One pass

A pass goes through the nodes in order and stops at the first proposal. On the way it
reports the oversized numbers that were not reported before.
-/

set_option autoImplicit false

namespace Juxtaposition

namespace Normalization

variable {options : Options}

theorem tryRules_eq (options : Options) (id : NodeId) (detectors : List Detector)
    (progress : Progress) :
    tryRules options id (detectors.map Detector.rule) progress =
      match Detector.verdict detectors options progress.tree id with
      | .declined => (.ok none, progress)
      | .oversized rule number => (.ok none, progress.skip rule number.digits id)
      | .proposed rule proposal =>
          (.ok (some ⟨rule, proposal.target, (proposal.draft.store progress.tree).1,
            proposal.description⟩),
            { progress with tree := (proposal.draft.store progress.tree).2 }) := by
  induction detectors with
  | nil => rfl
  | cons detector rest ih =>
      have combined : Detector.verdict (detector :: rest) options progress.tree id =
          (Detector.verdict rest options progress.tree id).after detector.name
            (detector.detect options progress.tree id) := rfl
      rw [List.map_cons, combined]
      unfold tryRules
      simp only [Detector.rule, Rule.ofDetector]
      cases detector.detect options progress.tree id with
      | error number => rfl
      | ok found =>
          cases found with
          | none => exact ih
          | some proposal => rfl

inductive Looks (options : Options) (id : NodeId) : Progress → Progress → Prop where
  | passed {progress : Progress} : id ∈ progress.skipped → Looks options id progress progress
  | declined {progress : Progress} :
      (progress.tree.verdict options id).gist = .ok none → Looks options id progress progress
  | oversized {progress : Progress} {rule digits : String} :
      progress.tree.IsOversized options id → id ∉ progress.skipped →
      Looks options id progress (progress.skip rule digits id)

inductive Scans (options : Options) : List NodeId → Progress → Progress → Prop where
  | nil {progress : Progress} : Scans options [] progress progress
  | cons {id : NodeId} {rest : List NodeId} {progress next after : Progress} :
      Looks options id progress next → Scans options rest next after →
      Scans options (id :: rest) progress after

def foundAt (rule : String) (proposal : Proposal) (progress : Progress) :
    Except Failure (Option Finding) × Progress :=
  (.ok (some ⟨rule, proposal.target, (proposal.draft.store progress.tree).1,
    proposal.description⟩), { progress with tree := (proposal.draft.store progress.tree).2 })

structure Proposes (options : Options) (id : NodeId) (proposal : Proposal) (progress : Progress) :
    Prop where
  fresh : id ∉ progress.skipped
  proposed : (progress.tree.verdict options id).gist =
    .ok (some (proposal.target, proposal.draft))

variable {setting : Setting}

theorem tryRules_standard (options : Options) (id : NodeId) (progress : Progress) :
    tryRules options id Rule.standard progress =
      match progress.tree.verdict options id with
      | .declined => (.ok none, progress)
      | .oversized rule number => (.ok none, progress.skip rule number.digits id)
      | .proposed rule proposal => foundAt rule proposal progress := by
  rw [← Detector.map_rule_standard, tryRules_eq, ← Tree.verdict]
  rfl

/-- What a search does at one node that is not skipped is the verdict on it. -/
theorem search_cons (rules : setting.rules = Rule.standard) (id : NodeId) (rest : List NodeId)
    (progress : Progress) :
    search setting (id :: rest) progress =
      if id ∈ progress.skipped then search setting rest progress
      else
        match progress.tree.verdict setting.options id with
        | .declined => search setting rest progress
        | .oversized rule number => search setting rest (progress.skip rule number.digits id)
        | .proposed rule proposal => foundAt rule proposal progress := by
  rw [search, rules, tryRules_standard]
  cases progress.tree.verdict setting.options id <;> rfl

private theorem search_cons_cases (rules : setting.rules = Rule.standard) (id : NodeId)
    (progress : Progress) :
    (∃ next, Looks setting.options id progress next ∧
      ∀ rest, search setting (id :: rest) progress = search setting rest next) ∨
    ∃ rule proposal, Proposes setting.options id proposal progress ∧
      ∀ rest, search setting (id :: rest) progress = foundAt rule proposal progress := by
  have unfolded (rest : List NodeId) := search_cons rules id rest progress
  by_cases skipped : id ∈ progress.skipped
  · simp only [if_pos skipped] at unfolded
    exact .inl ⟨progress, .passed skipped, unfolded⟩
  · simp only [if_neg skipped] at unfolded
    cases verdict : progress.tree.verdict setting.options id with
    | declined =>
        simp only [verdict] at unfolded
        exact .inl ⟨progress, .declined (by rw [verdict]; rfl), unfolded⟩
    | oversized rule number =>
        simp only [verdict] at unfolded
        exact .inl ⟨progress.skip rule number.digits id,
          .oversized ⟨number, by rw [verdict]; rfl⟩ skipped, unfolded⟩
    | proposed rule proposal =>
        simp only [verdict] at unfolded
        exact .inr ⟨rule, proposal, ⟨skipped, by rw [verdict]; rfl⟩, unfolded⟩

/-- A search either looks at all nodes or stops at the first proposal. -/
theorem search_cases (rules : setting.rules = Rule.standard) (ids : List NodeId)
    (progress : Progress) :
    (∃ after, Scans setting.options ids progress after ∧
      search setting ids progress = (.ok none, after)) ∨
    ∃ front id back rule proposal middle, ids = front ++ id :: back ∧
      Scans setting.options front progress middle ∧
      Proposes setting.options id proposal middle ∧
      search setting ids progress = foundAt rule proposal middle := by
  induction ids generalizing progress with
  | nil => exact .inl ⟨progress, .nil, rfl⟩
  | cons id rest ih =>
      rcases search_cons_cases rules id progress with
        ⟨next, looks, unfolded⟩ | ⟨rule, proposal, proposes, unfolded⟩
      · rw [unfolded rest]
        rcases ih next with
          ⟨after, scans, found⟩ | ⟨front, later, back, rule, proposal, middle, rfl, scans, facts⟩
        · exact .inl ⟨after, .cons looks scans, found⟩
        · exact .inr ⟨id :: front, later, back, rule, proposal, middle, rfl,
            .cons looks scans, facts⟩
      · exact .inr ⟨[], id, rest, rule, proposal, progress, rfl, .nil, proposes, unfolded rest⟩

/-! ## What a pass leaves behind -/

namespace Scans

variable {ids : List NodeId} {progress after : Progress}

theorem tree_eq (scans : Scans options ids progress after) : after.tree = progress.tree := by
  induction scans with
  | nil => rfl
  | cons looks _ ih => cases looks <;> exact ih

theorem edits_eq (scans : Scans options ids progress after) : after.edits = progress.edits := by
  induction scans with
  | nil => rfl
  | cons looks _ ih => cases looks <;> exact ih

theorem passes_eq (scans : Scans options ids progress after) : after.passes = progress.passes := by
  induction scans with
  | nil => rfl
  | cons looks _ ih => cases looks <;> exact ih

theorem skipped_subset (scans : Scans options ids progress after) :
    progress.skipped ⊆ after.skipped := by
  induction scans with
  | nil => exact List.Subset.refl _
  | cons looks _ ih =>
      cases looks with
      | passed _ => exact ih
      | declined _ => exact ih
      | oversized _ _ => exact fun id member => ih (List.mem_cons_of_mem _ member)

theorem skipped_nodup (scans : Scans options ids progress after)
    (nodup : progress.skipped.Nodup) : after.skipped.Nodup := by
  induction scans with
  | nil => exact nodup
  | cons looks _ ih =>
      cases looks with
      | passed _ => exact ih nodup
      | declined _ => exact ih nodup
      | oversized _ fresh => exact ih (List.nodup_cons.mpr ⟨fresh, nodup⟩)

theorem skipped_cases (scans : Scans options ids progress after) {id : NodeId}
    (member : id ∈ after.skipped) :
    id ∈ progress.skipped ∨ id ∈ ids ∧ progress.tree.IsOversized options id := by
  induction scans with
  | nil => exact .inl member
  | cons looks _ ih =>
      cases looks with
      | passed _ => exact (ih member).imp_right fun both => ⟨List.mem_cons_of_mem _ both.1, both.2⟩
      | declined _ =>
          exact (ih member).imp_right fun both => ⟨List.mem_cons_of_mem _ both.1, both.2⟩
      | oversized oversized _ =>
          rcases ih member with earlier | ⟨later, found⟩
          · rcases List.mem_cons.mp earlier with rfl | before
            · exact .inr ⟨List.mem_cons_self, oversized⟩
            · exact .inl before
          · exact .inr ⟨List.mem_cons_of_mem _ later, found⟩

theorem skipped_or_declined (scans : Scans options ids progress after) {id : NodeId}
    (member : id ∈ ids) :
    id ∈ after.skipped ∨ (progress.tree.verdict options id).gist = .ok none := by
  induction scans with
  | nil => cases member
  | cons looks rest ih =>
      rcases List.mem_cons.mp member with rfl | later
      · cases looks with
        | passed skipped => exact .inl (rest.skipped_subset skipped)
        | declined declined => exact .inr declined
        | oversized _ _ => exact .inl (rest.skipped_subset List.mem_cons_self)
      · cases looks with
        | passed _ => exact ih later
        | declined _ => exact ih later
        | oversized _ _ => exact ih later

end Scans

end Normalization

end Juxtaposition
