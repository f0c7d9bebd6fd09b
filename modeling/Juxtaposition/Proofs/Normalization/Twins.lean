import Juxtaposition.Proofs.Layout.Twins
import Juxtaposition.Proofs.Normalization.Deeds
import Juxtaposition.Proofs.Normalization.Run
import Juxtaposition.Proofs.Rule.Twins

/-!
# Runs on twin trees

Two runs on twin trees stay in step: they visit paired nodes in the same order, propose and skip
the same there, and their trees are twins again after every edit. The pairing grows with every
stored node.
-/

set_option autoImplicit false

namespace Juxtaposition

namespace Tree.Twins

variable {tree other : Tree} {pairing : Pairing} {layout : Layout} {id : NodeId}

/-! ## The order of a pass -/

theorem namedCall?_place (twins : tree.Twins pairing other) (knows : pairing.known id) :
    other.namedCall? (pairing.place id) =
      (tree.namedCall? id).map (Prod.map pairing.place (List.map pairing.place)) := by
  unfold namedCall?
  rw [twins.callAt?_place knows]
  cases call : tree.callAt? id with
  | none => rfl
  | some parts =>
      obtain ⟨callee, arguments⟩ := parts
      simp only [Option.map_some, Prod.map, twins.name?_place (twins.known_of_call knows call)]
      split <;> rfl

private theorem visitTurn_place (twins : tree.Twins pairing other) (knows : pairing.known id) :
    other.visitTurn (pairing.place id) = (tree.visitTurn id).map pairing.place := by
  unfold visitTurn
  rw [twins.namedCall?_place knows]
  cases tree.namedCall? id <;> rfl

private theorem entered_place (twins : tree.Twins pairing other) (knows : pairing.known id)
    {α β : Type} (below : List α) (image : α → β) :
    other.entered (pairing.place id) (below.map image) = (tree.entered id below).map image := by
  unfold entered
  rw [twins.namedCall?_place knows, Option.isSome_map]
  split
  · rw [List.map_tail]
  · rfl

theorem turnsAlong_map (twins : tree.Twins pairing other)
    (knows : ∀ id ∈ layout.places, pairing.known id) :
    other.turnsAlong (layout.map pairing.place) = (tree.turnsAlong layout).map pairing.place := by
  induction layout using Layout.induction with
  | node id below ih =>
      have top := knows id (Layout.place_mem_places _)
      rw [Layout.map_node, turnsAlong_node, turnsAlong_node, twins.visitTurn_place top,
        twins.entered_place top, List.map_append, List.flatMap_map, List.map_flatMap]
      refine congrArg _ (List.flatMap_congr fun child entered => ?_)
      have member := entered_subset entered
      exact ih child member fun inner inChild =>
        knows inner (Layout.mem_places_of_mem member inChild)

/-- Paired nodes are visited in the same order. -/
theorem passOrder_map (twins : tree.Twins pairing other) (planted : tree.Planted layout) :
    other.passOrder = tree.passOrder.map pairing.place := by
  rw [(twins.planted_map planted).passOrder_eq, planted.passOrder_eq,
    twins.turnsAlong_map fun _ => twins.known_of_mem planted]

end Tree.Twins

namespace Normalization

/-- Two runs by the standard rules with the same options. They may differ in what they permit and
in how many edits they may make. -/
structure Setting.Alike (setting again : Setting) : Prop where
  rules : setting.rules = Rule.standard
  rulesAgain : again.rules = Rule.standard
  options : again.options = setting.options

structure InStep (pairing : Pairing) (progress other : Progress) : Prop where
  twins : progress.tree.Twins pairing other.tree
  known : ∀ id ∈ progress.skipped, pairing.known id
  skipped : other.skipped = progress.skipped.map pairing.place
  edits : other.edits = progress.edits
  passes : other.passes = progress.passes
  deeds : Deed.ofLog other.log = Deed.ofLog progress.log

inductive SameAnswer : Except Failure (Option Finding) × Progress →
    Except Failure (Option Finding) × Progress → Prop where
  | nothing {pairing : Pairing} {progress other : Progress} :
      InStep pairing progress other → SameAnswer (.ok none, progress) (.ok none, other)
  | found {pairing : Pairing} {progress other : Progress} {rule : String} {edit : Edit} :
      InStep pairing progress other → pairing.known edit.target → pairing.known edit.replacement →
      SameAnswer (.ok (some ⟨rule, edit⟩), progress)
        (.ok (some ⟨rule, pairing.place edit.target, pairing.place edit.replacement,
          edit.description⟩), other)

namespace InStep

variable {pairing : Pairing} {progress other : Progress} {setting again : Setting} {id : NodeId}
  {ids : List NodeId} {layout : Layout}

theorem mem_skipped_iff (step : InStep pairing progress other) (knows : pairing.known id) :
    pairing.place id ∈ other.skipped ↔ id ∈ progress.skipped := by
  rw [step.skipped, step.twins.mem_map_place_iff knows step.known]

theorem skip (step : InStep pairing progress other) (knows : pairing.known id)
    (rule digits : String) :
    InStep pairing (progress.skip rule digits id) (other.skip rule digits (pairing.place id)) where
  twins := step.twins
  known next member := by
    rcases List.mem_cons.mp member with rfl | earlier
    · exact knows
    · exact step.known next earlier
  skipped := congrArg (pairing.place id :: ·) step.skipped
  edits := step.edits
  passes := step.passes
  deeds := by
    change Deed.ofLog (other.log ++ _) = Deed.ofLog (progress.log ++ _)
    rw [Deed.ofLog_append, Deed.ofLog_append, step.deeds]
    rfl

/-- Storing what was proposed widens the pairing. -/
private theorem found (step : InStep pairing progress other) (rule : String) {proposal : Proposal}
    (knowsTarget : pairing.known proposal.target)
    (knows : ∀ kept ∈ proposal.draft.keeps, pairing.known kept) :
    SameAnswer (foundAt rule proposal progress)
      (foundAt rule (proposal.rename pairing.place) other) := by
  obtain ⟨later, pair⟩ := Draft.storesPair step.twins knows
  obtain ⟨known, place⟩ := pair.widens _ knowsTarget
  have stored : InStep later { progress with tree := (proposal.draft.store progress.tree).2 }
      { other with tree := ((proposal.draft.rename pairing.place).store other.tree).2 } := by
    refine ⟨pair.twins, fun id member => (pair.widens id (step.known id member)).1, ?_, step.edits,
      step.passes, step.deeds⟩
    rw [pair.widens.map_eq step.known]
    exact step.skipped
  unfold foundAt Proposal.rename
  dsimp only
  rw [← place, ← pair.place]
  exact .found stored known pair.known

theorem search (step : InStep pairing progress other) (alike : setting.Alike again)
    (knows : ∀ id ∈ ids, pairing.known id) :
    SameAnswer (search setting ids progress) (search again (ids.map pairing.place) other) := by
  induction ids generalizing progress other with
  | nil => exact .nothing step
  | cons id rest ih =>
      have here := knows id List.mem_cons_self
      have later (id : NodeId) (member : id ∈ rest) := knows id (List.mem_cons_of_mem _ member)
      rw [List.map_cons, search_cons alike.rules, search_cons alike.rulesAgain, alike.options,
        step.twins.verdict_place here]
      simp only [step.mem_skipped_iff here]
      split
      · exact ih step later
      · cases verdict : progress.tree.verdict setting.options id with
        | declined => exact ih step later
        | oversized rule number => exact ih (step.skip here rule number.digits) later
        | proposed rule proposal =>
            have proposed : (progress.tree.verdict setting.options id).gist =
                .ok (some (proposal.target, proposal.draft)) := by
              rw [verdict]
              rfl
            obtain ⟨knowsTarget, knowsKept⟩ := step.twins.known_of_proposed here proposed
            exact step.found rule knowsTarget knowsKept

theorem runPass (step : InStep pairing progress other) (alike : setting.Alike again)
    (planted : progress.tree.Planted layout) :
    SameAnswer (runPass setting progress) (runPass again other) := by
  unfold Normalization.runPass
  rw [step.twins.passOrder_map planted]
  have begun : InStep pairing { progress with passes := progress.passes + 1 }
      { other with passes := other.passes + 1 } :=
    ⟨step.twins, step.known, step.skipped, step.edits, congrArg (· + 1) step.passes, step.deeds⟩
  exact begun.search alike fun id member =>
    step.twins.known_of_mem planted (planted.mem_passOrder_iff.mp member)

theorem advance (step : InStep pairing progress other) (rule : String) {edit : Edit}
    (knowsTarget : pairing.known edit.target) (knows : pairing.known edit.replacement)
    {edited changed : Tree}
    (replaced : progress.tree.replace edit.target edit.replacement = .ok edited)
    (replacedAgain : other.tree.replace (pairing.place edit.target)
      (pairing.place edit.replacement) = .ok changed)
    (permitImplicit permitAgain : Bool) :
    InStep pairing
      ((progress.report (.fired rule edit.target edit.description)).advance permitImplicit edited)
      ((other.report (.fired rule (pairing.place edit.target) edit.description)).advance permitAgain
        changed) where
  twins := step.twins.replace knowsTarget knows replaced replacedAgain
  known := step.known
  skipped := step.skipped
  edits := congrArg (· + 1) step.edits
  passes := step.passes
  deeds := by
    change Deed.ofLog (other.log ++ _) = Deed.ofLog (progress.log ++ _)
    rw [Deed.ofLog_append, Deed.ofLog_append, step.deeds]
    rfl

/-- Two runs that come to their ends stay in step all along. -/
theorem runPasses (step : InStep pairing progress other) (alike : setting.Alike again)
    (consistent : Consistent setting.options layout progress) {remaining more : Nat}
    {final last : Progress} (ended : runPasses setting remaining progress = (.ok (), final))
    (endedAgain : Normalization.runPasses again more other = (.ok (), last)) :
    ∃ later, InStep later final last := by
  induction remaining using Nat.strong_induction_on
    generalizing progress other pairing layout more with
  | h remaining ih =>
      have answer := step.runPass alike consistent.planted
      rcases runPasses_eq_ok_cases ended with
        pass | ⟨rule, edit, middle, edited, fewer, rfl, pass, replaced, rest⟩
      · rcases runPasses_eq_ok_cases endedAgain with
          passAgain | ⟨_, _, _, _, _, _, passAgain, _, _⟩
        · rw [pass, passAgain] at answer
          cases answer with
          | nothing step => exact ⟨_, step⟩
        · rw [pass, passAgain] at answer
          cases answer
      · rcases runPasses_eq_ok_cases endedAgain with
          passAgain | ⟨_, _, middleAgain, changed, _, _, passAgain, replacedAgain, restAgain⟩
        · rw [pass, passAgain] at answer
          cases answer
        · rw [pass, passAgain] at answer
          obtain ⟨next, consistently⟩ := consistent.exists_next alike.rules pass replaced
          cases answer with
          | found step knowsTarget knows =>
              have advanced := step.advance rule knowsTarget knows replaced replacedAgain
                setting.permitImplicit again.permitImplicit
              exact ih fewer (Nat.lt_succ_self fewer) advanced (consistently _ rfl rfl) rest
                restAgain

end InStep

end Normalization

end Juxtaposition
