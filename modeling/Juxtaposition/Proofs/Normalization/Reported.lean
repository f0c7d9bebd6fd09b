import Juxtaposition.Proofs.Expr.Runs
import Juxtaposition.Proofs.Normalization.Settled
import Juxtaposition.Proofs.Tree.KeptLeaves

/-!
# Reported numbers

The nodes that a run skips are those at which the expression has an oversized run of digits,
each of them once.
-/

set_option autoImplicit false

namespace Juxtaposition

/-! ## Runs at a node -/

def Leaf.text? : Leaf → Option String
  | name text => some text
  | integer _ => none
  | float _ literal => literal

namespace Tree

variable {tree later : Tree} {options : Options} {id : NodeId}

/-- The run that a node is reported for. It is the same wherever its leaf stands. -/
structure ReportedFor (tree : Tree) (options : Options) (id : NodeId) (run : OversizedRun) :
    Prop where
  text : (tree.node id).leaf?.bind Leaf.text? = some run.text
  alone : ∀ leaf, (tree.node id).leaf? = some leaf →
    (PlacedLeaf.mk leaf false).runs options = [run]
  here : tree.runsAt options id = [run]

/-- A reported leaf that an earlier state of the arena has place for was there already. -/
theorem ReportedFor.node_eq {run : OversizedRun} (reported : later.ReportedFor options id run)
    (keeps : tree.KeepsLeaves later) (inside : id.index < tree.size) :
    later.node id = tree.node id := by
  have text := reported.text
  cases found : (later.node id).leaf? with
  | none => rw [found] at text; cases text
  | some leaf =>
      have earlier := keeps.leaf id inside
      rw [found] at earlier
      rw [Node.leaf?_eq_some_iff.mp found, Node.leaf?_eq_some_iff.mp earlier.symm]

theorem runsAt_of_leaf {leaf : Leaf} (found : (tree.node id).leaf? = some leaf) :
    tree.runsAt options id = (PlacedLeaf.mk leaf (tree.isCallee id)).runs options := by
  rw [runsAt, placedLeaf?, found, Option.map_some, Option.toList_some, List.flatMap_singleton]

private theorem reportedFor_of_leaf (leaf : Leaf) {run : OversizedRun}
    (same : tree.node id = leaf.node) (text : leaf.text? = some run.text)
    (alone : (PlacedLeaf.mk leaf false).runs options = [run])
    (here : (PlacedLeaf.mk leaf (tree.isCallee id)).runs options = [run]) :
    tree.ReportedFor options id run := by
  have found := Node.leaf?_eq_some_iff.mpr same
  constructor
  · rw [found]
    exact text
  · intro other again
    rw [found] at again
    cases again
    exact alone
  · rw [runsAt_of_leaf found]
    exact here

private theorem reportedFor_name {name : String} {number : Oversized}
    (named : tree.node id = .identifier name)
    (split : options.split (tree.isCallee id) name = .oversized number) :
    tree.ReportedFor options id ⟨name, number.digits⟩ := by
  have runs {isCallee : Bool} (same : options.split isCallee name = .oversized number) :
      options.nameRuns isCallee name = [⟨name, number.digits⟩] := by
    rw [Options.nameRuns_of_isKept (by rw [same]; rfl), same]
    rfl
  have asValue : options.split false name = .oversized number := by
    cases called : tree.isCallee id with
    | false => rwa [called] at split
    | true => rw [called] at split; exact Options.split_value_oversized split
  exact reportedFor_of_leaf (.name name) named rfl (runs asValue) (runs split)

private theorem reportedFor_float {value : Binary64} {text : String} {parts : ExponentLiteral}
    {number : Oversized} (float : tree.node id = .float value (some text))
    (lenient : options.strictSyntax = false) (found : ExponentLiteral.ofText? text = some parts)
    (failed : parts.draft = .error number) :
    tree.ReportedFor options id ⟨text, number.digits⟩ := by
  have runs : options.literalRuns (some text) = [⟨text, number.digits⟩] := by
    rw [Options.literalRuns_of_splits lenient (ExponentLiteral.splits_of_ofText? found),
      ExponentLiteral.oversizedDigits?_of_draft_error failed]
    rfl
  exact reportedFor_of_leaf (.float value (some text)) float rfl runs runs

/-- Where the rules find a number too large, a run of its digits is found in the text. -/
theorem exists_reportedFor {number : Oversized}
    (judged : (tree.verdict options id).gist = .error number) :
    ∃ run, tree.ReportedFor options id run ∧ run.digits = number.digits := by
  rcases tree.gist_verdict_cases options id with
    ⟨name, named⟩ | ⟨callee, arguments, call⟩ | ⟨value, literal, float⟩ | declined
  · have oversized : tree.IsOversized options id := ⟨number, judged⟩
    obtain ⟨found, split⟩ := oversized.split_eq named
    rw [gist_verdict_name named, split] at judged
    cases judged
    exact ⟨_, reportedFor_name named split, rfl⟩
  · exact absurd judged (gist_verdict_call_ne_error call)
  · rw [gist_verdict_float float] at judged
    rcases literalGist_cases options id literal with
      ⟨silent, _⟩ | ⟨text, parts, rfl, lenient, found, split⟩
    · rw [silent] at judged
      cases judged
    · rw [split] at judged
      cases drafted : parts.draft with
      | ok draft => rw [drafted] at judged; cases judged
      | error other =>
          rw [drafted] at judged
          cases judged
          exact ⟨_, reportedFor_float float lenient found drafted, rfl⟩
  · rw [judged] at declined
    cases declined

theorem runsAt_of_declined (declined : (tree.verdict options id).gist = .ok none) :
    tree.runsAt options id = [] := by
  cases found : (tree.node id).leaf? with
  | none => rw [runsAt, placedLeaf?, found]; rfl
  | some leaf =>
      rw [runsAt_of_leaf found]
      rw [Node.leaf?_eq_some_iff] at found
      cases leaf with
      | integer value => rfl
      | name name =>
          rw [gist_verdict_name found] at declined
          cases split : options.split (tree.isCallee id) name with
          | whole => exact Options.nameRuns_of_whole split
          | _ => rw [split] at declined; cases declined
      | float value literal =>
          rw [gist_verdict_float found] at declined
          change options.literalRuns literal = []
          rcases literalGist_cases options id literal with
            ⟨_, kept⟩ | ⟨text, parts, rfl, lenient, marked, split⟩
          · cases literal with
            | none => rfl
            | some text =>
                exact Options.literalRuns_of_kept
                  (kept.imp_right ExponentLiteral.ofText?_eq_none_iff.mp)
          · rw [split] at declined
            cases drafted : parts.draft with
            | ok draft => rw [drafted] at declined; cases declined
            | error number => rw [drafted] at declined; cases declined

end Tree

/-! ## Skipped nodes -/

namespace Normalization.Settled

variable {options : Options} {layout : Layout} {progress : Progress} {id : NodeId}

private theorem flatMap_filter_nonempty (runs : NodeId → List OversizedRun)
    (ids : List NodeId) :
    (ids.filter fun id => !(runs id).isEmpty).flatMap runs = ids.flatMap runs := by
  induction ids with
  | nil => rfl
  | cons id rest ih =>
      rw [List.filter_cons, List.flatMap_cons]
      cases here : runs id with
      | nil => simpa using ih
      | cons run more => simp [here, ih]

theorem exists_reportedFor (settled : Settled options layout progress)
    (member : id ∈ progress.skipped) : ∃ run, progress.tree.ReportedFor options id run := by
  obtain ⟨_, number, judged⟩ := settled.mem_skipped_iff.mp member
  obtain ⟨run, reported, _⟩ := Tree.exists_reportedFor judged
  exact ⟨run, reported⟩

/-- The oversized runs at skipped nodes are all that the expression has. -/
theorem skipped_runs (settled : Settled options layout progress) :
    (progress.skipped.flatMap (progress.tree.runsAt options)).Perm
      ((progress.tree.exprAlong layout).oversizedRuns options) := by
  have planted := settled.consistent.planted
  have shuffled : progress.skipped.Perm
      (layout.places.filter fun id => !(progress.tree.runsAt options id).isEmpty) := by
    rw [List.perm_ext_iff_of_nodup settled.consistent.nodup (planted.nodup.filter _)]
    intro id
    rw [List.mem_filter]
    constructor
    · intro member
      obtain ⟨run, reported⟩ := settled.exists_reportedFor member
      exact ⟨(settled.mem_skipped_iff.mp member).1, by simp [reported.here]⟩
    · rintro ⟨inside, nonempty⟩
      rcases settled.done id inside with skipped | declined
      · exact skipped
      · rw [Tree.runsAt_of_declined declined] at nonempty
        cases nonempty
  rw [planted.oversizedRuns_exprAlong,
    ← flatMap_filter_nonempty (progress.tree.runsAt options) layout.places]
  exact shuffled.flatMap_right _

/-- A settled run has skipped as many nodes as the expression has oversized runs. -/
theorem skipped_length (settled : Settled options layout progress) :
    progress.skipped.length =
      ((progress.tree.exprAlong layout).oversizedRuns options).length := by
  have single : (progress.skipped.map fun id => (progress.tree.runsAt options id).length) =
      progress.skipped.map fun _ => 1 := by
    apply List.map_congr_left
    intro id member
    obtain ⟨run, reported⟩ := settled.exists_reportedFor member
    simp [reported.here]
  rw [← settled.skipped_runs.length_eq, List.length_flatMap, single]
  simp

end Normalization.Settled

end Juxtaposition
