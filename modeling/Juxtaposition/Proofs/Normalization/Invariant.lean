import Juxtaposition.Normalization.Run

/-!
# What every run keeps

A run moves in three ways: it begins a pass, it tries the rules at a node, and it carries out
what they found. A property that these moves keep holds in the last state of every run, however
the run ends.
-/

set_option autoImplicit false

namespace Juxtaposition.Normalization

structure Setting.Tries (setting : Setting) (id : NodeId) (progress : Progress)
    (result : Except Failure (Option Finding)) (after : Progress) : Prop where
  fresh : id ∉ progress.skipped
  result : tryRules setting.options id setting.rules progress = (result, after)

/-- A property of the progress that no move of a run destroys. -/
structure Setting.Keeps (setting : Setting) (invariant : Progress → Prop) : Prop where
  pass : ∀ progress, invariant progress → invariant { progress with passes := progress.passes + 1 }
  tried : ∀ progress later id, setting.Tries id progress (.ok none) later →
    invariant progress → invariant later
  edit : ∀ (progress found : Progress) (id : NodeId) (rule : String) (edit : Edit) (tree : Tree),
    setting.Tries id progress (.ok (some ⟨rule, edit⟩)) found →
    found.tree.replace edit.target edit.replacement = .ok tree → invariant progress →
    invariant ((found.report (.fired rule edit.target edit.description)).advance
      setting.permitImplicit tree)

/-- How a run ends after its last move, when it may make `allowed` edits in all. A finding is
reported before it is carried out, so one that cannot be carried out is reported too. -/
inductive Ends (setting : Setting) (allowed : Nat) (last : Progress) :
    Except Failure Unit × Progress → Prop where
  | finished : Ends setting allowed last (.ok (), last)
  | exhausted {id : NodeId} {rule : String} {edit : Edit} {found : Progress} :
      setting.Tries id last (.ok (some ⟨rule, edit⟩)) found →
      last.edits = allowed →
      Ends setting allowed last (.error (.limitExceeded setting.limit),
        found.report (.limitReached rule setting.limit))
  | ruleFailed {id : NodeId} {failure : Failure} {failed : Progress} :
      setting.Tries id last (.error failure) failed →
      Ends setting allowed last (.error failure, failed)
  | editFailed {id : NodeId} {rule : String} {edit : Edit} {found : Progress}
      {error : TreeError} :
      setting.Tries id last (.ok (some ⟨rule, edit⟩)) found →
      found.tree.replace edit.target edit.replacement = .error error →
      Ends setting allowed last (.error (.tree error),
        found.report (.fired rule edit.target edit.description))

variable {setting : Setting} {invariant : Progress → Prop} {progress final : Progress}
  {options : Options} {id : NodeId} {result : Except Failure (Option Finding)}

/-! ## Tries -/

private theorem tryRules_counts (options : Options) (id : NodeId) (rules : List Rule)
    (progress : Progress) :
    (tryRules options id rules progress).2.edits = progress.edits ∧
      (tryRules options id rules progress).2.passes = progress.passes := by
  induction rules generalizing progress with
  | nil => exact ⟨rfl, rfl⟩
  | cons rule rest ih =>
      unfold tryRules
      generalize rule.apply options progress.tree id = answer
      obtain ⟨result, tree⟩ := answer
      cases result with
      | ok found =>
          cases found with
          | none => exact ih _
          | some edit => exact ⟨rfl, rfl⟩
      | error failure =>
          cases failure with
          | integerOverflow digits => exact ⟨rfl, rfl⟩
          | limitExceeded limit => exact ⟨rfl, rfl⟩
          | tree error => exact ⟨rfl, rfl⟩

private theorem tryRules_skipped (options : Options) (id : NodeId) (rules : List Rule)
    (progress : Progress) :
    progress.skipped ⊆ (tryRules options id rules progress).2.skipped := by
  induction rules generalizing progress with
  | nil => exact List.Subset.refl _
  | cons rule rest ih =>
      unfold tryRules
      generalize rule.apply options progress.tree id = answer
      obtain ⟨result, tree⟩ := answer
      cases result with
      | ok found =>
          cases found with
          | none => exact ih { progress with tree := tree }
          | some edit => exact List.Subset.refl _
      | error failure =>
          cases failure with
          | integerOverflow digits => exact List.subset_cons_self id progress.skipped
          | limitExceeded limit => exact List.Subset.refl _
          | tree error => exact List.Subset.refl _

theorem Setting.Tries.edits (tries : setting.Tries id progress result final) :
    final.edits = progress.edits := by
  have counts := (tryRules_counts setting.options id setting.rules progress).1
  rwa [tries.result] at counts

theorem Setting.Tries.passes (tries : setting.Tries id progress result final) :
    final.passes = progress.passes := by
  have counts := (tryRules_counts setting.options id setting.rules progress).2
  rwa [tries.result] at counts

theorem Setting.Tries.skipped (tries : setting.Tries id progress result final) :
    progress.skipped ⊆ final.skipped := by
  have grown := tryRules_skipped setting.options id setting.rules progress
  rwa [tries.result] at grown

/-! ## Searches -/

/-- A search goes through all nodes, or it ends at the try of one of them. -/
theorem search_ends
    (tried : ∀ progress later id, setting.Tries id progress (.ok none) later →
      invariant progress → invariant later)
    {ids : List NodeId} (searched : search setting ids progress = (result, final))
    (holds : invariant progress) :
    (result = .ok none ∧ invariant final) ∨
      ∃ last id, invariant last ∧ result ≠ .ok none ∧ setting.Tries id last result final := by
  induction ids generalizing progress with
  | nil =>
      cases searched
      exact .inl ⟨rfl, holds⟩
  | cons id rest ih =>
      unfold search at searched
      split at searched
      · exact ih searched holds
      · next fresh =>
        split at searched
        · next later declined =>
          exact ih searched (tried progress later id ⟨fresh, declined⟩ holds)
        · next stopped =>
          refine .inr ⟨progress, id, holds, ?_, fresh, searched⟩
          intro nothing
          exact stopped final (by rw [searched, nothing])

theorem search_skipped {ids : List NodeId}
    (searched : search setting ids progress = (result, final)) :
    progress.skipped ⊆ final.skipped := by
  have kept (before later : Progress) (id : NodeId)
      (tries : setting.Tries id before (.ok none) later)
      (holds : progress.skipped ⊆ before.skipped) : progress.skipped ⊆ later.skipped :=
    List.Subset.trans holds tries.skipped
  rcases search_ends kept searched (List.Subset.refl _) with
    ⟨_, holds⟩ | ⟨last, id, holds, _, tries⟩
  · exact holds
  · exact List.Subset.trans holds tries.skipped

/-- Where a search finds nothing, every node that is not skipped was tried in vain. -/
theorem exists_tried_of_search_eq_none
    (tried : ∀ progress later id, setting.Tries id progress (.ok none) later →
      invariant progress → invariant later)
    {ids : List NodeId} (searched : search setting ids progress = (.ok none, final))
    (holds : invariant progress) (member : id ∈ ids) (unskipped : id ∉ final.skipped) :
    ∃ before later, invariant before ∧ setting.Tries id before (.ok none) later ∧
      id ∉ later.skipped := by
  induction ids generalizing progress with
  | nil => cases member
  | cons first rest ih =>
      have grown := search_skipped searched
      unfold search at searched
      split at searched
      · next skipped =>
        rcases List.mem_cons.mp member with rfl | later
        · exact absurd (grown skipped) unskipped
        · exact ih searched holds later
      · next fresh =>
        split at searched
        · next later declined =>
          rcases List.mem_cons.mp member with rfl | behind
          · exact ⟨progress, later, holds, ⟨fresh, declined⟩, fun skipped =>
              unskipped (search_skipped searched skipped)⟩
          · exact ih searched (tried progress later first ⟨fresh, declined⟩ holds) behind
        · next stopped => exact absurd searched (stopped final)

/-- A pass keeps what the moves keep, and counts itself only. -/
theorem Setting.Keeps.runPass_cases (keeps : setting.Keeps invariant)
    (pass : runPass setting progress = (result, final)) (holds : invariant progress) :
    (result = .ok none ∧ invariant final ∧ final.edits = progress.edits ∧
        final.passes = progress.passes + 1) ∨
      ∃ last id, invariant last ∧ last.edits = progress.edits ∧
        last.passes = progress.passes + 1 ∧ result ≠ .ok none ∧
        setting.Tries id last result final := by
  let counted (later : Progress) : Prop :=
    invariant later ∧ later.edits = progress.edits ∧ later.passes = progress.passes + 1
  have tried (before later : Progress) (id : NodeId)
      (tries : setting.Tries id before (.ok none) later) (holds : counted before) :
      counted later :=
    ⟨keeps.tried before later id tries holds.1, tries.edits.trans holds.2.1,
      tries.passes.trans holds.2.2⟩
  rcases search_ends tried pass ⟨keeps.pass progress holds, rfl, rfl⟩ with
    ⟨nothing, kept, edits, passes⟩ | ⟨last, id, ⟨kept, edits, passes⟩, stopped, tries⟩
  · exact .inl ⟨nothing, kept, edits, passes⟩
  · exact .inr ⟨last, id, kept, edits, passes, stopped, tries⟩

/-! ## Runs -/

theorem runPasses_of_nothing (pass : runPass setting progress = (.ok none, final))
    (remaining : Nat) : runPasses setting remaining progress = (.ok (), final) := by
  unfold runPasses
  rw [pass]

theorem runPasses_of_failure {failure : Failure}
    (pass : runPass setting progress = (.error failure, final)) (remaining : Nat) :
    runPasses setting remaining progress = (.error failure, final) := by
  unfold runPasses
  rw [pass]

theorem runPasses_zero_of_finding {finding : Finding}
    (pass : runPass setting progress = (.ok (some finding), final)) :
    runPasses setting 0 progress = (.error (.limitExceeded setting.limit),
      final.report (.limitReached finding.rule setting.limit)) := by
  unfold runPasses
  rw [pass]

theorem runPasses_of_finding {rule : String} {edit : Edit} {last : Progress}
    (pass : runPass setting progress = (.ok (some ⟨rule, edit⟩), last)) (remaining : Nat) :
    runPasses setting (remaining + 1) progress =
      match last.tree.replace edit.target edit.replacement with
      | .error error =>
          (.error (.tree error), last.report (.fired rule edit.target edit.description))
      | .ok tree =>
          runPasses setting remaining ((last.report (.fired rule edit.target
            edit.description)).advance setting.permitImplicit tree) := by
  conv => lhs; unfold runPasses
  rw [pass]
  rfl

/-- A run that comes to its end has either found nothing or carried out what it found. -/
theorem runPasses_eq_ok_cases {remaining : Nat}
    (ended : runPasses setting remaining progress = (.ok (), final)) :
    runPass setting progress = (.ok none, final) ∨
      ∃ rule edit last tree fewer, remaining = fewer + 1 ∧
        runPass setting progress = (.ok (some ⟨rule, edit⟩), last) ∧
        last.tree.replace edit.target edit.replacement = .ok tree ∧
        runPasses setting fewer ((last.report (.fired rule edit.target edit.description)).advance
          setting.permitImplicit tree) = (.ok (), final) := by
  cases pass : runPass setting progress with
  | mk result last =>
      rcases result with failure | _ | ⟨rule, edit⟩
      · rw [runPasses_of_failure pass] at ended
        cases ended
      · rw [runPasses_of_nothing pass] at ended
        cases ended
        exact .inl rfl
      · cases remaining with
        | zero =>
            rw [runPasses_zero_of_finding pass] at ended
            cases ended
        | succ fewer =>
            rw [runPasses_of_finding pass] at ended
            cases replaced : last.tree.replace edit.target edit.replacement with
            | error error => rw [replaced] at ended; cases ended
            | ok tree =>
                rw [replaced] at ended
                exact .inr ⟨rule, edit, last, tree, fewer, rfl, rfl, replaced, ended⟩

/-- A pass ends the run, or it leads to an edit and the run goes on. -/
theorem Setting.Keeps.ends_or_edits (keeps : setting.Keeps invariant) (remaining : Nat)
    (holds : invariant progress) :
    (∃ last, invariant last ∧ last.edits = progress.edits ∧ last.passes = progress.passes + 1 ∧
      Ends setting (progress.edits + remaining) last (runPasses setting remaining progress)) ∨
    ∃ fewer later, remaining = fewer + 1 ∧ invariant later ∧ later.edits = progress.edits + 1 ∧
      later.passes = progress.passes + 1 ∧
      runPasses setting remaining progress = runPasses setting fewer later := by
  cases pass : runPass setting progress with
  | mk result final =>
      rcases keeps.runPass_cases pass holds with
        ⟨rfl, kept, edits, passes⟩ | ⟨last, id, kept, edits, passes, stopped, tries⟩
      · rw [runPasses_of_nothing pass]
        exact .inl ⟨final, kept, edits, passes, .finished⟩
      · rcases result with failure | _ | ⟨rule, edit⟩
        · rw [runPasses_of_failure pass]
          exact .inl ⟨last, kept, edits, passes, .ruleFailed tries⟩
        · exact absurd rfl stopped
        · cases remaining with
          | zero =>
              rw [runPasses_zero_of_finding pass]
              exact .inl ⟨last, kept, edits, passes, .exhausted tries edits⟩
          | succ fewer =>
              have onward := runPasses_of_finding pass fewer
              cases replaced : final.tree.replace edit.target edit.replacement with
              | error error =>
                  rw [onward, replaced]
                  exact .inl ⟨last, kept, edits, passes, .editFailed tries replaced⟩
              | ok tree =>
                  rw [replaced] at onward
                  exact .inr ⟨fewer, _, rfl,
                    keeps.edit last final id rule edit tree tries replaced kept,
                    congrArg (· + 1) (tries.edits.trans edits), tries.passes.trans passes, onward⟩

/-- The state before the last try of a run has every property that the moves keep. One more pass
has begun than edits were carried out. -/
theorem Setting.Keeps.runPasses (keeps : setting.Keeps invariant) (remaining : Nat)
    (holds : invariant progress) :
    ∃ last, invariant last ∧
      last.passes + progress.edits = last.edits + progress.passes + 1 ∧
      last.edits ≤ progress.edits + remaining ∧
      Ends setting (progress.edits + remaining) last (runPasses setting remaining progress) := by
  induction remaining generalizing progress with
  | zero =>
      rcases keeps.ends_or_edits 0 holds with
        ⟨last, kept, edits, passes, ends⟩ | ⟨_, _, impossible, _⟩
      · exact ⟨last, kept, by omega, by omega, ends⟩
      · cases impossible
  | succ remaining ih =>
      rcases keeps.ends_or_edits (remaining + 1) holds with
        ⟨last, kept, edits, passes, ends⟩ | ⟨fewer, later, same, kept, edits, passes, onward⟩
      · exact ⟨last, kept, by omega, by omega, ends⟩
      · obtain rfl : remaining = fewer := Nat.succ.inj same
        obtain ⟨last, held, counted, bounded, ends⟩ := ih kept
        rw [onward, show progress.edits + (remaining + 1) = later.edits + remaining by omega]
        exact ⟨last, held, by omega, by omega, ends⟩

/-- A run that comes to its end does so with a pass that finds nothing, and what the moves keep
holds before that pass. -/
theorem Setting.Keeps.exists_last_pass (keeps : setting.Keeps invariant) {remaining : Nat}
    (holds : invariant progress)
    (ended : Normalization.runPasses setting remaining progress = (.ok (), final)) :
    ∃ before, invariant before ∧ runPass setting before = (.ok none, final) := by
  induction remaining generalizing progress with
  | zero =>
      rcases runPasses_eq_ok_cases ended with pass | ⟨_, _, _, _, _, impossible, _⟩
      · exact ⟨progress, holds, pass⟩
      · cases impossible
  | succ remaining ih =>
      rcases runPasses_eq_ok_cases ended with
        pass | ⟨rule, edit, found, tree, fewer, same, pass, replaced, onward⟩
      · exact ⟨progress, holds, pass⟩
      · obtain rfl : remaining = fewer := Nat.succ.inj same
        rcases keeps.runPass_cases pass holds with
          ⟨impossible, _⟩ | ⟨last, id, kept, _, _, _, tries⟩
        · cases impossible
        · exact ih (keeps.edit last found id rule edit tree tries replaced kept) onward

/-- What the moves keep holds where a run comes to its end. -/
theorem Setting.Keeps.of_ended (keeps : setting.Keeps invariant) {remaining : Nat}
    (holds : invariant progress)
    (ended : Normalization.runPasses setting remaining progress = (.ok (), final)) :
    invariant final := by
  obtain ⟨last, kept, _, _, ends⟩ := keeps.runPasses remaining holds
  rw [ended] at ends
  cases ends
  exact kept

end Juxtaposition.Normalization
