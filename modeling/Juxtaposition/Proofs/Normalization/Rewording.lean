import Juxtaposition.Proofs.Normalization.Bookkeeping
import Juxtaposition.Proofs.Normalization.Standard
import Juxtaposition.Proofs.Rule.Shortcut

/-!
# Runs in other words

Two batteries whose verdicts differ in the names of rules and in the descriptions of edits alone.
Their runs take the same steps, on the same arena, and report them in these other words.
-/

set_option autoImplicit false

namespace Juxtaposition

def Rewording.Translates (rewording : Rewording) (detectors others : List Detector) : Prop :=
  ∀ options tree id, Detector.verdict others options tree id =
    (Detector.verdict detectors options tree id).reword rewording

def Event.reword (rewording : Rewording) : Event → Event
  | fired rule target description =>
      fired (rewording.rule rule) target (rewording.description rule description)
  | oversized rule node digits => oversized (rewording.rule rule) node digits
  | limitReached rule limit => limitReached (rewording.rule rule) limit
  | event => event

namespace Normalization

def Finding.reword (rewording : Rewording) (finding : Finding) : Finding where
  rule := rewording.rule finding.rule
  edit :=
    { finding.edit with
      description := rewording.description finding.rule finding.edit.description }

def Progress.reword (rewording : Rewording) (progress : Progress) : Progress :=
  { progress with log := progress.log.map (Event.reword rewording) }

def Report.reword (rewording : Rewording) (report : Report) : Report :=
  { report with log := report.log.map (Event.reword rewording) }

def rewordAnswer (rewording : Rewording) (answer : Except Failure (Option Finding) × Progress) :
    Except Failure (Option Finding) × Progress :=
  (answer.1.map (Option.map (Finding.reword rewording)), answer.2.reword rewording)

variable {rewording : Rewording} {detectors others : List Detector}

def Setting.applying (setting : Setting) (detectors : List Detector) : Setting :=
  { setting with rules := detectors.map Detector.rule }

theorem Progress.reword_report (progress : Progress) (event : Event) :
    (progress.report event).reword rewording =
      (progress.reword rewording).report (event.reword rewording) := by
  unfold report reword
  rw [List.map_append, List.map_singleton]

theorem Progress.reword_fired (progress : Progress) (rule : String) (target : NodeId)
    (description : String) :
    (progress.report (.fired rule target description)).reword rewording =
      (progress.reword rewording).report
        (.fired (rewording.rule rule) target (rewording.description rule description)) :=
  progress.reword_report _

theorem Progress.reword_skip (progress : Progress) (rule digits : String) (id : NodeId) :
    (progress.skip rule digits id).reword rewording =
      (progress.reword rewording).skip (rewording.rule rule) digits id := by
  unfold skip reword report
  rw [List.map_append]
  rfl

/-! ## Steps -/

section Steps

variable (translates : rewording.Translates detectors others) (setting : Setting)

include translates

theorem tryRules_reword (id : NodeId) (progress : Progress) :
    tryRules (setting.applying others).options id (setting.applying others).rules
        (progress.reword rewording) =
      rewordAnswer rewording (tryRules (setting.applying detectors).options id
        (setting.applying detectors).rules progress) := by
  have said : Detector.verdict others setting.options (progress.reword rewording).tree id =
      (Detector.verdict detectors setting.options progress.tree id).reword rewording :=
    translates setting.options progress.tree id
  rw [Setting.applying, Setting.applying, tryRules_eq, tryRules_eq, said]
  cases Detector.verdict detectors setting.options progress.tree id with
  | declined => rfl
  | oversized rule number =>
      exact congrArg _ (progress.reword_skip rule number.digits id).symm
  | proposed rule proposal => rfl

theorem search_reword (ids : List NodeId) (progress : Progress) :
    search (setting.applying others) ids (progress.reword rewording) =
      rewordAnswer rewording (search (setting.applying detectors) ids progress) := by
  induction ids generalizing progress with
  | nil => rfl
  | cons id rest ih =>
      have skipped : (progress.reword rewording).skipped = progress.skipped := rfl
      rw [search, search, skipped, tryRules_reword translates setting]
      split
      · exact ih progress
      · cases tryRules (setting.applying detectors).options id
          (setting.applying detectors).rules progress with
        | mk result next =>
            cases result with
            | error failure => rfl
            | ok found =>
                cases found with
                | none => exact ih next
                | some finding => rfl

theorem runPass_reword (progress : Progress) :
    runPass (setting.applying others) (progress.reword rewording) =
      rewordAnswer rewording (runPass (setting.applying detectors) progress) :=
  search_reword translates setting progress.tree.passOrder
    { progress with passes := progress.passes + 1 }

/-- The passes of the two runs end in the same way, and in the same state but for the words. -/
theorem runPasses_reword (remaining : Nat) (progress : Progress) :
    runPasses (setting.applying others) remaining (progress.reword rewording) =
      ((runPasses (setting.applying detectors) remaining progress).1,
        (runPasses (setting.applying detectors) remaining progress).2.reword rewording) := by
  induction remaining generalizing progress with
  | zero =>
      rw [runPasses, runPasses, runPass_reword translates setting]
      cases runPass (setting.applying detectors) progress with
      | mk result last =>
          cases result with
          | error failure => rfl
          | ok found =>
              cases found with
              | none => rfl
              | some finding =>
                  exact congrArg _
                    (last.reword_report (.limitReached finding.rule setting.limit)).symm
  | succ remaining ih =>
      rw [runPasses, runPasses, runPass_reword translates setting]
      cases runPass (setting.applying detectors) progress with
      | mk result last =>
          cases result with
          | error failure => rfl
          | ok found =>
              cases found with
              | none => rfl
              | some finding =>
                  dsimp only [rewordAnswer, Except.map, Option.map, Finding.reword]
                  rw [← Progress.reword_fired]
                  generalize last.report _ = fired
                  have same : (fired.reword rewording).tree = fired.tree := rfl
                  rw [same]
                  cases fired.tree.replace finding.edit.target finding.edit.replacement with
                  | error error => rfl
                  | ok tree => exact ih (fired.advance setting.permitImplicit tree)

end Steps

/-! ## Whole runs -/

theorem Report.ofEnded_reword (result : Except Failure Unit) (last : Progress) :
    ofEnded (result, last.reword rewording) = (ofEnded (result, last)).reword rewording := by
  cases result with
  | error error => rfl
  | ok _ =>
      have logs : ((last.reword rewording).report
            (.finished last.stats last.outcome.valid)).log =
          (last.report (.finished last.stats last.outcome.valid)).log.map
            (Event.reword rewording) :=
        congrArg Progress.log (last.reword_report (.finished last.stats last.outcome.valid)).symm
      exact congrArg (Report.mk (.ok last.stats) last.tree last.outcome) logs

/-- A run of the other rules has the same result, the same arena and the same outcome, and its log
in other words. -/
theorem run_reword (translates : rewording.Translates detectors others) (permitImplicit : Bool)
    (options : Options) (tree : Tree) (outcome : Outcome) :
    run (others.map Detector.rule) permitImplicit options tree outcome =
      (run (detectors.map Detector.rule) permitImplicit options tree outcome).reword rewording := by
  let setting : Setting := ⟨[], options, permitImplicit, tree.editLimit⟩
  have passes := runPasses_reword translates setting tree.editLimit
    (.start permitImplicit options tree outcome)
  rw [run_eq_ofEnded, run_eq_ofEnded]
  exact (congrArg Report.ofEnded passes).trans (Report.ofEnded_reword _ _)

/-! ## Without the shortcut -/

/-- Both runs succeed with the same counts, the same outcome and the same arena, with all that is
detached in it. The events of the second run are those of the first one in other words. -/
structure Report.Rephrased (report other : Report) (rewording : Rewording) (stats : Stats) :
    Prop where
  result : report.result = .ok stats
  again : other.result = .ok stats
  tree : other.tree = report.tree
  outcome : other.outcome = report.outcome
  log : other.log = report.log.map (Event.reword rewording)

variable {tree : Tree}

/-- On a sound tree it makes no difference, but for words in the log, whether the rule on a letter
with a digit is there. -/
theorem runStandard_rephrased (sound : tree.check = .ok ()) (permitImplicit : Bool)
    (options : Options) (outcome : Outcome) :
    ∃ stats, (runStandard permitImplicit options tree outcome).Rephrased
      (run Rule.withoutLetterDigitPair permitImplicit options tree outcome) .longhand stats := by
  obtain ⟨layout, planted⟩ := Tree.check_eq_ok_iff.mp sound
  obtain ⟨final, _, _, _, _, _, result, _⟩ :=
    exists_settled planted permitImplicit options outcome
  have translates : Rewording.longhand.Translates Detector.standard
      Detector.withoutLetterDigitPair :=
    fun options tree id => Tree.verdict_withoutLetterDigitPair tree options id
  have reworded := run_reword translates permitImplicit options tree outcome
  rw [Detector.map_rule_withoutLetterDigitPair, Detector.map_rule_standard] at reworded
  refine ⟨final.stats, result, ?_, ?_, ?_, ?_⟩
  · rw [reworded]
    exact result
  · rw [reworded]
    rfl
  · rw [reworded]
    rfl
  · rw [reworded]
    rfl

/-- The tree of `x2`. -/
def letterAndDigit : Tree :=
  ⟨#[⟨.root ⟨1⟩, none⟩, ⟨.identifier "x2", some ⟨0⟩⟩]⟩

theorem runStandard_rephrased_letterAndDigit :
    letterAndDigit.check = .ok () ∧
      (runStandard true {} letterAndDigit .fresh).log.contains
        (.fired "Letter Digit Pair" ⟨1⟩ "letter followed by a digit") = true ∧
      (run Rule.withoutLetterDigitPair true {} letterAndDigit .fresh).log.contains
        (.fired "Split Trailing Digits" ⟨1⟩ "name ends in a number") = true ∧
      ∃ stats, (runStandard true {} letterAndDigit .fresh).Rephrased
        (run Rule.withoutLetterDigitPair true {} letterAndDigit .fresh) .longhand stats := by
  have sound : letterAndDigit.check = .ok () := by decide
  exact ⟨sound, by decide +kernel, by decide +kernel, runStandard_rephrased sound true {} .fresh⟩

end Normalization

end Juxtaposition
