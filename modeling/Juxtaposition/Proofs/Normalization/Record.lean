import Juxtaposition.Proofs.Normalization.Invariant

/-!
# The record of a run

Whatever the rules are, a run writes down only two kinds of things: numbers that it passes
over, each for another node, and edits that it carries out. Behind each of them stands the answer
of a rule. What the run says about the answer in the end follows from them.
-/

set_option autoImplicit false

namespace Juxtaposition.Normalization

/-- The trees that a run may come to from `start`, whichever nodes it visits. A finding leads to
another tree only by being carried out. -/
inductive Setting.Reached (setting : Setting) (start : Tree) : Tree → Prop where
  | start : Setting.Reached setting start start
  | declined {rule : Rule} {id : NodeId} {tree later : Tree} :
      rule ∈ setting.rules → rule.apply setting.options tree id = (.ok none, later) →
      Setting.Reached setting start tree → Setting.Reached setting start later
  | oversized {rule : Rule} {id : NodeId} {digits : String} {tree later : Tree} :
      rule ∈ setting.rules →
      rule.apply setting.options tree id = (.error (.integerOverflow digits), later) →
      Setting.Reached setting start tree → Setting.Reached setting start later
  | edited {rule : Rule} {id : NodeId} {edit : Edit} {tree found later : Tree} :
      rule ∈ setting.rules → rule.apply setting.options tree id = (.ok (some edit), found) →
      found.replace edit.target edit.replacement = .ok later →
      Setting.Reached setting start tree → Setting.Reached setting start later

/-- What a rule of a run answers at a node of a tree that the run may come to, with the tree that
it leaves. -/
def Setting.Answered (setting : Setting) (start : Tree) (rule : Rule) (id : NodeId)
    (answer : Except Failure (Option Edit)) (after : Tree) : Prop :=
  rule ∈ setting.rules ∧ ∃ tree, setting.Reached start tree ∧
    rule.apply setting.options tree id = (answer, after)

inductive Proceeds (setting : Setting) (start : Progress) : Progress → Prop where
  | refl : Proceeds setting start start
  | pass {progress : Progress} :
      Proceeds setting start progress →
      Proceeds setting start { progress with passes := progress.passes + 1 }
  | declined {progress : Progress} {rule : Rule} {id : NodeId} {tree : Tree} :
      rule ∈ setting.rules → rule.apply setting.options progress.tree id = (.ok none, tree) →
      Proceeds setting start progress →
      Proceeds setting start { progress with tree := tree }
  | skip {progress : Progress} {rule : Rule} {id : NodeId} {digits : String} {tree : Tree} :
      rule ∈ setting.rules →
      rule.apply setting.options progress.tree id = (.error (.integerOverflow digits), tree) →
      id ∉ progress.skipped → Proceeds setting start progress →
      Proceeds setting start ({ progress with tree := tree }.skip rule.name digits id)
  | edit {progress : Progress} {rule : Rule} {id : NodeId} {edit : Edit} {found tree : Tree} :
      rule ∈ setting.rules →
      rule.apply setting.options progress.tree id = (.ok (some edit), found) →
      found.replace edit.target edit.replacement = .ok tree → Proceeds setting start progress →
      Proceeds setting start (({ progress with tree := found }.report
        (.fired rule.name edit.target edit.description)).advance setting.permitImplicit tree)

inductive Tried (setting : Setting) (start : Progress) (id : NodeId) (rules : List Rule) :
    Except Failure (Option Finding) × Progress → Prop where
  | declined {later : Progress} : Proceeds setting start later →
      (∀ rule ∈ rules, ∃ after, setting.Answered start.tree rule id (.ok none) after) →
      Tried setting start id rules (.ok none, later)
  | oversized {later : Progress} : Proceeds setting start later → id ∈ later.skipped →
      Tried setting start id rules (.ok none, later)
  | found {last : Progress} {rule : Rule} {edit : Edit} {tree : Tree} :
      Proceeds setting start last → rule ∈ setting.rules →
      rule.apply setting.options last.tree id = (.ok (some edit), tree) →
      Tried setting start id rules (.ok (some ⟨rule.name, edit⟩), { last with tree := tree })
  | failed {last : Progress} {rule : Rule} {failure : Failure} {tree : Tree} :
      Proceeds setting start last → rule ∈ setting.rules →
      rule.apply setting.options last.tree id = (.error failure, tree) →
      (∀ digits, failure ≠ .integerOverflow digits) →
      Tried setting start id rules (.error failure, { last with tree := tree })

variable {setting : Setting} {start progress final : Progress} {id : NodeId}

theorem Proceeds.reached (proceeds : Proceeds setting start progress) :
    setting.Reached start.tree progress.tree := by
  induction proceeds with
  | refl => exact .start
  | pass _ ih => exact ih
  | declined member answer _ ih => exact .declined member answer ih
  | skip member answer _ _ ih => exact .oversized member answer ih
  | edit member answer replaced _ ih => exact .edited member answer replaced ih

theorem Proceeds.answered (proceeds : Proceeds setting start progress) {rule : Rule}
    {answer : Except Failure (Option Edit)} {tree : Tree} (member : rule ∈ setting.rules)
    (applied : rule.apply setting.options progress.tree id = (answer, tree)) :
    setting.Answered start.tree rule id answer tree :=
  ⟨member, progress.tree, proceeds.reached, applied⟩

theorem Proceeds.tryRules {rules : List Rule} (proceeds : Proceeds setting start progress)
    (among : rules ⊆ setting.rules) (fresh : id ∉ progress.skipped) :
    Tried setting start id rules (tryRules setting.options id rules progress) := by
  induction rules generalizing progress with
  | nil => exact .declined proceeds (List.forall_mem_nil _)
  | cons rule rest ih =>
      have member : rule ∈ setting.rules := among List.mem_cons_self
      have later : rest ⊆ setting.rules := List.Subset.trans (List.subset_cons_self rule rest) among
      unfold Normalization.tryRules
      cases applied : rule.apply setting.options progress.tree id with
      | mk result tree =>
          rcases result with failure | _ | edit
          · cases failure with
            | integerOverflow digits =>
                exact .oversized (.skip member applied fresh proceeds) List.mem_cons_self
            | limitExceeded limit => exact .failed proceeds member applied (by simp)
            | tree error => exact .failed proceeds member applied (by simp)
          · have onward := ih (proceeds.declined member applied) later fresh
            dsimp only
            generalize Normalization.tryRules _ _ _ _ = tried at onward ⊢
            cases onward with
            | declined proceeded declined =>
                refine .declined proceeded ?_
                intro other among
                rcases List.mem_cons.mp among with rfl | behind
                · exact ⟨tree, proceeds.answered member applied⟩
                · exact declined other behind
            | oversized proceeded skipped => exact .oversized proceeded skipped
            | found proceeded member answer => exact .found proceeded member answer
            | failed proceeded member answer known => exact .failed proceeded member answer known
          · exact .found proceeds member applied

theorem Proceeds.tried (proceeds : Proceeds setting start progress)
    {result : Except Failure (Option Finding)} {after : Progress}
    (tries : setting.Tries id progress result after) :
    Tried setting start id setting.rules (result, after) := by
  rw [← tries.result]
  exact proceeds.tryRules (List.Subset.refl setting.rules) tries.fresh

/-- Whatever a run does, it proceeds. -/
theorem Proceeds.keeps (setting : Setting) (start : Progress) :
    setting.Keeps (Proceeds setting start) where
  pass _ proceeds := proceeds.pass
  tried progress later id tries proceeds := by
    cases proceeds.tried tries with
    | declined proceeded _ => exact proceeded
    | oversized proceeded _ => exact proceeded
  edit progress found id rule edit tree tries replaced proceeds := by
    cases proceeds.tried tries with
    | found proceeded member answer => exact .edit member answer replaced proceeded

/-- A run that comes to its end has only proceeded. -/
theorem Proceeds.runPasses {remaining : Nat} (proceeds : Proceeds setting start progress)
    (ended : runPasses setting remaining progress = (.ok (), final)) :
    Proceeds setting start final :=
  (Proceeds.keeps setting start).of_ended proceeds ended

/-- Before a run comes to its end it walks over its tree once more, and at every node that is not
passed over by then all rules decline. -/
theorem Proceeds.exists_walked {remaining : Nat} (proceeds : Proceeds setting start progress)
    (ended : Normalization.runPasses setting remaining progress = (.ok (), final)) :
    ∃ walked, setting.Reached start.tree walked ∧ ∀ id ∈ walked.passOrder, id ∉ final.skipped →
      ∀ rule ∈ setting.rules, ∃ after, setting.Answered start.tree rule id (.ok none) after := by
  have keeps := Proceeds.keeps setting start
  obtain ⟨before, proceeded, pass⟩ := keeps.exists_last_pass proceeds ended
  refine ⟨before.tree, proceeded.reached, ?_⟩
  intro id visited unskipped
  obtain ⟨earlier, later, held, tries, unreported⟩ :=
    exists_tried_of_search_eq_none keeps.tried pass proceeded.pass visited unskipped
  cases held.tried tries with
  | declined _ declined => exact declined
  | oversized _ skipped => exact absurd skipped unreported

/-- The answer stays valid as long as no number is passed over and no product is supplied
without permission. -/
theorem Proceeds.valid_eq (proceeds : Proceeds setting start final)
    (skipped : start.skipped = []) (edits : start.edits = 0) :
    final.outcome.valid = (start.outcome.valid && final.skipped.isEmpty &&
      (setting.permitImplicit || final.edits == 0)) := by
  induction proceeds with
  | refl => simp [skipped, edits]
  | pass _ ih => exact ih
  | declined _ _ _ ih => exact ih
  | skip _ _ _ _ _ =>
      simp [Progress.skip, Progress.report, Outcome.reject, Outcome.addNote,
        Outcome.addDiagnostic]
  | edit _ _ _ _ ih =>
      cases permitted : setting.permitImplicit with
      | true => simpa [permitted, Progress.advance, Progress.report, Outcome.addNote] using ih
      | false => simp [Progress.advance, Outcome.reject]

end Juxtaposition.Normalization
