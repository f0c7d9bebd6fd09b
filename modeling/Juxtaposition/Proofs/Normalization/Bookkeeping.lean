import Juxtaposition.Proofs.Normalization.Record
import Juxtaposition.Proofs.Normalization.Standard
import Mathlib.Data.List.Nodup

/-!
# The books of a run

A run of any battery writes down one entry for every edit that it carries out and one for every
number that it passes over. Notes, diagnostics, counts, verdict and log all follow from the
entries, in their order, and every entry follows from what a rule answered.
-/

set_option autoImplicit false

namespace Juxtaposition

namespace Normalization

/-- What a run writes down: an edit that it carried out, or a node that it passes over because
of its digits. -/
inductive Entry where
  | edited (rule : String) (target : NodeId) (description : String)
  | skipped (rule : String) (node : NodeId) (digits : String)

namespace Entry

def note : Entry → Note
  | edited _ _ _ => .missingStars
  | skipped _ _ _ => .integerOverflow

def event : Entry → Event
  | edited rule target description => .fired rule target description
  | skipped rule node digits => .oversized rule node digits

def number? : Entry → Option (NodeId × String)
  | edited _ _ _ => none
  | skipped _ node digits => some (node, digits)

def numbers (entries : List Entry) : List (NodeId × String) :=
  entries.filterMap number?

theorem count_integerOverflow (entries : List Entry) :
    (entries.map note).count .integerOverflow = (numbers entries).length := by
  induction entries with
  | nil => rfl
  | cons entry rest ih =>
      cases entry with
      | edited rule target description =>
          simpa [numbers, note, number?, List.filterMap_cons] using ih
      | skipped rule node digits => simpa [numbers, note, number?] using ih

end Entry

structure Recorded (start progress : Progress) (entries : List Entry) : Prop where
  log : progress.log = start.log ++ entries.map Entry.event
  notes : progress.outcome.notes = start.outcome.notes ++ entries.map Entry.note
  diagnostics : progress.outcome.diagnostics =
    start.outcome.diagnostics ++ (Entry.numbers entries).map fun number =>
      .integerOverflow number.2
  skipped : progress.skipped =
    ((Entry.numbers entries).map Prod.fst).reverse ++ start.skipped
  edits : progress.edits = start.edits + (entries.map Entry.note).count .missingStars

/-- What a rule answered for an entry. An edit is written down only where it was carried out. -/
inductive Entry.Answers (setting : Setting) (start : Tree) : Entry → Prop where
  | edited {rule : Rule} {id : NodeId} {edit : Edit} {found tree : Tree} :
      setting.Answered start rule id (.ok (some edit)) found →
      found.replace edit.target edit.replacement = .ok tree →
      Entry.Answers setting start (.edited rule.name edit.target edit.description)
  | skipped {rule : Rule} {id : NodeId} {digits : String} {after : Tree} :
      setting.Answered start rule id (.error (.integerOverflow digits)) after →
      Entry.Answers setting start (.skipped rule.name id digits)

variable {setting : Setting} {start progress final : Progress} {entries : List Entry}

/-- Every progress is made of entries, and rules answered for them. -/
theorem Proceeds.exists_recorded (proceeds : Proceeds setting start progress) :
    ∃ entries, Recorded start progress entries ∧
      ∀ entry ∈ entries, entry.Answers setting start.tree := by
  induction proceeds with
  | refl =>
      exact ⟨[], ⟨by simp, by simp, by simp [Entry.numbers], by simp [Entry.numbers], rfl⟩, nofun⟩
  | pass _ ih =>
      obtain ⟨entries, recorded, answers⟩ := ih
      exact ⟨entries, ⟨recorded.log, recorded.notes, recorded.diagnostics, recorded.skipped,
        recorded.edits⟩, answers⟩
  | declined _ _ _ ih =>
      obtain ⟨entries, recorded, answers⟩ := ih
      exact ⟨entries, ⟨recorded.log, recorded.notes, recorded.diagnostics, recorded.skipped,
        recorded.edits⟩, answers⟩
  | @skip progress rule id digits tree member applied _ proceeds ih =>
      obtain ⟨entries, recorded, answers⟩ := ih
      refine ⟨entries ++ [.skipped rule.name id digits], ?_, ?_⟩
      · constructor
        case log => simp [Progress.skip, Progress.report, recorded.log, Entry.event]
        case notes =>
          simp [Progress.skip, Outcome.addNote, Outcome.addDiagnostic, Outcome.reject,
            recorded.notes, Entry.note]
        case diagnostics =>
          simp [Progress.skip, Outcome.addNote, Outcome.addDiagnostic, Outcome.reject,
            recorded.diagnostics, Entry.numbers, Entry.number?]
        case skipped => simp [Progress.skip, recorded.skipped, Entry.numbers, Entry.number?]
        case edits => simp [Progress.skip, Progress.report, recorded.edits, Entry.note]
      · rw [List.forall_mem_append, List.forall_mem_singleton]
        exact ⟨answers, .skipped (proceeds.answered member applied)⟩
  | @edit progress rule id edit found tree member applied replaced proceeds ih =>
      obtain ⟨entries, recorded, answers⟩ := ih
      refine ⟨entries ++ [.edited rule.name edit.target edit.description], ?_, ?_⟩
      · constructor
        case log => simp [Progress.advance, Progress.report, recorded.log, Entry.event]
        case notes =>
          cases setting.permitImplicit <;>
            simp [Progress.advance, Progress.report, Outcome.addNote, Outcome.reject,
              recorded.notes, Entry.note]
        case diagnostics =>
          cases setting.permitImplicit <;>
            simp [Progress.advance, Progress.report, Outcome.addNote, Outcome.reject,
              recorded.diagnostics, Entry.numbers, Entry.number?]
        case skipped =>
          simp [Progress.advance, Progress.report, recorded.skipped, Entry.numbers, Entry.number?]
        case edits =>
          simp [Progress.advance, Progress.report, recorded.edits, Entry.note]
          omega
      · rw [List.forall_mem_append, List.forall_mem_singleton]
        exact ⟨answers, .edited (proceeds.answered member applied) replaced⟩

/-- A run notes missing products just when it makes an edit. -/
theorem Recorded.hasNote_missingStars
    (recorded : Recorded start progress entries) :
    progress.outcome.hasNote .missingStars = true ↔
      start.outcome.hasNote .missingStars = true ∨ start.edits < progress.edits := by
  rw [Outcome.hasNote, Outcome.hasNote, recorded.notes, recorded.edits]
  simp only [List.contains_iff_mem, ← List.count_pos_iff, List.count_append]
  omega

/-- A run never notes spaces. -/
theorem Recorded.hasNote_spaces
    (recorded : Recorded start progress entries) :
    progress.outcome.hasNote .spaces = true ↔ start.outcome.hasNote .spaces = true := by
  rw [Outcome.hasNote, Outcome.hasNote, recorded.notes]
  simp only [List.contains_iff_mem, List.mem_append, List.mem_map]
  constructor
  · rintro (earlier | ⟨entry, _, same⟩)
    · exact earlier
    · cases entry <;> cases same
  · exact .inl

theorem Proceeds.nodup_skipped (proceeds : Proceeds setting start progress)
    (nodup : start.skipped.Nodup) : progress.skipped.Nodup := by
  induction proceeds with
  | refl => exact nodup
  | pass _ ih => exact ih
  | declined _ _ _ ih => exact ih
  | skip _ _ fresh _ ih => exact List.nodup_cons.mpr ⟨fresh, ih⟩
  | edit _ _ _ _ ih => exact ih

/-- The end of a run that comes to an end. No rule has anything more to say then, except at nodes
that are passed over. -/
structure Report.Finishes (report : Report) (setting : Setting) (tree : Tree) (before : Outcome)
    (entries : List Entry) (stats : Stats) : Prop where
  result : report.result = .ok stats
  edits : stats.edits = (entries.map Entry.note).count .missingStars
  skipped : stats.skipped = (entries.map Entry.note).count .integerOverflow
  passes : stats.passes = stats.edits + 1
  bounded : stats.edits ≤ setting.limit
  valid : report.outcome.valid = true ↔
    before.valid = true ∧ stats.skipped = 0 ∧ (stats.edits = 0 ∨ setting.permitImplicit = true)
  reached : setting.Reached tree report.tree
  walked : ∃ walked, setting.Reached tree walked ∧
    ∀ id ∈ walked.passOrder, id ∉ (Entry.numbers entries).map Prod.fst →
      ∀ rule ∈ setting.rules, ∃ after, setting.Answered tree rule id (.ok none) after

/-- How a run ends after its entries, with the events that it logs then. A rule that fails ends a
run without an event of its own. A finding that cannot be carried out is logged, but it is no
entry. -/
inductive Report.Concludes (report : Report) (setting : Setting) (tree : Tree) (before : Outcome)
    (entries : List Entry) : List Event → Prop where
  | finished {stats : Stats} : report.Finishes setting tree before entries stats →
      Report.Concludes report setting tree before entries [.finished stats report.outcome.valid]
  | exhausted {rule : Rule} {id : NodeId} {edit : Edit} :
      report.result = .error (.limitExceeded setting.limit) →
      (entries.map Entry.note).count .missingStars = setting.limit →
      setting.Answered tree rule id (.ok (some edit)) report.tree →
      Report.Concludes report setting tree before entries [.limitReached rule.name setting.limit]
  | ruleFailed {rule : Rule} {id : NodeId} {error : TreeError} :
      report.result = .error (.tree error) →
      setting.Answered tree rule id (.error (.tree error)) report.tree →
      Report.Concludes report setting tree before entries []
  | swapFailed {rule : Rule} {id : NodeId} {edit : Edit} {error : TreeError} :
      report.result = .error (.tree error) →
      setting.Answered tree rule id (.ok (some edit)) report.tree →
      report.tree.replace edit.target edit.replacement = .error error →
      Report.Concludes report setting tree before entries
        [.fired rule.name edit.target edit.description]

structure Report.Books (report : Report) (setting : Setting) (tree : Tree) (before : Outcome)
    (entries : List Entry) (ending : List Event) : Prop where
  notes : report.outcome.notes = before.notes ++ entries.map Entry.note
  diagnostics : report.outcome.diagnostics =
    before.diagnostics ++ (Entry.numbers entries).map fun number => .integerOverflow number.2
  counted : (Entry.numbers entries).length = (entries.map Entry.note).count .integerOverflow
  distinct : ((Entry.numbers entries).map Prod.fst).Nodup
  answers : ∀ entry ∈ entries, entry.Answers setting tree
  log : report.log = .started setting.limit setting.options.strictSyntax setting.permitImplicit ::
    (entries.map Entry.event ++ ending)
  concluded : report.Concludes setting tree before entries ending

section Books

variable {tree : Tree} {outcome : Outcome} {last : Progress} {report : Report}

private theorem Recorded.edits_eq
    (recorded : Recorded (.start setting.permitImplicit setting.options tree outcome) last entries) :
    last.edits = (entries.map Entry.note).count .missingStars :=
  recorded.edits.trans (Nat.zero_add _)

private theorem Recorded.skipped_eq
    (recorded : Recorded (.start setting.permitImplicit setting.options tree outcome) last entries) :
    last.skipped = ((Entry.numbers entries).map Prod.fst).reverse :=
  recorded.skipped.trans (List.append_nil _)

/-- The books follow from the last state that a run has proceeded to, and from how it ends. -/
private theorem Proceeds.exists_books {ending : List Event}
    (proceeds : Proceeds setting (.start setting.permitImplicit setting.options tree outcome) last)
    (limit : setting.limit = tree.editLimit) (same : report.outcome = last.outcome)
    (log : report.log = last.log ++ ending)
    (concluded : ∀ entries,
      Recorded (.start setting.permitImplicit setting.options tree outcome) last entries →
      report.Concludes setting tree outcome entries ending) :
    ∃ entries ending, report.Books setting tree outcome entries ending := by
  obtain ⟨entries, recorded, answers⟩ := proceeds.exists_recorded
  refine ⟨entries, ending, ?_⟩
  constructor
  case notes => rw [same, recorded.notes]; rfl
  case diagnostics => rw [same, recorded.diagnostics]; rfl
  case counted => exact (Entry.count_integerOverflow entries).symm
  case distinct =>
    rw [← List.nodup_reverse, ← recorded.skipped_eq]
    exact proceeds.nodup_skipped List.nodup_nil
  case answers => exact answers
  case log => simp [log, recorded.log, Progress.start, limit]
  case concluded => exact concluded entries recorded

/-- Every list of rules keeps exact books, whatever its rules do, as long as none of them says
that the limit of the run is exceeded. -/
theorem run_books {rules : List Rule}
    (unlimited : ∀ rule ∈ rules, ∀ options tree id limit,
      (rule.apply options tree id).1 ≠ .error (.limitExceeded limit))
    (permitImplicit : Bool) (options : Options) (tree : Tree) (outcome : Outcome) :
    ∃ entries ending, (run rules permitImplicit options tree outcome).Books
      ⟨rules, options, permitImplicit, tree.editLimit⟩ tree outcome entries ending := by
  let setting : Setting := ⟨rules, options, permitImplicit, tree.editLimit⟩
  let start : Progress := .start permitImplicit options tree outcome
  obtain ⟨last, proceeds, passes, bounded, ends⟩ :=
    (Proceeds.keeps setting start).runPasses tree.editLimit .refl
  rw [show start.edits + tree.editLimit = tree.editLimit from Nat.zero_add _] at bounded ends
  rw [run_eq_ofEnded]
  change ∃ entries ending, (Report.ofEnded (Normalization.runPasses setting tree.editLimit
    start)).Books setting tree outcome entries ending
  generalize ended : Normalization.runPasses setting tree.editLimit start = final at ends ⊢
  cases ends with
  | finished =>
      apply proceeds.exists_books rfl rfl rfl
      intro entries recorded
      apply Report.Concludes.finished
      constructor
      case result => rfl
      case edits => exact recorded.edits_eq
      case skipped =>
        change last.skipped.length = _
        rw [Entry.count_integerOverflow, recorded.skipped_eq, List.length_reverse,
          List.length_map]
      case passes => exact passes
      case bounded => exact bounded
      case reached => exact proceeds.reached
      case valid =>
        change last.outcome.valid = true ↔ _
        rw [proceeds.valid_eq rfl rfl]
        simp [setting, start, Progress.start, Progress.stats, and_assoc, or_comm]
      case walked =>
        obtain ⟨walked, reached, declined⟩ :=
          Proceeds.exists_walked (.refl : Proceeds setting start start) ended
        refine ⟨walked, reached, ?_⟩
        intro id visited unreported
        apply declined id visited
        rwa [recorded.skipped_eq, List.mem_reverse]
  | exhausted tries reached =>
      cases proceeds.tried tries with
      | found proceeded member answer =>
          apply proceeded.exists_books rfl rfl rfl
          intro entries recorded
          apply Report.Concludes.exhausted rfl ?_ (proceeded.answered member answer)
          rw [← recorded.edits_eq]
          exact tries.edits.trans reached
  | @ruleFailed id failure failed tries =>
      cases proceeds.tried tries with
      | failed proceeded member answer known =>
          apply proceeded.exists_books rfl rfl (List.append_nil _).symm
          intro entries recorded
          cases failure with
          | integerOverflow digits => exact absurd rfl (known digits)
          | limitExceeded limit =>
              exact absurd (congrArg Prod.fst answer) (unlimited _ member _ _ _ limit)
          | tree error => exact .ruleFailed rfl (proceeded.answered member answer)
  | editFailed tries replaced =>
      cases proceeds.tried tries with
      | found proceeded member answer =>
          apply proceeded.exists_books rfl rfl rfl
          intro entries recorded
          exact .swapFailed rfl (proceeded.answered member answer) replaced

end Books

/-- A rule with a detector fails only for an oversized number. -/
theorem ofDetector_ne_limitExceeded (name : String) (detect : Options → Tree → NodeId → Detection)
    (options : Options) (tree : Tree) (id : NodeId) (limit : Nat) :
    ((Rule.ofDetector name detect).apply options tree id).1 ≠ .error (.limitExceeded limit) := by
  unfold Rule.ofDetector
  dsimp only
  cases detect options tree id with
  | error number => exact nofun
  | ok found =>
      cases found with
      | none => exact nofun
      | some proposal => exact nofun

/-- A rule that asks for a node in the place of the root, which no tree allows. -/
def lifting : Rule :=
  ⟨"Lift", fun _ tree id =>
    (.ok (if id = Tree.root then none else some ⟨Tree.root, id, "lift"⟩), tree)⟩

theorem run_books_nestedCall :
    (∀ rule ∈ Rule.standard, ∀ options tree id limit,
      (rule.apply options tree id).1 ≠ .error (.limitExceeded limit)) ∧
    (∀ rule ∈ [lifting], ∀ options tree id limit,
      (rule.apply options tree id).1 ≠ .error (.limitExceeded limit)) ∧
    (run Rule.standard false {} nestedCall .fresh).result = .ok ⟨4, 5, 1⟩ ∧
    (run [lifting] false {} nestedCall .fresh).result = .error (.tree .rootReplacement) ∧
    (∃ entries ending, (run Rule.standard false {} nestedCall .fresh).Books
      ⟨Rule.standard, {}, false, nestedCall.editLimit⟩ nestedCall .fresh entries ending) ∧
    ∃ entries ending, (run [lifting] false {} nestedCall .fresh).Books
      ⟨[lifting], {}, false, nestedCall.editLimit⟩ nestedCall .fresh entries ending := by
  have standard (rule : Rule) (member : rule ∈ Rule.standard) (options : Options) (tree : Tree)
      (id : NodeId) (limit : Nat) :
      (rule.apply options tree id).1 ≠ .error (.limitExceeded limit) := by
    simp only [Rule.standard, List.mem_cons, List.not_mem_nil, or_false] at member
    rcases member with rfl | rfl | rfl | rfl | rfl | rfl
    all_goals exact ofDetector_ne_limitExceeded _ _ options tree id limit
  have lifts (rule : Rule) (member : rule ∈ [lifting]) (options : Options) (tree : Tree)
      (id : NodeId) (limit : Nat) :
      (rule.apply options tree id).1 ≠ .error (.limitExceeded limit) := by
    obtain rfl := List.mem_singleton.mp member
    intro impossible
    cases impossible
  exact ⟨standard, lifts, by decide +kernel, by decide +kernel,
    run_books standard false {} nestedCall .fresh, run_books lifts false {} nestedCall .fresh⟩

end Normalization

end Juxtaposition
