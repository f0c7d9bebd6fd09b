import Juxtaposition.Pipeline
import Juxtaposition.Proofs.Expr.Products
import Juxtaposition.Proofs.Normalization.Bookkeeping
import Juxtaposition.Proofs.Normalization.Standard

/-!
# Verdict and explanations

The run decides whether an answer is rejected, and the explanations are read off the tree
that it leaves. Both agree: no answer is rejected without an explanation, and no accepted
answer has one.
-/

set_option autoImplicit false

namespace Juxtaposition

namespace Pipeline

open Juxtaposition.Tree (root)

/-- The standard rules with nothing before and nothing after them. -/
def plain (insertStars fixSpaces : Bool) : Pipeline Id :=
  { insertStars, fixSpaces }

def Rejects (insertStars : Bool) (before : Outcome) (stats : Stats) : Prop :=
  before.valid = false ∨ 0 < stats.skipped ∨ 0 < stats.edits ∧ insertStars = false

structure GivenIff (condition : Prop) (diagnostic : Diagnostic) (given : List Diagnostic) :
    Prop where
  once : condition → given = [diagnostic]
  never : ¬condition → given = []

/-- The diagnostics that an answer gets besides those it had: numbers, missing products, and
spaced products. -/
structure Explains (insertStars : Bool) (tree : Tree) (before : Outcome) (stats : Stats)
    (report : Normalization.Report) (digits : List String) (missing spaced : List Diagnostic) :
    Prop where
  diagnostics : report.outcome.diagnostics =
    before.diagnostics ++ digits.map Diagnostic.integerOverflow ++ missing ++ spaced
  length_digits : digits.length = stats.skipped
  missing : GivenIff
    (Rejects insertStars before stats ∧
      (before.hasNote .missingStars = true ∨ 0 < stats.edits) ∧
      ((∃ id, tree.Reaches root id ∧ (tree.node id).isProduct .missing = true) ∨
        0 < stats.edits))
    (.missingStars (report.tree.quotation .missing)) missing
  spaced : GivenIff
    (Rejects insertStars before stats ∧ before.hasNote .spaces = true ∧
      ∃ id, tree.Reaches root id ∧ (tree.node id).isProduct .whitespace = true)
    (.spaces (report.tree.quotation .whitespace)) spaced

theorem GivenIff.eq_nil_iff {condition : Prop} {diagnostic : Diagnostic}
    {given : List Diagnostic} (iff : GivenIff condition diagnostic given) :
    given = [] ↔ ¬condition := by
  constructor
  · intro nothing holds
    rw [iff.once holds] at nothing
    cases nothing
  · exact iff.never

theorem GivenIff.congr {condition condition' : Prop} {diagnostic : Diagnostic}
    {given : List Diagnostic} (iff : GivenIff condition diagnostic given)
    (same : condition ↔ condition') : GivenIff condition' diagnostic given where
  once holds := iff.once (same.mpr holds)
  never fails := iff.never fun holds => fails (same.mp holds)

def given (outcome : Outcome) (tree : Tree) (note : Note) (provenance : Provenance)
    (highlight : Highlight) (explain : String → Diagnostic) : List Diagnostic :=
  if outcome.valid then []
  else (outcome.explanation? tree note provenance highlight explain).toList

theorem explanations_eq (outcome : Outcome) (tree : Tree) :
    outcome.explanations tree =
      given outcome tree .missingStars .missing .missing .missingStars ++
        given outcome tree .spaces .whitespace .whitespace .spaces := by
  unfold Outcome.explanations given
  cases outcome.valid <;> rfl

theorem givenIff_given (outcome : Outcome) (tree : Tree) (note : Note)
    (provenance : Provenance) (highlight : Highlight) (explain : String → Diagnostic) :
    GivenIff
      (outcome.valid = false ∧ outcome.hasNote note = true ∧ tree.hasProduct provenance = true)
      (explain (tree.quotation highlight))
      (given outcome tree note provenance highlight explain) := by
  unfold given Outcome.explanation?
  cases outcome.valid <;> cases outcome.hasNote note <;> cases tree.hasProduct provenance <;>
    constructor <;> simp

variable {insertStars : Bool} {tree : Tree} {before : Outcome} {stats : Stats}
  {report : Normalization.Report} {digits : List String} {missing spaced : List Diagnostic}

/-- From a fresh outcome, an answer is valid just when it has no diagnostics. -/
theorem Explains.valid_iff_of_fresh
    (explains : Explains insertStars tree .fresh stats report digits missing spaced)
    (verdict : report.outcome.valid = false ↔ Rejects insertStars .fresh stats) :
    report.outcome.valid = true ↔ report.outcome.diagnostics = [] := by
  rw [← Bool.not_eq_false, verdict, explains.diagnostics]
  simp only [List.append_eq_nil_iff, List.map_eq_nil_iff, explains.missing.eq_nil_iff,
    explains.spaced.eq_nil_iff]
  constructor
  · intro accepted
    refine ⟨⟨⟨rfl, ?_⟩, fun given => accepted given.1⟩, fun given => accepted given.1⟩
    rw [← List.length_eq_zero_iff, explains.length_digits]
    exact Nat.eq_zero_of_not_pos fun skipped => accepted (.inr (.inl skipped))
  · rintro ⟨⟨⟨_, none⟩, unexplained⟩, _⟩ rejected
    have nothing : stats.skipped = 0 := by
      rw [← explains.length_digits, none, List.length_nil]
    rcases rejected with invalid | skipped | ⟨edits, forbidden⟩
    · cases invalid
    · omega
    · exact unexplained ⟨.inr (.inr ⟨edits, forbidden⟩), .inr edits, .inr edits⟩

def processed (insertStars fixSpaces : Bool) (options : Options) (tree : Tree)
    (before : Outcome) : Normalization.Report :=
  ((plain insertStars fixSpaces).process options tree before).run

section Run

variable {options : Options} {layout next : Layout} {final : Normalization.Progress}

private theorem processed_of_runPasses
    (ended : Normalization.runPasses (.standard insertStars options tree) tree.editLimit
      (.start insertStars options tree before) = (.ok (), final)) (fixSpaces : Bool) :
    (processed insertStars fixSpaces options tree before).result = .ok final.stats ∧
      (processed insertStars fixSpaces options tree before).tree = final.tree ∧
      (processed insertStars fixSpaces options tree before).outcome =
        final.outcome.explain final.tree := by
  obtain ⟨result, same, outcome⟩ := Normalization.runStandard_of_runPasses ended
  unfold Normalization.runStandard at result same outcome
  unfold processed plain process runHook
  simp only [pure_bind]
  rw [result, same, outcome]
  exact ⟨rfl, rfl, rfl⟩

private theorem valid_eq_false_iff
    (proceeds : Normalization.Proceeds (.standard insertStars options tree)
      (.start insertStars options tree before) final) :
    final.outcome.valid = false ↔ Rejects insertStars before final.stats := by
  have verdict : final.outcome.valid =
      (before.valid && final.skipped.isEmpty && (insertStars || final.edits == 0)) :=
    proceeds.valid_eq rfl rfl
  have skipped : final.skipped.isEmpty = false ↔ 0 < final.stats.skipped := by
    rw [List.isEmpty_eq_false_iff, ← List.length_pos_iff]
    rfl
  have edits : (final.edits == 0) = false ↔ 0 < final.stats.edits := by
    rw [beq_eq_false_iff_ne, ← Nat.pos_iff_ne_zero]
    rfl
  rw [verdict, Bool.and_eq_false_iff, Bool.and_eq_false_iff, Bool.or_eq_false_iff, skipped, edits,
    or_assoc, and_comm (b := 0 < _)]
  rfl

/-- What the tree has in the end is what it had and what the edits supplied. -/
private theorem hasProduct_iff {count : Nat} (planted : tree.Planted layout)
    (settled : Normalization.Settled options next final)
    (steps : Expr.Steps options count (tree.exprAlong layout) (final.tree.exprAlong next))
    (provenance : Provenance) :
    final.tree.hasProduct provenance = true ↔
      (∃ id, tree.Reaches root id ∧ (tree.node id).isProduct provenance = true) ∨
        provenance = .missing ∧ 0 < count := by
  rw [settled.consistent.planted.hasProduct_iff, steps.mem_products_iff,
    planted.mem_products_iff]

end Run

/-- The run succeeds on every sound tree. The answer is rejected for what the run did, and it
is explained by what the run leaves. -/
theorem processed_explains (sound : tree.check = .ok ()) (insertStars fixSpaces : Bool)
    (options : Options) (before : Outcome) :
    ∃ stats digits missing spaced,
      (processed insertStars fixSpaces options tree before).result = .ok stats ∧
      ((processed insertStars fixSpaces options tree before).outcome.valid = false ↔
        Rejects insertStars before stats) ∧
      Explains insertStars tree before stats (processed insertStars fixSpaces options tree before)
        digits missing spaced ∧
      (before = .fresh →
        ((processed insertStars fixSpaces options tree before).outcome.valid = true ↔
          (processed insertStars fixSpaces options tree before).outcome.diagnostics = [])) := by
  obtain ⟨layout, planted⟩ := Tree.check_eq_ok_iff.mp sound
  obtain ⟨final, next, _, ended, settled, steps, rfl⟩ :=
    Normalization.exists_ended planted insertStars options before
  obtain ⟨result, same, outcome⟩ := processed_of_runPasses ended fixSpaces
  have proceeds := Normalization.Proceeds.runPasses .refl ended
  obtain ⟨entries, recorded, _⟩ := proceeds.exists_recorded
  have verdict := valid_eq_false_iff proceeds
  have products := hasProduct_iff planted settled steps
  have missing := (givenIff_given final.outcome final.tree .missingStars .missing .missing
    .missingStars).congr (and_congr verdict (and_congr recorded.hasNote_missingStars
      (products .missing)))
  have spaced := (givenIff_given final.outcome final.tree .spaces .whitespace .whitespace
    .spaces).congr (and_congr verdict (and_congr recorded.hasNote_spaces (products .whitespace)))
  simp only [true_and] at missing
  simp only [reduceCtorEq, false_and, or_false] at spaced
  have explains : Explains insertStars tree before final.stats
      (processed insertStars fixSpaces options tree before)
      ((Normalization.Entry.numbers entries).map Prod.snd)
      (given final.outcome final.tree .missingStars .missing .missing .missingStars)
      (given final.outcome final.tree .spaces .whitespace .whitespace .spaces) := by
    constructor
    · rw [outcome, Outcome.explain, recorded.diagnostics, explanations_eq, List.map_map,
        List.append_assoc (_ ++ _)]
      rfl
    · change _ = final.skipped.length
      rw [recorded.skipped]
      simp [Normalization.Progress.start]
    · rw [same]
      exact missing
    · rw [same]
      exact spaced
  have judged : (processed insertStars fixSpaces options tree before).outcome.valid = false ↔
      Rejects insertStars before final.stats := by
    rw [outcome]
    exact verdict
  refine ⟨final.stats, _, _, _, result, judged, explains, ?_⟩
  rintro rfl
  exact explains.valid_iff_of_fresh judged

theorem processed_explains_nestedCall :
    Normalization.nestedCall.check = .ok () ∧
      ((processed true false {} Normalization.nestedCall .fresh).outcome.valid = true ↔
        (processed true false {} Normalization.nestedCall .fresh).outcome.diagnostics = []) := by
  have sound : Normalization.nestedCall.check = .ok () := by decide
  obtain ⟨_, _, _, _, _, _, _, agree⟩ := processed_explains sound true false {} .fresh
  exact ⟨sound, agree rfl⟩

end Pipeline

end Juxtaposition
