import Juxtaposition.Proofs.Expr.Protection
import Juxtaposition.Proofs.Normalization.Record
import Juxtaposition.Proofs.Normalization.Reported
import Juxtaposition.Proofs.Normalization.Standard

/-!
# Protection during a run

What a run of the standard rules counts can be read off the expression before it. So
protecting more names, or stricter syntax, never makes a run edit or skip more, and never
makes an answer invalid.
-/

set_option autoImplicit false

namespace Juxtaposition.Normalization

variable {tree : Tree} {layout : Layout} {permitImplicit : Bool} {options : Options}
  {outcome : Outcome} {final : Progress}

/-- A run accepts an answer that was accepted before, unless a number was too large or a product
was supplied without permission. -/
theorem valid_runStandard_of_runPasses
    (ended : runPasses (.standard permitImplicit options tree) tree.editLimit
      (.start permitImplicit options tree outcome) = (.ok (), final)) :
    (runStandard permitImplicit options tree outcome).outcome.valid =
      (outcome.valid && final.stats.skipped == 0 &&
        (permitImplicit || final.stats.edits == 0)) := by
  have proceeds := Proceeds.runPasses .refl ended
  have nothing : final.skipped.isEmpty = (final.stats.skipped == 0) := by
    unfold Progress.stats
    cases final.skipped <;> rfl
  rw [(runStandard_of_runPasses ended).2.2, proceeds.valid_eq rfl rfl, nothing]
  rfl

/-- A run makes the edits that the expression takes, skips as many nodes as it has
oversized runs of digits, and accepts the answer unless one of the two speaks against it. -/
theorem exists_stats (planted : tree.Planted layout) (permitImplicit : Bool)
    (options : Options) (outcome : Outcome) :
    ∃ stats, (runStandard permitImplicit options tree outcome).result = .ok stats ∧
      stats.edits = (tree.exprAlong layout).editCount options ∧
      stats.skipped = ((tree.exprAlong layout).oversizedRuns options).length ∧
      (runStandard permitImplicit options tree outcome).outcome.valid =
        (outcome.valid && stats.skipped == 0 && (permitImplicit || stats.edits == 0)) := by
  obtain ⟨final, next, count, ended, settled, steps, edits⟩ :=
    exists_ended planted permitImplicit options outcome
  refine ⟨final.stats, (runStandard_of_runPasses ended).1, ?_, ?_,
    valid_runStandard_of_runPasses ended⟩
  · have spent := steps.editCount_eq
    rw [settled.editCount_eq_zero, Nat.zero_add] at spent
    exact edits.trans spent.symm
  · exact settled.skipped_length.trans (congrArg List.length steps.oversizedRuns_eq)

/-- More protection never costs anything: a run makes no more edits, skips no more nodes,
and leaves every answer valid that is valid without the protection. -/
theorem runStandard_protected (sound : tree.check = .ok ()) (permitImplicit : Bool)
    {options guarded : Options} (looser : options.LooserThan guarded) (outcome : Outcome) :
    ∃ stats stats', (runStandard permitImplicit options tree outcome).result = .ok stats ∧
      (runStandard permitImplicit guarded tree outcome).result = .ok stats' ∧
      stats'.edits ≤ stats.edits ∧ stats'.skipped ≤ stats.skipped ∧
      ((runStandard permitImplicit options tree outcome).outcome.valid = true →
        (runStandard permitImplicit guarded tree outcome).outcome.valid = true) := by
  obtain ⟨layout, planted⟩ := Tree.check_eq_ok_iff.mp sound
  obtain ⟨stats, result, edits, skipped, judged⟩ :=
    exists_stats planted permitImplicit options outcome
  obtain ⟨stats', result', edits', skipped', judged'⟩ :=
    exists_stats planted permitImplicit guarded outcome
  have fewerEdits : stats'.edits ≤ stats.edits := by
    rw [edits, edits']
    exact Expr.editCount_le looser _
  have fewerSkipped : stats'.skipped ≤ stats.skipped := by
    rw [skipped, skipped']
    exact (Expr.oversized_sublist looser _).length_le
  refine ⟨stats, stats', result, result', fewerEdits, fewerSkipped, fun valid => ?_⟩
  rw [judged] at valid
  rw [judged']
  simp only [Bool.and_eq_true, Bool.or_eq_true, beq_iff_eq] at valid ⊢
  obtain ⟨⟨before, noSkipped⟩, permitted⟩ := valid
  refine ⟨⟨before, by omega⟩, permitted.imp_right fun noEdits => by omega⟩

/-- Protecting the name `a2b` where it is called, beside the variable `x`. -/
theorem runStandard_protected_nestedCall :
    nestedCall.check = .ok () ∧
      (Options.addSafeVariables {} ["x"]).LooserThan
        ((Options.addSafeVariables {} ["x"]).addSafeFunctions ["a2b"]) ∧
      ∃ stats stats',
        (runStandard false (Options.addSafeVariables {} ["x"]) nestedCall .fresh).result =
          .ok stats ∧
        (runStandard false ((Options.addSafeVariables {} ["x"]).addSafeFunctions ["a2b"])
          nestedCall .fresh).result = .ok stats' ∧
        stats'.edits ≤ stats.edits ∧ stats'.skipped ≤ stats.skipped := by
  have sound : nestedCall.check = .ok () := by decide
  have looser : (Options.addSafeVariables {} ["x"]).LooserThan
      ((Options.addSafeVariables {} ["x"]).addSafeFunctions ["a2b"]) :=
    ⟨fun _ member => member, fun _ member => absurd member Std.TreeSet.not_mem_emptyc,
      fun strict => strict⟩
  obtain ⟨stats, stats', result, result', edits, skipped, _⟩ :=
    runStandard_protected sound false looser .fresh
  exact ⟨sound, looser, stats, stats', result, result', edits, skipped⟩

end Juxtaposition.Normalization
