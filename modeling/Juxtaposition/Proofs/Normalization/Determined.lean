import Juxtaposition.Proofs.Normalization.Protection
import Juxtaposition.Proofs.Normalization.Twins

/-!
# What determines a run

The reachable expression and the options alone decide what a run does and reports. How the nodes
are numbered, what else the arena holds, what is permitted and what was known of the answer make
no difference, except to the verdict.
-/

set_option autoImplicit false

namespace Juxtaposition.Normalization

open Juxtaposition.Tree (root)

/-- A run that started with the outcome `before` succeeds with these counts and this expression,
and does these deeds in order. Notes and diagnostics are added for the deeds alone, and the
verdict depends on nothing but the counts, the former verdict and the permission. -/
structure Report.Yields (report : Report) (permitImplicit : Bool) (before : Outcome) (stats : Stats)
    (expr : Expr) (deeds : List Deed) : Prop where
  result : report.result = .ok stats
  reads : report.tree.expr? root = some expr
  done : Deed.ofLog report.log = deeds
  notes : report.outcome.notes = before.notes ++ deeds.map Deed.note
  diagnostics : report.outcome.diagnostics =
    before.diagnostics ++ deeds.filterMap Deed.diagnostic?
  valid : report.outcome.valid =
    (before.valid && stats.skipped == 0 && (permitImplicit || stats.edits == 0))

variable {tree other : Tree} {layout twin next : Layout} {permitImplicit permitAgain : Bool}
  {options : Options} {outcome before : Outcome} {final last : Progress}

private theorem yields_of_runPasses
    (ended : runPasses (.standard permitImplicit options tree) tree.editLimit
      (.start permitImplicit options tree outcome) = (.ok (), final))
    (planted : final.tree.Planted next) :
    (runStandard permitImplicit options tree outcome).Yields permitImplicit outcome final.stats
      (final.tree.exprAlong next) (Deed.ofLog final.log) := by
  obtain ⟨result, same, outcomeSame⟩ := runStandard_of_runPasses ended
  have proceeds := Proceeds.runPasses .refl ended
  obtain ⟨entries, recorded, _⟩ := proceeds.exists_recorded
  obtain ⟨deeds, logged, notes, diagnostics⟩ := recorded.exists_deeds
  obtain rfl : Deed.ofLog final.log = deeds := logged
  constructor
  case result => exact result
  case reads => rw [same, planted.expr?_root]
  case done =>
    rw [log_runStandard_of_runPasses ended, Deed.ofLog_append]
    exact List.append_nil _
  case notes => rw [outcomeSame, notes]; rfl
  case diagnostics => rw [outcomeSame, diagnostics]; rfl
  case valid => exact valid_runStandard_of_runPasses ended

/-- A second run on the same expression does what the first one did. -/
private theorem yields_again (planted : tree.Planted layout) (plantedAgain : other.Planted twin)
    (same : other.exprAlong twin = tree.exprAlong layout)
    (ended : runPasses (.standard permitImplicit options tree) tree.editLimit
      (.start permitImplicit options tree outcome) = (.ok (), final))
    (settled : Settled options next final) (permitAgain : Bool) (before : Outcome) :
    (runStandard permitAgain options other before).Yields permitAgain before final.stats
      (final.tree.exprAlong next) (Deed.ofLog final.log) := by
  obtain ⟨last, _, _, endedAgain, _, _, _⟩ :=
    exists_evolved plantedAgain permitAgain options before
  obtain ⟨pairing, twins⟩ := planted.exists_twins plantedAgain same
  have start : InStep pairing (.start permitImplicit options tree outcome)
      (.start permitAgain options other before) :=
    ⟨twins, nofun, rfl, rfl, rfl, rfl⟩
  have alike : (Setting.standard permitImplicit options tree).Alike
      (.standard permitAgain options other) := ⟨rfl, rfl, rfl⟩
  obtain ⟨later, step⟩ := start.runPasses alike
    (consistent_start planted permitImplicit options outcome) ended endedAgain
  have finalPlanted := settled.consistent.planted
  have stats : last.stats = final.stats := by
    rw [Progress.stats, Progress.stats, step.edits, step.passes, step.skipped, List.length_map]
  have reads := step.twins.exprAlong_map fun _ => step.twins.known_of_mem finalPlanted
  rw [← stats, ← step.deeds, ← reads]
  exact yields_of_runPasses endedAgain (step.twins.planted_map finalPlanted)

/-- Runs on sound trees with the same expression, under the same options, give the same counts and
the same expression, do the same deeds, and add the same notes and diagnostics, whatever is
permitted and whatever was known of the answer. -/
theorem runStandard_determined (sound : tree.check = .ok ()) (soundAgain : other.check = .ok ())
    (same : other.expr? root = tree.expr? root) (options : Options) :
    ∃ stats expr deeds, ∀ permitImplicit outcome,
      (runStandard permitImplicit options tree outcome).Yields permitImplicit outcome stats expr
          deeds ∧
        (runStandard permitImplicit options other outcome).Yields permitImplicit outcome stats expr
          deeds := by
  obtain ⟨layout, planted⟩ := Tree.check_eq_ok_iff.mp sound
  obtain ⟨twin, plantedAgain⟩ := Tree.check_eq_ok_iff.mp soundAgain
  rw [planted.expr?_root, plantedAgain.expr?_root, Option.some.injEq] at same
  obtain ⟨final, next, _, ended, settled, _, _⟩ := exists_evolved planted true options .fresh
  refine ⟨final.stats, final.tree.exprAlong next, Deed.ofLog final.log, fun permitted before => ?_⟩
  exact ⟨yields_again planted planted rfl ended settled permitted before,
    yields_again planted plantedAgain same ended settled permitted before⟩

/-- The expression of `nestedCall` with its nodes in another order, and two nodes that the root
does not reach and that hold one it does. -/
def scatteredCall : Tree :=
  ⟨#[⟨.root ⟨4⟩, none⟩, ⟨.identifier "x", some ⟨6⟩⟩, ⟨.group [⟨1⟩, ⟨5⟩], none⟩,
    ⟨.identifier "99999999999999999999y", some ⟨4⟩⟩, ⟨.call ⟨6⟩ [⟨3⟩], some ⟨0⟩⟩,
    ⟨.integer 7, some ⟨2⟩⟩, ⟨.call ⟨7⟩ [⟨1⟩], some ⟨4⟩⟩, ⟨.identifier "a2b", some ⟨6⟩⟩]⟩

/-- `a2b(x)(99999999999999999999y)`, once permitted and once for an answer already rejected. -/
theorem runStandard_determined_nestedCall :
    nestedCall.check = .ok () ∧ scatteredCall.check = .ok () ∧
      scatteredCall.expr? root = nestedCall.expr? root ∧
      ∃ stats expr deeds,
        (runStandard true {} nestedCall .fresh).Yields true .fresh stats expr deeds ∧
          (runStandard false {} scatteredCall (Outcome.reject .fresh)).Yields false
            (Outcome.reject .fresh) stats expr deeds := by
  have sound : nestedCall.check = .ok () := by decide
  have soundAgain : scatteredCall.check = .ok () := by decide
  have same : scatteredCall.expr? root = nestedCall.expr? root := rfl
  obtain ⟨stats, expr, deeds, yields⟩ := runStandard_determined sound soundAgain same {}
  exact ⟨sound, soundAgain, same, stats, expr, deeds, (yields true .fresh).1,
    (yields false (Outcome.reject .fresh)).2⟩

end Juxtaposition.Normalization
