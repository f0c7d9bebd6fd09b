import Juxtaposition.Proofs.Expr.Extent
import Juxtaposition.Proofs.Normalization.Settled

/-!
# Runs of the standard rules

On a sound tree the standard rules always come to an end. The tree then holds the normal
form of its expression, and another run finds nothing more to do.
-/

set_option autoImplicit false

namespace Juxtaposition.Normalization

open Juxtaposition.Tree (root)

def Progress.start (permitImplicit : Bool) (options : Options) (tree : Tree) (outcome : Outcome) :
    Progress where
  tree := tree
  outcome := outcome
  log := [.started tree.editLimit options.strictSyntax permitImplicit]

def Setting.standard (permitImplicit : Bool) (options : Options) (tree : Tree) : Setting :=
  ⟨Rule.standard, options, permitImplicit, tree.editLimit⟩

def Report.ofEnded : Except Failure Unit × Progress → Report
  | (.error error, last) => ⟨.error error, last.tree, last.outcome, last.log⟩
  | (.ok (), last) =>
      ⟨.ok last.stats, last.tree, last.outcome,
        (last.report (.finished last.stats last.outcome.valid)).log⟩

theorem run_eq_ofEnded (rules : List Rule) (permitImplicit : Bool) (options : Options)
    (tree : Tree) (outcome : Outcome) :
    run rules permitImplicit options tree outcome =
      .ofEnded (runPasses ⟨rules, options, permitImplicit, tree.editLimit⟩ tree.editLimit
        (.start permitImplicit options tree outcome)) := by
  unfold run Report.ofEnded Progress.start
  rfl

variable {tree : Tree} {layout : Layout} {permitImplicit : Bool} {options : Options}
  {outcome : Outcome} {final : Progress}

theorem consistent_start (planted : tree.Planted layout) (permitImplicit : Bool)
    (options : Options) (outcome : Outcome) :
    Consistent options layout (.start permitImplicit options tree outcome) :=
  ⟨planted, List.nodup_nil, fun _ member => nomatch member⟩

theorem runStandard_of_runPasses
    (result : runPasses (.standard permitImplicit options tree) tree.editLimit
      (.start permitImplicit options tree outcome) = (.ok (), final)) :
    (runStandard permitImplicit options tree outcome).result = .ok final.stats ∧
      (runStandard permitImplicit options tree outcome).tree = final.tree ∧
      (runStandard permitImplicit options tree outcome).outcome = final.outcome := by
  unfold Setting.standard at result
  rw [runStandard, run_eq_ofEnded, result]
  exact ⟨rfl, rfl, rfl⟩

theorem log_runStandard_of_runPasses
    (result : runPasses (.standard permitImplicit options tree) tree.editLimit
      (.start permitImplicit options tree outcome) = (.ok (), final)) :
    (runStandard permitImplicit options tree outcome).log =
      final.log ++ [.finished final.stats final.outcome.valid] := by
  unfold Setting.standard at result
  rw [runStandard, run_eq_ofEnded, result]
  rfl

/-- A run of the standard rules carries out offers, one after the other, until the tree is
settled. -/
theorem exists_evolved (planted : tree.Planted layout) (permitImplicit : Bool)
    (options : Options) (outcome : Outcome) :
    ∃ final next count, runPasses (.standard permitImplicit options tree) tree.editLimit
        (.start permitImplicit options tree outcome) = (.ok (), final) ∧
      Settled options next final ∧ Tree.Evolves options count tree layout final.tree next ∧
      final.edits = count := by
  have enough : (tree.exprAlong layout).editCount options ≤ tree.editLimit := by
    have bound := planted.editCount_le options
    rw [Tree.editLimit]
    omega
  have rules : (Setting.standard permitImplicit options tree).rules = Rule.standard := rfl
  obtain ⟨final, next, count, result, settled, evolves, edits⟩ :=
    (consistent_start planted permitImplicit options outcome).runPasses_settled rules enough
  exact ⟨final, next, count, result, settled, evolves, edits.trans (Nat.zero_add count)⟩

/-- The passes of a run of the standard rules come to an end, where the tree is settled. -/
theorem exists_ended (planted : tree.Planted layout) (permitImplicit : Bool)
    (options : Options) (outcome : Outcome) :
    ∃ final next count, runPasses (.standard permitImplicit options tree) tree.editLimit
        (.start permitImplicit options tree outcome) = (.ok (), final) ∧
      Settled options next final ∧
      Expr.Steps options count (tree.exprAlong layout) (final.tree.exprAlong next) ∧
      final.edits = count := by
  obtain ⟨final, next, count, result, settled, evolves, edits⟩ :=
    exists_evolved planted permitImplicit options outcome
  exact ⟨final, next, count, result, settled, evolves.steps, edits⟩

/-- A run of the standard rules succeeds and ends settled. -/
theorem exists_settled (planted : tree.Planted layout) (permitImplicit : Bool)
    (options : Options) (outcome : Outcome) :
    ∃ final next count, Settled options next final ∧
      Expr.Steps options count (tree.exprAlong layout) (final.tree.exprAlong next) ∧
      final.edits = count ∧
      (runStandard permitImplicit options tree outcome).result = .ok final.stats ∧
      (runStandard permitImplicit options tree outcome).tree = final.tree := by
  obtain ⟨final, next, count, ended, settled, steps, edits⟩ :=
    exists_ended planted permitImplicit options outcome
  obtain ⟨result, same, _⟩ := runStandard_of_runPasses ended
  exact ⟨final, next, count, settled, steps, edits, result, same⟩

/-- A run of the standard rules on a settled tree is a single pass that changes nothing. -/
theorem Settled.runStandard_eq {progress : Progress} (settled : Settled options layout progress)
    (permitImplicit : Bool) (outcome : Outcome) :
    (runStandard permitImplicit options progress.tree outcome).result =
        .ok ⟨0, 1, progress.skipped.length⟩ ∧
      (runStandard permitImplicit options progress.tree outcome).tree = progress.tree := by
  have rules : (Setting.standard permitImplicit options progress.tree).rules = Rule.standard := rfl
  have started := consistent_start settled.consistent.planted permitImplicit options outcome
  obtain ⟨final, result, tree, edits, passes, again⟩ :=
    Consistent.runPasses_of_none rules started progress.tree.editLimit settled.editCount_eq_zero
  have same : final.tree = progress.tree := tree
  obtain ⟨stats, whole, _⟩ := runStandard_of_runPasses result
  refine ⟨?_, whole.trans same⟩
  rw [stats, Progress.stats, edits, passes, settled.skipped_length_eq again same]
  rfl

/-- The tree of `a2b(x)(99999999999999999999y)`. -/
def nestedCall : Tree :=
  ⟨#[⟨.root ⟨1⟩, none⟩, ⟨.call ⟨2⟩ [⟨5⟩], some ⟨0⟩⟩, ⟨.call ⟨3⟩ [⟨4⟩], some ⟨1⟩⟩,
    ⟨.identifier "a2b", some ⟨2⟩⟩, ⟨.identifier "x", some ⟨2⟩⟩,
    ⟨.identifier "99999999999999999999y", some ⟨1⟩⟩]⟩

/-! ## Normal forms -/

/-- A run leaves the normal form of the expression that was there before. -/
theorem runStandard_normal (sound : tree.check = .ok ()) (permitImplicit : Bool)
    (options : Options) (outcome : Outcome) :
    ∃ expr stats, tree.expr? root = some expr ∧
      (runStandard permitImplicit options tree outcome).result = .ok stats ∧
      (runStandard permitImplicit options tree outcome).tree.expr? root =
        some (expr.normal options) := by
  obtain ⟨layout, planted⟩ := Tree.check_eq_ok_iff.mp sound
  obtain ⟨final, next, count, settled, steps, _, result, same⟩ :=
    exists_settled planted permitImplicit options outcome
  refine ⟨tree.exprAlong layout, final.stats, planted.expr?_root, result, ?_⟩
  rw [same, settled.consistent.planted.expr?_root, steps.normal_eq,
    Expr.normal_eq_self_of_editCount_eq_zero settled.editCount_eq_zero]

/-- `a2b(x)(99999999999999999999y)` is `((a*2)*(b*(x)))*(99999999999999999999y)`. -/
theorem runStandard_normal_nestedCall :
    nestedCall.check = .ok () ∧
      (runStandard true {} nestedCall .fresh).tree.expr? root =
        some (.product
          (.product (.product (.identifier "a") (.integer 2))
            (.product (.identifier "b") (.group [.identifier "x"])))
          (.group [.identifier "99999999999999999999y"])) := by
  have sound : nestedCall.check = .ok () := by decide
  obtain ⟨expr, stats, read, _, normal⟩ := runStandard_normal sound true {} .fresh
  cases read
  exact ⟨sound, normal⟩

/-! ## Success -/

/-- A run succeeds on every sound tree and leaves a sound one. It makes no more edits
than there are nodes and bytes of text. -/
theorem runStandard_succeeds (sound : tree.check = .ok ()) (permitImplicit : Bool)
    (options : Options) (outcome : Outcome) :
    ∃ stats, (runStandard permitImplicit options tree outcome).result = .ok stats ∧
      (runStandard permitImplicit options tree outcome).tree.check = .ok () ∧
      stats.edits ≤ (tree.weight root).nodes + (tree.weight root).text := by
  obtain ⟨layout, planted⟩ := Tree.check_eq_ok_iff.mp sound
  obtain ⟨final, next, count, settled, steps, edits, result, same⟩ :=
    exists_settled planted permitImplicit options outcome
  refine ⟨final.stats, result, ?_, ?_⟩
  · rw [same]
    exact Tree.check_eq_ok_iff.mpr ⟨next, settled.consistent.planted⟩
  · have spent := steps.editCount_eq
    have bound := planted.editCount_le options
    rw [settled.editCount_eq_zero] at spent
    change final.edits ≤ _
    omega

theorem runStandard_succeeds_nestedCall :
    nestedCall.check = .ok () ∧
      ∃ stats, (runStandard true {} nestedCall .fresh).result = .ok stats ∧
        (runStandard true {} nestedCall .fresh).tree.check = .ok () ∧
        stats.edits ≤ (nestedCall.weight root).nodes + (nestedCall.weight root).text := by
  have sound : nestedCall.check = .ok () := by decide
  exact ⟨sound, runStandard_succeeds sound true {} .fresh⟩

/-! ## Repeated runs -/

/-- A second run makes no edit, changes nothing in the arena, and skips as many nodes as
the first one did. -/
theorem runStandard_idempotent (sound : tree.check = .ok ()) (permitImplicit : Bool)
    (options : Options) (outcome : Outcome) :
    ∃ stats, (runStandard permitImplicit options tree outcome).result = .ok stats ∧
      ∀ permitImplicit' outcome',
        (runStandard permitImplicit' options
            (runStandard permitImplicit options tree outcome).tree outcome').result =
          .ok ⟨0, 1, stats.skipped⟩ ∧
        (runStandard permitImplicit' options
            (runStandard permitImplicit options tree outcome).tree outcome').tree =
          (runStandard permitImplicit options tree outcome).tree := by
  obtain ⟨layout, planted⟩ := Tree.check_eq_ok_iff.mp sound
  obtain ⟨final, next, count, settled, _, _, result, same⟩ :=
    exists_settled planted permitImplicit options outcome
  refine ⟨final.stats, result, fun permitImplicit' outcome' => ?_⟩
  rw [same]
  exact settled.runStandard_eq permitImplicit' outcome'

theorem runStandard_idempotent_nestedCall :
    nestedCall.check = .ok () ∧
      ∃ stats, (runStandard true {} nestedCall .fresh).result = .ok stats ∧
        (runStandard false {} (runStandard true {} nestedCall .fresh).tree .fresh).result =
          .ok ⟨0, 1, stats.skipped⟩ ∧
        (runStandard false {} (runStandard true {} nestedCall .fresh).tree .fresh).tree =
          (runStandard true {} nestedCall .fresh).tree := by
  have sound : nestedCall.check = .ok () := by decide
  obtain ⟨stats, result, again⟩ := runStandard_idempotent sound true {} .fresh
  exact ⟨sound, stats, result, again false .fresh⟩

end Juxtaposition.Normalization
