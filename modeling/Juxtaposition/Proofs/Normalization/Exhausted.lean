import Juxtaposition.Proofs.Normalization.Regrowth
import Juxtaposition.Proofs.Normalization.Standard
import Juxtaposition.Proofs.Rule.Contract

/-!
# Runs that exceed their limit

A run of lawful rules stores a replacement before it looks at the limit. When the limit is
exceeded, that replacement stays where it is and is not put in. The tree reads as after the last
edit, but nodes that the replacement has adopted do not point back at their holders.
-/

set_option autoImplicit false

namespace Juxtaposition.Normalization

open Juxtaposition.Tree (root)

inductive Advances (setting : Setting) : Nat → Progress → Progress → Prop where
  | refl {progress : Progress} : Advances setting 0 progress progress
  | edit {count : Nat} {progress found last : Progress} {rule : String} {edit : Edit}
      {tree : Tree} :
      runPass setting progress = (.ok (some ⟨rule, edit⟩), found) →
      found.tree.replace edit.target edit.replacement = .ok tree →
      Advances setting count ((found.report (.fired rule edit.target edit.description)).advance
        setting.permitImplicit tree) last →
      Advances setting (count + 1) progress last

/-- What is left of a sound tree after lawful rules were tried on it: the tree itself, or one with
a replacement stored that is not put in yet. -/
inductive Pends (tree : Tree) : Except Failure (Option Finding) × Progress → Prop where
  | untouched {result : Except Failure (Option Finding)} {last : Progress} :
      (∀ finding, result ≠ .ok (some finding)) → last.tree = tree → Pends tree (result, last)
  | waiting {rule : String} {edit : Edit} {last : Progress} {edited : Tree} :
      tree.Allocates last.tree → last.tree.replace edit.target edit.replacement = .ok edited →
      edited.check = .ok () → Pends tree (.ok (some ⟨rule, edit⟩), last)

variable {setting : Setting} {options : Options} {progress : Progress} {id : NodeId}

/-! ## One pass -/

theorem Pends.nothing {tree : Tree} {last : Progress} (same : last.tree = tree) :
    Pends tree (.ok none, last) := by
  refine .untouched ?_ same
  intro finding found
  cases found

theorem Pends.failed {tree : Tree} {last : Progress} (failure : Failure)
    (same : last.tree = tree) : Pends tree (.error failure, last) := by
  refine .untouched ?_ same
  intro finding found
  cases found

theorem Pends.of_tryRules {rules : List Rule} (lawful : ∀ rule ∈ rules, rule.IsLawful options)
    (accepted : progress.tree.check = .ok ()) (reached : progress.tree.Reaches root id) :
    Pends progress.tree (tryRules options id rules progress) := by
  induction rules generalizing progress with
  | nil => exact .nothing rfl
  | cons rule rest ih =>
      have complies := lawful rule List.mem_cons_self progress.tree id accepted reached
      unfold tryRules
      generalize rule.apply options progress.tree id = answer at complies
      cases complies with
      | declined =>
          have later (rule : Rule) (member : rule ∈ rest) : rule.IsLawful options :=
            lawful rule (List.mem_cons_of_mem _ member)
          exact ih later accepted reached
      | failed failure =>
          cases failure with
          | integerOverflow digits => exact .nothing rfl
          | limitExceeded limit => exact .failed _ rfl
          | tree error => exact .failed _ rfl
      | proposed allocates _ replaced sound => exact .waiting allocates replaced sound

theorem Pends.of_search (lawful : ∀ rule ∈ setting.rules, rule.IsLawful setting.options)
    (ids : List NodeId) (progress : Progress) (accepted : progress.tree.check = .ok ())
    (reached : ∀ id ∈ ids, progress.tree.Reaches root id) :
    Pends progress.tree (search setting ids progress) := by
  induction ids generalizing progress with
  | nil => exact .nothing rfl
  | cons id rest ih =>
      have later (id : NodeId) (member : id ∈ rest) := reached id (List.mem_cons_of_mem _ member)
      have tried := Pends.of_tryRules lawful accepted (reached id List.mem_cons_self)
      unfold search
      split
      · exact ih _ accepted later
      · split
        · next next declined =>
          rw [declined] at tried
          cases tried with
          | untouched _ same =>
              rw [← same] at accepted later ⊢
              exact ih _ accepted later
        · exact tried

theorem Pends.of_runPass (lawful : ∀ rule ∈ setting.rules, rule.IsLawful setting.options)
    (accepted : progress.tree.check = .ok ()) :
    Pends progress.tree (runPass setting progress) := by
  obtain ⟨layout, planted⟩ := Tree.check_eq_ok_iff.mp accepted
  have reached (id : NodeId) (member : id ∈ progress.tree.passOrder) :
      progress.tree.Reaches root id :=
    planted.reaches_iff.mpr (planted.mem_passOrder_iff.mp member)
  exact Pends.of_search lawful _ { progress with passes := progress.passes + 1 } accepted reached

/-! ## All passes -/

/-- What is left of a sound tree after passes with lawful rules. The progress `last` is that after
the last edit, and only the limit can leave something on top of its tree. -/
structure Leaves (setting : Setting) (allowed : Nat) (start : Progress)
    (answer : Except Failure Unit × Progress) (count : Nat) (last : Progress) : Prop where
  bounded : count ≤ allowed
  advances : Advances setting count start last
  accepted : last.tree.check = .ok ()
  allocates : last.tree.Allocates answer.2.tree
  tree_cases : answer.2.tree = last.tree ∨
    count = allowed ∧ answer.1 = .error (.limitExceeded setting.limit)

namespace Leaves

theorem of_no_finding {result : Except Failure (Option Finding)} {last : Progress}
    (accepted : progress.tree.check = .ok ())
    (pass : runPass setting progress = (result, last))
    (nothing : ∀ finding, result ≠ .ok (some finding)) (same : last.tree = progress.tree)
    (allowed : Nat) :
    Leaves setting allowed progress (runPasses setting allowed progress) 0 progress := by
  have left : (runPasses setting allowed progress).2.tree = progress.tree := by
    rcases result with failure | _ | finding
    · rw [runPasses_of_failure pass]
      exact same
    · rw [runPasses_of_nothing pass]
      exact same
    · exact absurd rfl (nothing finding)
  constructor
  case bounded => exact Nat.zero_le _
  case advances => exact .refl
  case accepted => exact accepted
  case allocates =>
    rw [left]
    exact .refl
  case tree_cases => exact .inl left

theorem of_exceeded {finding : Finding} {last : Progress}
    (accepted : progress.tree.check = .ok ())
    (pass : runPass setting progress = (.ok (some finding), last))
    (allocates : progress.tree.Allocates last.tree) :
    Leaves setting 0 progress (runPasses setting 0 progress) 0 progress := by
  rw [runPasses_zero_of_finding pass]
  constructor
  case bounded => exact Nat.le_refl _
  case advances => exact .refl
  case accepted => exact accepted
  case allocates => exact allocates
  case tree_cases => exact .inr ⟨rfl, rfl⟩

theorem edit {rule : String} {edit : Edit} {found last : Progress} {tree : Tree}
    {allowed count : Nat} (pass : runPass setting progress = (.ok (some ⟨rule, edit⟩), found))
    (replaced : found.tree.replace edit.target edit.replacement = .ok tree)
    (leaves : Leaves setting allowed
      ((found.report (.fired rule edit.target edit.description)).advance
        setting.permitImplicit tree)
      (runPasses setting allowed ((found.report (.fired rule edit.target edit.description)).advance
        setting.permitImplicit tree)) count last) :
    Leaves setting (allowed + 1) progress (runPasses setting (allowed + 1) progress)
      (count + 1) last := by
  have onward := runPasses_of_finding pass allowed
  rw [replaced] at onward
  rw [onward]
  constructor
  case bounded => exact Nat.succ_le_succ leaves.bounded
  case advances => exact .edit pass replaced leaves.advances
  case accepted => exact leaves.accepted
  case allocates => exact leaves.allocates
  case tree_cases =>
    exact leaves.tree_cases.imp_right fun ⟨all, result⟩ => ⟨congrArg (· + 1) all, result⟩

end Leaves

theorem exists_leaves (lawful : ∀ rule ∈ setting.rules, rule.IsLawful setting.options)
    (accepted : progress.tree.check = .ok ()) (allowed : Nat) :
    ∃ count last,
      Leaves setting allowed progress (runPasses setting allowed progress) count last := by
  induction allowed generalizing progress with
  | zero =>
      have pends := Pends.of_runPass lawful accepted
      generalize pass : runPass setting progress = answer at pends
      cases pends with
      | untouched nothing same => exact ⟨0, progress, .of_no_finding accepted pass nothing same 0⟩
      | waiting allocates _ _ => exact ⟨0, progress, .of_exceeded accepted pass allocates⟩
  | succ allowed ih =>
      have pends := Pends.of_runPass lawful accepted
      generalize pass : runPass setting progress = answer at pends
      cases pends with
      | untouched nothing same => exact ⟨0, progress, .of_no_finding accepted pass nothing same _⟩
      | @waiting rule edit found edited _ replaced sound =>
          have onward : ((found.report (.fired rule edit.target edit.description)).advance
              setting.permitImplicit edited).tree.check = .ok () := sound
          obtain ⟨count, last, leaves⟩ := ih onward
          exact ⟨count + 1, last, .edit pass replaced leaves⟩

/-! ## The whole run -/

theorem run_of_runPasses {rules : List Rule} {permitImplicit : Bool} {tree : Tree}
    {outcome : Outcome} {result : Except Failure Unit} {final : Progress}
    (ended : runPasses ⟨rules, options, permitImplicit, tree.editLimit⟩ tree.editLimit
      (.start permitImplicit options tree outcome) = (result, final)) :
    (run rules permitImplicit options tree outcome).tree = final.tree ∧
      ∀ failure, result = .error failure →
        (run rules permitImplicit options tree outcome).result = .error failure := by
  rw [run_eq_ofEnded, ended]
  cases result with
  | error cause => exact ⟨rfl, fun failure failed => by cases failed; rfl⟩
  | ok _ => exact ⟨rfl, fun failure failed => by cases failed⟩

/-- Where a run stops: `last` is what it knew after the last edit that was carried out. -/
structure Report.StopsAfter (report : Report) (setting : Setting) (start : Progress) (count : Nat)
    (last : Progress) : Prop where
  bounded : count ≤ setting.limit
  advances : Advances setting count start last
  accepted : last.tree.check = .ok ()
  expr : ∃ expr, last.tree.expr? root = some expr ∧ report.tree.expr? root = some expr
  check_iff : report.tree.check = .ok () ↔
    ∀ id, last.tree.Reaches root id → report.tree.parent id = last.tree.parent id
  tree_cases : report.tree = last.tree ∨
    count = setting.limit ∧ report.result = .error (.limitExceeded setting.limit)

/-- However a run of lawful rules ends, its tree reads as after the last edit that was carried
out. Only a run that exceeds its limit may have changed the tree after that edit, and then the
tree is sound just if no reachable node was given another parent. -/
theorem run_lawful {rules : List Rule} (lawful : ∀ rule ∈ rules, rule.IsLawful options)
    (permitImplicit : Bool) {tree : Tree} (accepted : tree.check = .ok ()) (outcome : Outcome) :
    ∃ count last, (run rules permitImplicit options tree outcome).StopsAfter
      ⟨rules, options, permitImplicit, tree.editLimit⟩
      (.start permitImplicit options tree outcome) count last := by
  let setting : Setting := ⟨rules, options, permitImplicit, tree.editLimit⟩
  have ruled : ∀ rule ∈ setting.rules, rule.IsLawful setting.options := lawful
  have started : (Progress.start permitImplicit options tree outcome).tree.check = .ok () :=
    accepted
  obtain ⟨count, last, leaves⟩ := exists_leaves ruled started tree.editLimit
  obtain ⟨layout, planted⟩ := Tree.check_eq_ok_iff.mp leaves.accepted
  generalize ended : runPasses setting tree.editLimit (.start permitImplicit options tree outcome) =
    answer at leaves
  obtain ⟨result, final⟩ := answer
  obtain ⟨left, failed⟩ := run_of_runPasses ended
  refine ⟨count, last, ?_⟩
  constructor
  case bounded => exact leaves.bounded
  case advances => exact leaves.advances
  case accepted => exact leaves.accepted
  case expr =>
    rw [left, planted.expr?_stored leaves.allocates]
    exact ⟨_, planted.expr?_root, planted.expr?_root⟩
  case check_iff =>
    rw [left]
    exact planted.check_stored_iff leaves.allocates
  case tree_cases =>
    rw [left]
    exact leaves.tree_cases.imp_right fun ⟨all, exceeded⟩ => ⟨all, failed _ exceeded⟩

/-- The call `a1x(y)`. -/
def regrowingCall : Tree where
  slots := #[⟨.root ⟨4⟩, none⟩, ⟨.group [], none⟩, ⟨.identifier "a1x", some ⟨4⟩⟩,
    ⟨.identifier "y", some ⟨4⟩⟩, ⟨.call ⟨2⟩ [⟨3⟩], some root⟩]

theorem run_lawful_regrowingCall :
    (∀ rule ∈ Detector.regrowing.map Detector.rule, rule.IsLawful {}) ∧
      regrowingCall.check = .ok () ∧
      ∃ count last, (run (Detector.regrowing.map Detector.rule) true {} regrowingCall
        .fresh).StopsAfter
        ⟨Detector.regrowing.map Detector.rule, {}, true, regrowingCall.editLimit⟩
        (.start true {} regrowingCall .fresh) count last := by
  have lawful (rule : Rule) (member : rule ∈ Detector.regrowing.map Detector.rule) :
      rule.IsLawful {} := Detector.isLawful_of_mem_regrowing member {}
  have accepted : regrowingCall.check = .ok () := by decide
  exact ⟨lawful, accepted, run_lawful lawful true accepted .fresh⟩

theorem regrowingCall_sprouts :
    ∃ layout, regrowingCall.Sprouts layout "a1x" ⟨2⟩ ⟨4⟩ [⟨3⟩] := by
  have accepted : regrowingCall.check = .ok () := by decide
  obtain ⟨layout, planted⟩ := Tree.check_eq_ok_iff.mp accepted
  have call : (⟨4⟩ : NodeId) ∈ layout.places :=
    planted.reaches_iff.mp (.child .refl (by decide))
  have names : ∀ index < 5,
      index = 2 ∨ regrowingCall.name? ⟨index⟩ ∈ [none, some "y"] := by decide
  refine ⟨layout, planted, planted.child_mem call (by decide), rfl, by decide, ?_⟩
  intro id inside other named
  have found := Tree.name?_eq_some_iff.mpr named
  rcases names id.index (planted.index_lt inside) with callee | listed
  · exact .inl (NodeId.eq_of_index_eq callee)
  · obtain rfl : other = "y" := by simpa [found] using listed
    exact .inr (by decide)

/-- The limit is exceeded by a split that has taken up `y`. It is never put in, so the call that
still holds `y` is not its parent. -/
theorem run_leaves_unsound :
    (∀ rule ∈ Detector.regrowing.map Detector.rule, rule.IsLawful {}) ∧
      regrowingCall.check = .ok () ∧
      (run (Detector.regrowing.map Detector.rule) true {} regrowingCall .fresh).result =
        .error (.limitExceeded 96) ∧
      (run (Detector.regrowing.map Detector.rule) true {} regrowingCall .fresh).tree.check ≠
        .ok () := by
  have lawful (rule : Rule) (member : rule ∈ Detector.regrowing.map Detector.rule) :
      rule.IsLawful {} := Detector.isLawful_of_mem_regrowing member {}
  have limit : regrowingCall.editLimit = 2 * 48 := by decide +kernel
  let setting : Setting :=
    ⟨Detector.regrowing.map Detector.rule, {}, true, regrowingCall.editLimit⟩
  let start : Progress := .start true {} regrowingCall .fresh
  have rules : setting.rules = Detector.regrowing.map Detector.rule := rfl
  obtain ⟨layout, sprouts⟩ := regrowingCall_sprouts
  have started : start.tree.Sprouts layout "a1x" ⟨2⟩ ⟨4⟩ [⟨3⟩] := sprouts
  obtain ⟨exceeded, unsound⟩ :=
    runPasses_exceeds rules rfl rfl started (List.cons_ne_nil _ _) 48
  rw [← limit] at exceeded unsound
  generalize ended : runPasses setting regrowingCall.editLimit start = answer at exceeded unsound
  obtain ⟨result, final⟩ := answer
  obtain ⟨left, failed⟩ := run_of_runPasses ended
  refine ⟨lawful, by decide, ?_, ?_⟩
  · rw [failed _ exceeded]
    show Except.error (Failure.limitExceeded regrowingCall.editLimit) = _
    rw [limit]
  · rw [left]
    exact unsound

end Juxtaposition.Normalization
