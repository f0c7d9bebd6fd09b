import Juxtaposition.Proofs.Normalization.Bookkeeping
import Juxtaposition.Proofs.Normalization.Reported
import Juxtaposition.Proofs.Normalization.Standard
import Juxtaposition.Proofs.Rule.Integers

/-!
# Oversized numbers of a run

A run of the standard rules reports every oversized run of digits of its expression, each of
them once, and leaves the text of it alone. The integers that it makes are those that digits
spell out.
-/

set_option autoImplicit false

namespace Juxtaposition

/-! ## What a run keeps -/

def Event.number? : Event → Option (NodeId × String)
  | oversized _ node digits => some (node, digits)
  | _ => none

/-- An integer that digits in an older leaf spell out. -/
def Tree.SpellsOut (tree : Tree) (id : NodeId) (value : Int64) : Prop :=
  ∃ source leaf, source.index < id.index ∧ (tree.node source).leaf? = some leaf ∧
    leaf.Spells value.toInt

theorem Tree.KeepsLeaves.spellsOut {tree later : Tree} {id : NodeId} {value : Int64}
    (keeps : tree.KeepsLeaves later) (spelled : tree.SpellsOut id value) :
    later.SpellsOut id value := by
  obtain ⟨source, leaf, older, found, spells⟩ := spelled
  exact ⟨source, leaf, older, keeps.leaf_eq_some found, spells⟩

namespace Normalization

open Juxtaposition.Tree (root)

structure Exact (options : Options) (start : Tree) (progress : Progress) : Prop where
  leaves : start.KeepsLeaves progress.tree
  integers : ∀ (id : NodeId) value, start.size ≤ id.index →
    progress.tree.node id = .integer value → progress.tree.SpellsOut id value
  numbers : ∀ id digits, (id, digits) ∈ progress.log.filterMap Event.number? →
    ∃ leaf run, (progress.tree.node id).leaf? = some leaf ∧
      (PlacedLeaf.mk leaf false).runs options = [run] ∧ run.digits = digits

namespace Exact

variable {options : Options} {start later : Tree} {progress : Progress} {setting : Setting}

/-- A change of the arena keeps exactness, if it adds no integers but those spelled out. -/
theorem move (exact : Exact options start progress) (keeps : progress.tree.KeepsLeaves later)
    (added : ∀ id value, later.node id = .integer value →
      progress.tree.node id = .integer value ∨ later.SpellsOut id value) :
    Exact options start { progress with tree := later } where
  leaves := exact.leaves.trans keeps
  integers id value fresh found := by
    rcases added id value found with earlier | spelled
    · exact keeps.spellsOut (exact.integers id value fresh earlier)
    · exact spelled
  numbers id digits member := by
    obtain ⟨leaf, run, found, facts⟩ := exact.numbers id digits member
    exact ⟨leaf, run, keeps.leaf_eq_some found, facts⟩

theorem store (exact : Exact options start progress) {id target : NodeId} {draft : Draft}
    (proposed : (progress.tree.verdict options id).gist = .ok (some (target, draft))) :
    Exact options start { progress with tree := (draft.store progress.tree).2 } := by
  have keeps := draft.store_keepsLeaves progress.tree
  apply exact.move keeps
  intro other value found
  rcases Nat.lt_or_ge other.index progress.tree.size with inside | fresh
  · have same := keeps.leaf other inside
    rw [found] at same
    exact .inl (Node.leaf?_eq_some_iff.mp same.symm)
  · obtain ⟨leaf, source, spells⟩ := Tree.addsSpelled_store proposed other value fresh found
    have older := Tree.index_lt_of_leaf source
    exact .inr ⟨id, leaf, Nat.lt_of_lt_of_le older fresh, keeps.leaf_eq_some source, spells⟩

theorem skip (exact : Exact options start progress) {id : NodeId} {number : Oversized}
    (judged : (progress.tree.verdict options id).gist = .error number) (rule : String) :
    Exact options start (progress.skip rule number.digits id) where
  leaves := exact.leaves
  integers := exact.integers
  numbers other digits member := by
    simp only [Progress.skip, Progress.report, List.filterMap_append, List.mem_append] at member
    rcases member with earlier | new
    · exact exact.numbers other digits earlier
    · simp only [List.filterMap_cons, Event.number?, List.filterMap_nil, List.mem_singleton,
        Prod.mk.injEq] at new
      obtain ⟨rfl, rfl⟩ := new
      obtain ⟨run, reported, same⟩ := Tree.exists_reportedFor judged
      have text := reported.text
      cases found : (progress.tree.node other).leaf? with
      | none => rw [found] at text; cases text
      | some leaf => exact ⟨leaf, run, found, reported.alone leaf found, same⟩

/-- No move of a run of the standard rules destroys exactness. -/
theorem keeps (rules : setting.rules = Rule.standard) (start : Tree) :
    setting.Keeps (Exact setting.options start) where
  pass _ exact := ⟨exact.leaves, exact.integers, exact.numbers⟩
  tried progress later id tries exact := by
    have tried := tries.result
    rw [rules, tryRules_standard] at tried
    cases verdict : progress.tree.verdict setting.options id with
    | declined =>
        rw [verdict] at tried
        cases tried
        exact exact
    | oversized rule number =>
        rw [verdict] at tried
        cases tried
        exact exact.skip (by rw [verdict]; rfl) rule
    | proposed rule proposal => rw [verdict] at tried; cases tried
  edit progress found id rule edit tree tries replaced exact := by
    have tried := tries.result
    rw [rules, tryRules_standard] at tried
    cases verdict : progress.tree.verdict setting.options id with
    | declined => rw [verdict] at tried; cases tried
    | oversized rule number => rw [verdict] at tried; cases tried
    | proposed rule proposal =>
        rw [verdict] at tried
        cases tried
        have proposed : (progress.tree.verdict setting.options id).gist =
            .ok (some (proposal.target, proposal.draft)) := by rw [verdict]; rfl
        have stored := exact.store proposed
        have moved := stored.move (Tree.keepsLeaves_replace replaced) fun id value found => by
          have same := Tree.leaf?_replace replaced id
          rw [found] at same
          exact .inl (Node.leaf?_eq_some_iff.mp same.symm)
        refine ⟨moved.leaves, moved.integers, fun id digits member => ?_⟩
        apply moved.numbers id digits
        simpa [Progress.advance, Progress.report, Event.number?] using member

theorem begins (permitImplicit : Bool) (options : Options) (tree : Tree) (outcome : Outcome) :
    Exact options tree (.start permitImplicit options tree outcome) where
  leaves := .refl tree
  integers id value fresh found := by
    exact absurd fresh (Nat.not_le_of_lt (Tree.index_lt_of_integer found))
  numbers id digits member := by
    simp [Progress.start, Event.number?] at member

end Exact

/-- A rule makes no integer but those that the leaf it is tried at spells out. -/
theorem addsSpelled_of_tryRules {options : Options} {id : NodeId} {progress after : Progress}
    {finding : Finding}
    (found : tryRules options id Rule.standard progress = (.ok (some finding), after)) :
    progress.tree.AddsSpelled after.tree id := by
  rw [tryRules_standard] at found
  cases verdict : progress.tree.verdict options id with
  | declined => rw [verdict] at found; cases found
  | oversized rule number => rw [verdict] at found; cases found
  | proposed rule proposal =>
      rw [verdict] at found
      cases found
      exact Tree.addsSpelled_store (by rw [verdict]; rfl)

/-! ## Reports -/

/-- What a report says of the oversized runs of the expression before: each of them belongs to
another node that can be reached, and this node keeps its text. New integers are spelled out. -/
structure Report.Accounts (report : Report) (options : Options) (tree : Tree) (outcome : Outcome)
    (expr : Expr) (reported : List (NodeId × OversizedRun)) : Prop where
  runs : (reported.map Prod.snd).Perm (expr.oversizedRuns options)
  diagnostics : report.outcome.diagnostics =
    outcome.diagnostics ++ reported.map fun number => .integerOverflow number.2.digits
  log : report.log.filterMap Event.number? =
    reported.map fun number => (number.1, number.2.digits)
  distinct : (reported.map Prod.fst).Nodup
  kept : ∀ id run, (id, run) ∈ reported →
    report.tree.Reaches root id ∧
      (report.tree.node id).leaf?.bind Leaf.text? = some run.text ∧
      (id.index < tree.size → report.tree.node id = tree.node id)
  integers : ∀ (id : NodeId) value, tree.size ≤ id.index →
    report.tree.node id = .integer value → report.tree.SpellsOut id value

section Reported

variable {tree : Tree} {options : Options} {reported : List (NodeId × OversizedRun)}

/-- Every number with a run of the same digits at its node. -/
private theorem exists_runs {numbers : List (NodeId × String)}
    (each : ∀ id digits, (id, digits) ∈ numbers →
      ∃ run, tree.ReportedFor options id run ∧ run.digits = digits) :
    ∃ reported : List (NodeId × OversizedRun),
      (reported.map fun number => (number.1, number.2.digits)) = numbers ∧
        ∀ id run, (id, run) ∈ reported → tree.ReportedFor options id run := by
  induction numbers with
  | nil => exact ⟨[], rfl, nofun⟩
  | cons first rest ih =>
      obtain ⟨id, digits⟩ := first
      obtain ⟨run, here, same⟩ := each id digits List.mem_cons_self
      obtain ⟨reported, numbers, found⟩ := ih fun id digits member =>
        each id digits (List.mem_cons_of_mem _ member)
      refine ⟨(id, run) :: reported, by rw [List.map_cons, same, numbers], ?_⟩
      intro other otherRun member
      rcases List.mem_cons.mp member with new | later
      · cases new
        exact here
      · exact found other otherRun later

private theorem flatMap_runsAt
    (found : ∀ id run, (id, run) ∈ reported → tree.ReportedFor options id run) :
    (reported.map Prod.fst).flatMap (tree.runsAt options) = reported.map Prod.snd := by
  rw [List.flatMap_map, List.map_eq_flatMap]
  apply List.flatMap_congr
  intro number member
  exact (found number.1 number.2 member).here

private theorem number?_event (entry : Entry) : entry.event.number? = entry.number? := by
  cases entry <;> rfl

/-- The nodes that a settled run has logged have the runs that it has logged. -/
private theorem Settled.exists_reported {layout : Layout} {start : Tree} {final : Progress}
    {numbers : List (NodeId × String)} (settled : Settled options layout final)
    (exact : Exact options start final) (logged : final.log.filterMap Event.number? = numbers)
    (skipped : final.skipped = (numbers.map Prod.fst).reverse) :
    ∃ reported : List (NodeId × OversizedRun),
      (reported.map fun number => (number.1, number.2.digits)) = numbers ∧
        ∀ id run, (id, run) ∈ reported → final.tree.ReportedFor options id run := by
  apply exists_runs
  intro id digits member
  have inSkipped : id ∈ final.skipped := by
    rw [skipped, List.mem_reverse]
    exact List.mem_map_of_mem member
  obtain ⟨run, reportedFor⟩ := settled.exists_reportedFor inSkipped
  obtain ⟨leaf, earlier, found, alone, digits⟩ := exact.numbers id digits (by rwa [logged])
  obtain rfl : run = earlier := by
    rw [reportedFor.alone leaf found] at alone
    exact List.singleton_inj.mp alone
  exact ⟨run, reportedFor, digits⟩

end Reported

/-- A run reports each oversized run of digits of its expression once, and wraps no number:
whatever rule is carried out, its integers are those of the leaf that it was tried at. -/
theorem runStandard_reports {tree : Tree} (sound : tree.check = .ok ()) (permitImplicit : Bool)
    (options : Options) (outcome : Outcome) :
    (∃ expr stats reported, tree.expr? root = some expr ∧
      (runStandard permitImplicit options tree outcome).result = .ok stats ∧
      (runStandard permitImplicit options tree outcome).Accounts options tree outcome expr
        reported) ∧
    ∀ id progress finding after,
      tryRules options id Rule.standard progress = (.ok (some finding), after) →
      progress.tree.AddsSpelled after.tree id := by
  refine ⟨?_, fun id progress finding after found => addsSpelled_of_tryRules found⟩
  obtain ⟨layout, planted⟩ := Tree.check_eq_ok_iff.mp sound
  obtain ⟨final, next, count, ended, settled, steps, _⟩ :=
    exists_ended planted permitImplicit options outcome
  obtain ⟨result, same, judged⟩ := runStandard_of_runPasses ended
  have exact : Exact options tree final :=
    (Exact.keeps rfl tree).of_ended (Exact.begins permitImplicit options tree outcome) ended
  have proceeds := Proceeds.runPasses .refl ended
  obtain ⟨entries, recorded, _⟩ := proceeds.exists_recorded
  have logged : final.log.filterMap Event.number? = Entry.numbers entries := by
    rw [recorded.log, List.filterMap_append, List.filterMap_map]
    exact congrArg (List.filterMap · entries) (funext number?_event)
  have skipped : final.skipped = ((Entry.numbers entries).map Prod.fst).reverse :=
    recorded.skipped.trans (List.append_nil _)
  obtain ⟨reported, numbers, found⟩ := settled.exists_reported exact logged skipped
  have places : reported.map Prod.fst = final.skipped.reverse := by
    rw [skipped, List.reverse_reverse, ← numbers, List.map_map]
    rfl
  refine ⟨tree.exprAlong layout, final.stats, reported, planted.expr?_root, result, ?_⟩
  constructor
  case runs =>
    rw [← flatMap_runsAt found, places, ← steps.oversizedRuns_eq]
    exact ((List.reverse_perm _).flatMap_right _).trans settled.skipped_runs
  case diagnostics =>
    rw [judged, recorded.diagnostics, ← numbers, List.map_map]
    rfl
  case log =>
    rw [log_runStandard_of_runPasses ended, List.filterMap_append, logged, numbers]
    exact List.append_nil _
  case distinct =>
    rw [places, List.nodup_reverse]
    exact settled.consistent.nodup
  case kept =>
    intro id run member
    rw [same]
    have inSkipped : id ∈ final.skipped := by
      rw [← List.mem_reverse, ← places]
      exact List.mem_map_of_mem member
    refine ⟨?_, (found id run member).text, (found id run member).node_eq exact.leaves⟩
    exact settled.consistent.planted.reaches_iff.mpr (settled.mem_skipped_iff.mp inSkipped).1
  case integers =>
    rw [same]
    exact exact.integers

/-- The run of `a2b(x)(99999999999999999999y)` reports one number. -/
theorem runStandard_reports_nestedCall :
    nestedCall.check = .ok () ∧
      ∃ id, (runStandard true {} nestedCall .fresh).outcome.diagnostics =
          [.integerOverflow "99999999999999999999"] ∧
        (runStandard true {} nestedCall .fresh).Accounts {} nestedCall .fresh
          (.call (.call (.identifier "a2b") [.identifier "x"])
            [.identifier "99999999999999999999y"])
          [(id, ⟨"99999999999999999999y", "99999999999999999999"⟩)] := by
  have sound : nestedCall.check = .ok () := by decide
  obtain ⟨⟨expr, stats, reported, read, _, accounts⟩, _⟩ :=
    runStandard_reports sound true {} .fresh
  cases read
  have runs : (reported.map Prod.snd).Perm
      [⟨"99999999999999999999y", "99999999999999999999"⟩] := accounts.runs
  obtain ⟨⟨id, run⟩, rfl, same⟩ := List.map_eq_singleton_iff.mp (List.perm_singleton.mp runs)
  cases same
  exact ⟨sound, id, accounts.diagnostics, accounts⟩

end Normalization

end Juxtaposition
