import Juxtaposition.Answer.Outcome
import Juxtaposition.Normalization.Event
import Juxtaposition.Normalization.Order
import Juxtaposition.Rule.Battery

/-!
# Runs

Editing a tree until no rule has anything to propose. Each pass walks the tree
from its root and tries the rules in order at every node. The first proposal is
carried out, and the next pass starts at the root again. A node with an
oversized number is reported once and passed over for the rest of the run.
-/

set_option autoImplicit false

namespace Juxtaposition.Normalization

structure Setting where
  rules : List Rule
  options : Options
  permitImplicit : Bool
  limit : Nat

structure Progress where
  tree : Tree
  outcome : Outcome
  skipped : List NodeId := []
  edits : Nat := 0
  passes : Nat := 0
  log : List Event := []

structure Finding where
  rule : String
  edit : Edit
deriving DecidableEq

namespace Progress

def report (progress : Progress) (event : Event) : Progress :=
  { progress with log := progress.log ++ [event] }

def stats (progress : Progress) : Stats :=
  ⟨progress.edits, progress.passes, progress.skipped.length⟩

def skip (progress : Progress) (rule digits : String) (id : NodeId) : Progress :=
  { progress.report (.oversized rule id digits) with
    skipped := id :: progress.skipped
    outcome :=
      (progress.outcome.reject.addNote .integerOverflow).addDiagnostic
        (.integerOverflow digits) }

/-- Count an edit that gave `tree`, and note that a product was supplied. The
answer stays valid only where supplying products is permitted. -/
def advance (progress : Progress) (permitImplicit : Bool) (tree : Tree) : Progress :=
  let noted := progress.outcome.addNote .missingStars
  { progress with
    tree := tree
    edits := progress.edits + 1
    outcome := if permitImplicit then noted else noted.reject }

end Progress

/-- Try rules in order at one node, up to the first that does not decline. An
oversized number ends the attempt without a finding. -/
def tryRules (options : Options) (id : NodeId) :
    List Rule → Progress → Except Failure (Option Finding) × Progress
  | [], progress => (.ok none, progress)
  | rule :: rest, progress =>
      let (result, tree) := rule.apply options progress.tree id
      let progress := { progress with tree := tree }
      match result with
      | .ok (some edit) => (.ok (some ⟨rule.name, edit⟩), progress)
      | .ok none => tryRules options id rest progress
      | .error (.integerOverflow digits) => (.ok none, progress.skip rule.name digits id)
      | .error error => (.error error, progress)

def search (setting : Setting) :
    List NodeId → Progress → Except Failure (Option Finding) × Progress
  | [], progress => (.ok none, progress)
  | id :: rest, progress =>
      if id ∈ progress.skipped then search setting rest progress
      else
        match tryRules setting.options id setting.rules progress with
        | (.ok none, progress) => search setting rest progress
        | found => found

def runPass (setting : Setting) (progress : Progress) :
    Except Failure (Option Finding) × Progress :=
  search setting progress.tree.passOrder { progress with passes := progress.passes + 1 }

/-- Passes until nothing is found, carrying out at most `remaining` more
findings. A finding beyond that is reported and not carried out. -/
def runPasses (setting : Setting) (remaining : Nat) (progress : Progress) :
    Except Failure Unit × Progress :=
  match runPass setting progress with
  | (.error error, progress) => (.error error, progress)
  | (.ok none, progress) => (.ok (), progress)
  | (.ok (some ⟨rule, edit⟩), progress) =>
      match remaining with
      | 0 =>
          (.error (.limitExceeded setting.limit),
            progress.report (.limitReached rule setting.limit))
      | remaining + 1 =>
          let progress := progress.report (.fired rule edit.target edit.description)
          match progress.tree.replace edit.target edit.replacement with
          | .error error => (.error (.tree error), progress)
          | .ok tree =>
              runPasses setting remaining (progress.advance setting.permitImplicit tree)

structure Report where
  result : Except Failure Stats
  tree : Tree
  outcome : Outcome
  log : List Event

/-- Edit a tree until no rule fires. The number of edits is bounded by the
size of the tree at the start. -/
def run (rules : List Rule) (permitImplicit : Bool) (options : Options) (tree : Tree)
    (outcome : Outcome) : Report :=
  let limit := tree.editLimit
  let start : Progress :=
    { tree := tree
      outcome := outcome
      log := [.started limit options.strictSyntax permitImplicit] }
  match runPasses ⟨rules, options, permitImplicit, limit⟩ limit start with
  | (.error error, progress) => ⟨.error error, progress.tree, progress.outcome, progress.log⟩
  | (.ok (), progress) =>
      let finished := progress.report (.finished progress.stats progress.outcome.valid)
      ⟨.ok progress.stats, finished.tree, finished.outcome, finished.log⟩

def runStandard (permitImplicit : Bool) (options : Options) (tree : Tree) (outcome : Outcome) :
    Report :=
  run Rule.standard permitImplicit options tree outcome

end Juxtaposition.Normalization
