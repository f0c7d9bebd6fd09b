import Juxtaposition.Tree.Node

/-!
# Events

What a run reports while it works, for whoever wants to follow it.
-/

set_option autoImplicit false

namespace Juxtaposition

/-- Counts of a finished run. The last walk, in which nothing fires, is a pass
too. Skipped nodes are those with an oversized number. -/
structure Stats where
  edits : Nat
  passes : Nat
  skipped : Nat
deriving DecidableEq

inductive Severity where
  | debug
  | warning
deriving DecidableEq

/-- An event of a run. A number is too large, a limit is reached, or all goes
as it should. -/
inductive Event where
  | started (limit : Nat) (strictSyntax permitImplicit : Bool)
  | fired (rule : String) (target : NodeId) (description : String)
  | oversized (rule : String) (node : NodeId) (digits : String)
  | limitReached (rule : String) (limit : Nat)
  | finished (stats : Stats) (valid : Bool)
  | nothingParsed
deriving DecidableEq

namespace Event

/-- Only the two events that leave something undone are warnings. -/
def severity : Event → Severity
  | oversized _ _ _ | limitReached _ _ => .warning
  | started _ _ _ | fired _ _ _ | finished _ _ | nothingParsed => .debug

def message : Event → String
  | started _ _ _ => "rewrite_start"
  | fired _ _ _ => "rule_fired"
  | oversized _ _ _ => "digit run overflows an integer"
  | limitReached _ _ => "rewrite limit reached without a fixed point"
  | finished _ _ => "rewrite_fixed_point"
  | nothingParsed => "preparse produced no tree"

end Event

end Juxtaposition
