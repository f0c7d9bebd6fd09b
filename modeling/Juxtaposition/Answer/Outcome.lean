import Juxtaposition.Answer.Diagnostic
import Juxtaposition.Answer.Note

/-!
# Outcomes

What is known about one answer besides its expression. Validity can be lost but
not regained, and notes and diagnostics are only ever added.
-/

set_option autoImplicit false

namespace Juxtaposition

/-- The verdict on an answer, with notes and diagnostics in the order in which
they arose. -/
structure Outcome where
  valid : Bool := true
  notes : List Note := []
  diagnostics : List Diagnostic := []
deriving DecidableEq

namespace Outcome

def fresh : Outcome := {}

def reject (outcome : Outcome) : Outcome :=
  { outcome with valid := false }

def addNote (outcome : Outcome) (note : Note) : Outcome :=
  { outcome with notes := outcome.notes ++ [note] }

def addDiagnostic (outcome : Outcome) (diagnostic : Diagnostic) : Outcome :=
  { outcome with diagnostics := outcome.diagnostics ++ [diagnostic] }

def hasNote (outcome : Outcome) (note : Note) : Bool :=
  outcome.notes.contains note

end Outcome

end Juxtaposition
