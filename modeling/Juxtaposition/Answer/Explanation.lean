import Juxtaposition.Answer.Outcome
import Juxtaposition.Text.Placeholder
import Juxtaposition.Tree.Reading
import Juxtaposition.Tree.Walk

/-!
# Explaining a rejection

A rejected answer is explained by quoting it with its supplied products marked.
A note says that products were supplied and a supplied product says where, so an
explanation needs both. Accepted answers are not explained.
-/

set_option autoImplicit false

namespace Juxtaposition

def Node.isProduct (provenance : Provenance) : Node → Bool
  | operation .mul _ _ found => found = provenance
  | _ => false

namespace Tree

def hasProduct (tree : Tree) (provenance : Provenance) : Bool :=
  tree.existsNode (Node.isProduct provenance) root

def quotation (tree : Tree) (highlight : Highlight) : String :=
  Text.restoreQuestionMarks (tree.render highlight root)

end Tree

namespace Outcome

def explanation? (outcome : Outcome) (tree : Tree) (note : Note) (provenance : Provenance)
    (highlight : Highlight) (explain : String → Diagnostic) : Option Diagnostic :=
  if outcome.hasNote note && tree.hasProduct provenance then
    some (explain (tree.quotation highlight))
  else none

/-- All explanations of a rejected answer, missing products before spaced
ones. -/
def explanations (outcome : Outcome) (tree : Tree) : List Diagnostic :=
  if outcome.valid then []
  else
    (outcome.explanation? tree .missingStars .missing .missing .missingStars).toList ++
      (outcome.explanation? tree .spaces .whitespace .whitespace .spaces).toList

def explain (outcome : Outcome) (tree : Tree) : Outcome :=
  { outcome with diagnostics := outcome.diagnostics ++ outcome.explanations tree }

end Outcome

end Juxtaposition
