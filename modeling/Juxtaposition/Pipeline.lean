import Juxtaposition.Answer.Explanation
import Juxtaposition.Normalization.Run

/-!
# The pipeline

The stages that an answer goes through: a parser, a hook, the normalization,
another hook, and the explanation. Parser and hooks belong to the application
and may have effects of their own.
-/

set_option autoImplicit false

namespace Juxtaposition

/-- A stage of the application, which may edit the tree and the outcome. -/
abbrev Hook (m : Type → Type) := Options → Tree → Outcome → m (Tree × Outcome)

/-- A parser of typed answers. It is told whether products may be supplied and
whether spaces may be fixed, gives no tree for a text it cannot parse, and says
why in the outcome. -/
abbrev AnswerParser (m : Type → Type) :=
  String → (insertStars fixSpaces : Bool) → Outcome → m (Option Tree × Outcome)

/-- The settings of the pipeline. With `insertStars`, supplied products are
permitted. -/
structure Pipeline (m : Type → Type) where
  insertStars : Bool
  fixSpaces : Bool
  before : Option (Hook m) := none
  after : Option (Hook m) := none
  rules : List Rule := Rule.standard

/-- What becomes of a typed answer. There is a tree when the text parses and
the run succeeds. -/
structure ParseReport where
  result : Except Failure (Option Tree)
  outcome : Outcome
  log : List Event

namespace Pipeline

variable {m : Type → Type} [Monad m]

def runHook (hook : Option (Hook m)) (options : Options) (tree : Tree) (outcome : Outcome) :
    m (Tree × Outcome) :=
  match hook with
  | some hook => hook options tree outcome
  | none => pure (tree, outcome)

/-- Run the stages after the parser. When the run fails, the second hook and the
explanation are left out. -/
def process (pipeline : Pipeline m) (options : Options) (tree : Tree) (outcome : Outcome) :
    m Normalization.Report := do
  let (tree, outcome) ← runHook pipeline.before options tree outcome
  let report := Normalization.run pipeline.rules pipeline.insertStars options tree outcome
  match report.result with
  | .error _ => return report
  | .ok _ =>
      let (tree, outcome) ← runHook pipeline.after options report.tree report.outcome
      return { report with tree := tree, outcome := outcome.explain tree }

/-- Run all stages. A text without a tree ends the pipeline early. -/
def parse (pipeline : Pipeline m) (answerParser : AnswerParser m) (options : Options)
    (input : String) (outcome : Outcome) : m ParseReport := do
  match ← answerParser input pipeline.insertStars pipeline.fixSpaces outcome with
  | (none, outcome) => return ⟨.ok none, outcome, [.nothingParsed]⟩
  | (some tree, outcome) =>
      let report ← pipeline.process options tree outcome
      return ⟨report.result.map fun _ => some report.tree, report.outcome, report.log⟩

end Pipeline

end Juxtaposition
