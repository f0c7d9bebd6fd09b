import Juxtaposition.Options
import Juxtaposition.Pipeline

/-!
# Configuration

The settings that an application keeps on disk. They give both the options of a
run and the settings of the pipeline.
-/

set_option autoImplicit false

namespace Juxtaposition

/-- Stored settings, in the order in which they are written. Lists of names
keep their order and their repetitions. -/
structure Config where
  insertStars : Bool := false
  fixSpaces : Bool := false
  strictSyntax : Bool := false
  safeVariables : List String := []
  safeFunctions : List String := []
deriving DecidableEq

namespace Config

def options (config : Config) : Options :=
  (({ strictSyntax := config.strictSyntax } : Options).addSafeVariables
    config.safeVariables).addSafeFunctions config.safeFunctions

def pipeline (config : Config) (m : Type → Type) : Pipeline m where
  insertStars := config.insertStars
  fixSpaces := config.fixSpaces

end Config

end Juxtaposition
