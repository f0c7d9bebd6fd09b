import Juxtaposition.Options
import Juxtaposition.Tree.Basic

/-!
# Exempt names

Names that the rules leave alone: logarithms, which a later stage takes apart,
and names that the options declare safe.
-/

set_option autoImplicit false

namespace Juxtaposition

/-- `log10`, and every name that starts with `log_`. -/
def isLogarithmName (name : String) : Bool :=
  name = "log10" || "log_".toList.isPrefixOf name.toList

def Options.exemptsCallee (options : Options) (name : String) : Bool :=
  isLogarithmName name || options.safeAsFunction name

/-- Names that are kept whole. A safe variable is kept wherever it stands, a
safe function only as a callee. -/
def Options.exemptsName (options : Options) (isCallee : Bool) (name : String) : Bool :=
  isLogarithmName name || options.safeAsVariable name || isCallee && options.safeAsFunction name

/-- Whether the name at a place is kept whole. Other nodes have no name to
keep. -/
def Options.exempts (options : Options) (tree : Tree) (id : NodeId) : Bool :=
  match tree.name? id with
  | some name => options.exemptsName (tree.isCallee id) name
  | none => false

end Juxtaposition
