import Juxtaposition.Rule.Draft
import Juxtaposition.Rule.Exemption
import Juxtaposition.Text.Pieces

/-!
# Calls that are products

Rules on calls whose callee is no function: a call, a parenthesised list, or a
name that no function has. The callee is multiplied by the parenthesised
arguments.
-/

set_option autoImplicit false

namespace Juxtaposition

/-- Only calls and groups can be multiplied by what follows them without being
names. -/
def Node.isCallOrGroup : Node → Bool
  | call _ _ | group _ => true
  | _ => false

def Proposal.ofCall (id callee : NodeId) (arguments : List NodeId) (description : String) :
    Proposal :=
  ⟨id, .product (.kept callee) (.group arguments), description⟩

/-- `a(x)(y)` and `(x)(y)` are products. -/
def Rule.detectCallOfCall (_ : Options) (tree : Tree) (id : NodeId) : Detection :=
  match tree.callAt? id with
  | none => .ok none
  | some (callee, arguments) =>
      if (tree.node callee).isCallOrGroup then
        .ok (some (.ofCall id callee arguments "call of a call is a product"))
      else .ok none

/-- Why a name cannot be that of a function, if it cannot. -/
def Options.nonFunction? (options : Options) (name : String) : Option String :=
  if options.exemptsCallee name then none
  else if Text.endsInDigit name then some "function names may not end in a digit"
  else if name = "i" then some "i is the imaginary unit, not a function"
  else if !options.strictSyntax && name.length == 1 then
    some "single-letter names are not functions"
  else none

/-- `f2(x)` and `i(x)` are products, and so is `f(x)` outside strict syntax. -/
def Rule.detectFunctionNameShape (options : Options) (tree : Tree) (id : NodeId) : Detection :=
  match tree.callAt? id with
  | none => .ok none
  | some (callee, arguments) =>
      .ok do
        let name ← tree.name? callee
        let reason ← options.nonFunction? name
        return .ofCall id callee arguments reason

def Rule.callOfCall : Rule := .ofDetector "Call Of Call" detectCallOfCall

def Rule.functionNameShape : Rule := .ofDetector "Function Name Shape" detectFunctionNameShape

end Juxtaposition
