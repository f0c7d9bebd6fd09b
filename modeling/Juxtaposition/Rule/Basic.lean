import Juxtaposition.Options
import Juxtaposition.Text.Numeral
import Juxtaposition.Tree.Basic

/-!
# Rules

A rule looks at one node and may propose to put something else in its place, or
in the place of the call it belongs to. The proposal's replacement is already
stored in the arena but not yet attached.
-/

set_option autoImplicit false

namespace Juxtaposition

structure Edit where
  target : NodeId
  replacement : NodeId
  description : String
deriving DecidableEq

inductive Failure where
  | integerOverflow (digits : String)
  | limitExceeded (limit : Nat)
  | tree (error : TreeError)
deriving DecidableEq

def Failure.message : Failure → String
  | integerOverflow digits => "integer '" ++ digits ++ "' is too large to represent"
  | limitExceeded limit =>
      "rewrite did not reach a fixed point within " ++ toString limit ++ " rewrites"
  | tree error => error.message

def Failure.ofOversized (oversized : Oversized) : Failure :=
  integerOverflow oversized.digits

abbrev RuleResult := Except Failure (Option Edit) × Tree

structure Rule where
  name : String
  apply : Options → Tree → NodeId → RuleResult

end Juxtaposition
