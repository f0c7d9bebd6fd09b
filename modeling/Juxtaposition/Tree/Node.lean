import Juxtaposition.Expr.Basic

/-!
# Nodes

The nodes of an expression stored in an arena. A node names its children by
their places in the arena, so one child can be exchanged without touching the
rest of the expression.
-/

set_option autoImplicit false

namespace Juxtaposition

structure NodeId where
  index : Nat
deriving DecidableEq

def NodeId.label (id : NodeId) : String :=
  "#" ++ toString id.index

/-- A node, with places for its subexpressions. The root node holds the whole
expression. -/
inductive Node where
  | root (body : NodeId)
  | identifier (name : String)
  | integer (value : Int64)
  | float (value : Binary64) (literal : Option String)
  | call (callee : NodeId) (arguments : List NodeId)
  | operation (operator : Operator) (lhs rhs : NodeId) (provenance : Provenance)
  | group (items : List NodeId)
  | negation (operand : NodeId)
deriving DecidableEq

namespace Node

def product (lhs rhs : NodeId) : Node :=
  operation .mul lhs rhs .missing

def children : Node → List NodeId
  | root body => [body]
  | identifier _ | integer _ | float _ _ => []
  | call callee arguments => callee :: arguments
  | operation _ lhs rhs _ => [lhs, rhs]
  | group items => items
  | negation operand => [operand]

def kind : Node → String
  | root _ => "Root"
  | identifier _ => "Identifier"
  | integer _ => "Integer"
  | float _ _ => "Float"
  | call _ _ => "FunctionCall"
  | operation _ _ _ _ => "Operation"
  | group _ => "Group"
  | negation _ => "Neg"

def isRoot : Node → Bool
  | root _ => true
  | _ => false

def name? : Node → Option String
  | identifier name => some name
  | _ => none

def textSize : Node → Nat
  | identifier name => name.utf8ByteSize
  | float _ (some literal) => literal.utf8ByteSize
  | _ => 0

def repointFirst? (old replacement : NodeId) : List NodeId → Option (List NodeId)
  | [] => none
  | item :: rest =>
      if item = old then some (replacement :: rest)
      else (repointFirst? old replacement rest).map (item :: ·)

/-- The node with `replacement` in its first child place that holds `old`. A
callee comes before the arguments, a left operand before a right one. -/
def repoint? (old replacement : NodeId) : Node → Option Node
  | root body => if body = old then some (root replacement) else none
  | identifier _ | integer _ | float _ _ => none
  | call callee arguments =>
      if callee = old then some (call replacement arguments)
      else (repointFirst? old replacement arguments).map (call callee)
  | operation operator lhs rhs provenance =>
      if lhs = old then some (operation operator replacement rhs provenance)
      else if rhs = old then some (operation operator lhs replacement provenance)
      else none
  | group items => (repointFirst? old replacement items).map group
  | negation operand => if operand = old then some (negation replacement) else none

end Node

end Juxtaposition
