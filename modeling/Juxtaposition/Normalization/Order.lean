import Juxtaposition.Tree.Walk

/-!
# The order of visits

The order in which a pass looks at the nodes of a tree. A name is looked at
before the call it heads, so a name with digits comes apart before its call is
read in another way.
-/

set_option autoImplicit false

namespace Juxtaposition.Tree

def namedCall? (tree : Tree) (id : NodeId) : Option (NodeId × List NodeId) :=
  match tree.callAt? id with
  | some (callee, arguments) =>
      if (tree.name? callee).isSome then some (callee, arguments) else none
  | none => none

/-- The children to be visited after a node. A callee that is a name has had
its visit together with the call. -/
def visitSuccessors (tree : Tree) (id : NodeId) : List NodeId :=
  match tree.namedCall? id with
  | some (_, arguments) => arguments
  | none => tree.children id

def visitTurn (tree : Tree) (id : NodeId) : List NodeId :=
  match tree.namedCall? id with
  | some (callee, _) => [callee, id]
  | none => [id]

def passOrder (tree : Tree) : List NodeId :=
  (walkUntil (fun _ => false) tree.visitSuccessors (tree.visitsFrom root)).flatMap tree.visitTurn

/-- The most edits a run may make. An edit by the standard rules uses up
part of a name or a literal, or turns a call into a product, so they stay far
below it. -/
def editLimit (tree : Tree) : Nat :=
  let weight := tree.weight root
  8 * (weight.nodes + weight.text) + 32

end Juxtaposition.Tree
