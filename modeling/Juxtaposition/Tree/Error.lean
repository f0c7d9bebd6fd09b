import Juxtaposition.Tree.Node

/-!
# Structural errors

Why an edit of a tree is refused, and what can be wrong with the links of an
arena.
-/

set_option autoImplicit false

namespace Juxtaposition

inductive Defect where
  | rootSlot (kind : String)
  | rootAttached
  | reachedTwice (id : NodeId)
  | strayParent (child holder : NodeId)
  | rootBelow (child holder : NodeId)
deriving DecidableEq

def Defect.message : Defect → String
  | rootSlot kind => "root slot holds " ++ kind
  | rootAttached => "root has a parent"
  | reachedTwice id => "node " ++ id.label ++ " is reachable twice"
  | strayParent child holder =>
      "node " ++ child.label ++ " does not point back at its parent " ++ holder.label
  | rootBelow child holder =>
      "root node " ++ child.label ++ " appears below " ++ holder.label

inductive TreeError where
  | rootReplacement
  | detached (id : NodeId)
  | alreadyAttached (id : NodeId)
  | wouldCycle (id : NodeId)
  | defective (defect : Defect)
deriving DecidableEq

def TreeError.message : TreeError → String
  | rootReplacement => "the root node cannot be replaced"
  | detached id => "node " ++ id.label ++ " is not attached to the tree"
  | alreadyAttached id => "node " ++ id.label ++ " is already attached to a parent"
  | wouldCycle id => "placing node " ++ id.label ++ " there would make it its own ancestor"
  | defective defect => "internal error: " ++ defect.message

end Juxtaposition
