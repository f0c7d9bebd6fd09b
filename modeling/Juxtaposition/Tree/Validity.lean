import Juxtaposition.Tree.Basic

/-!
# Checking the links of a tree

The nodes reachable from the root must form a tree: each is met once, each
child points back at the node that holds it, and no root node lies below the
root.
-/

set_option autoImplicit false

namespace Juxtaposition.Tree

def linkDefect? (tree : Tree) (id : NodeId) : Option Defect :=
  (tree.children id).findSome? fun child =>
    if tree.parent child ≠ some id then some (.strayParent child id)
    else if (tree.node child).isRoot then some (.rootBelow child id)
    else none

/-- The first defect met on the way down from the pending nodes. The last child
of a node is visited before its siblings. Every visit marks another node as
seen, so `bound` visits are enough when it exceeds the size of the arena. -/
def reachableDefect? (tree : Tree) : (bound : Nat) → (seen pending : List NodeId) →
    Option Defect
  | 0, _, _ => none
  | _ + 1, _, [] => none
  | bound + 1, seen, id :: pending =>
      if id ∈ seen then some (.reachedTwice id)
      else
        match tree.linkDefect? id with
        | some defect => some defect
        | none =>
            tree.reachableDefect? bound (id :: seen) ((tree.children id).reverse ++ pending)

def defect? (tree : Tree) : Option Defect :=
  if !(tree.node root).isRoot then some (.rootSlot (tree.node root).kind)
  else if (tree.parent root).isSome then some .rootAttached
  else tree.reachableDefect? (tree.size + 1) [] [root]

def check (tree : Tree) : Except TreeError Unit :=
  match tree.defect? with
  | some defect => .error (.defective defect)
  | none => .ok ()

end Juxtaposition.Tree
