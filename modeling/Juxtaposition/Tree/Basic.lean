import Juxtaposition.Tree.Error

/-!
# Trees in an arena

An arena of nodes with parent links. Storing a node appends it and makes it the
parent of its children, even of children that another node still lists. The old
holder is repaired by replacing it. Nodes are never removed: what a replacement
displaces stays behind, without a parent.
-/

set_option autoImplicit false

namespace Juxtaposition

structure Slot where
  node : Node
  parent : Option NodeId
deriving DecidableEq

/-- An arena whose first place is the root of the tree. -/
structure Tree where
  slots : Array Slot
deriving DecidableEq

namespace Tree

def root : NodeId := ⟨0⟩

def empty : Tree :=
  ⟨#[⟨.root ⟨1⟩, none⟩, ⟨.group [], some root⟩]⟩

def size (tree : Tree) : Nat :=
  tree.slots.size

/-- The node at a place. A place outside the arena reads as an empty group. -/
def node (tree : Tree) (id : NodeId) : Node :=
  (tree.slots[id.index]?.map Slot.node).getD (.group [])

def parent (tree : Tree) (id : NodeId) : Option NodeId :=
  tree.slots[id.index]?.bind Slot.parent

def children (tree : Tree) (id : NodeId) : List NodeId :=
  (tree.node id).children

def body? (tree : Tree) : Option NodeId :=
  match tree.node root with
  | .root body => some body
  | _ => none

/-- The root needs no holder. Every other attached node has one. -/
def isAttached (tree : Tree) (id : NodeId) : Bool :=
  decide (id = root) || (tree.parent id).isSome

def name? (tree : Tree) (id : NodeId) : Option String :=
  (tree.node id).name?

def callAt? (tree : Tree) (id : NodeId) : Option (NodeId × List NodeId) :=
  match tree.node id with
  | .call callee arguments => some (callee, arguments)
  | _ => none

def callHeadedBy? (tree : Tree) (id : NodeId) : Option (NodeId × List NodeId) :=
  match tree.parent id with
  | none => none
  | some holder =>
      match tree.callAt? holder with
      | some (callee, arguments) => if callee = id then some (holder, arguments) else none
      | none => none

def isCallee (tree : Tree) (id : NodeId) : Bool :=
  (tree.callHeadedBy? id).isSome

def withNode (tree : Tree) (id : NodeId) (node : Node) : Tree :=
  ⟨tree.slots.modify id.index fun slot => { slot with node }⟩

def withParent (tree : Tree) (id : NodeId) (parent : Option NodeId) : Tree :=
  ⟨tree.slots.modify id.index fun slot => { slot with parent }⟩

def adopt (tree : Tree) (holder : NodeId) (ids : List NodeId) : Tree :=
  ids.foldl (fun tree id => tree.withParent id (some holder)) tree

def next (tree : Tree) : NodeId := ⟨tree.size⟩

/-- Append a node and make it the parent of its children. The new node itself
has no parent. -/
def store (tree : Tree) (node : Node) : NodeId × Tree :=
  (tree.next, ⟨(tree.adopt tree.next node.children).slots.push ⟨node, none⟩⟩)

/-- A node followed by its parent, that parent's parent, and so on, at most
`bound` nodes in all. -/
def lineageWithin (tree : Tree) : Nat → NodeId → List NodeId
  | 0, _ => []
  | bound + 1, id =>
      id :: match tree.parent id with
        | none => []
        | some holder => tree.lineageWithin bound holder

/-- A node and all its ancestors. No more than the whole arena can be met. -/
def lineage (tree : Tree) (id : NodeId) : List NodeId :=
  tree.lineageWithin tree.size id

/-- Put the detached `replacement` where the attached `old` sits. The first
place of `old`'s parent that holds `old` is pointed at `replacement`, and `old`
is left without a parent. Replacing a node by itself changes nothing. -/
def replace (tree : Tree) (old replacement : NodeId) : Except TreeError Tree :=
  if old = replacement then .ok tree
  else if old = root then .error .rootReplacement
  else if replacement = root ∨ (tree.parent replacement).isSome then
    .error (.alreadyAttached replacement)
  else
    match tree.parent old with
    | none => .error (.detached old)
    | some holder =>
        if replacement ∈ tree.lineage holder then .error (.wouldCycle replacement)
        else
          match (tree.node holder).repoint? old replacement with
          | none => .error (.detached old)
          | some repointed =>
              .ok (((tree.withNode holder repointed).withParent replacement
                (some holder)).withParent old none)

def replaceBody (tree : Tree) (body : NodeId) : Except TreeError Tree :=
  match tree.body? with
  | some current => tree.replace current body
  | none => .error (.defective (.rootSlot (tree.node root).kind))

end Tree

end Juxtaposition
