import Juxtaposition.Tree.Basic

/-!
# Walks

Visiting the nodes below a starting point with an explicit list of pending
visits, so that the order of visits is that of the list. A pending visit knows
how many levels below it may still be entered. A path without repetition is no
longer than the arena, so the limit cuts off only walks around a cycle.
-/

set_option autoImplicit false

namespace Juxtaposition

/-- A node still to be visited, with the number of levels it may open. -/
structure Visit where
  depth : Nat
  node : NodeId

namespace Visit

def cost (successors : NodeId → List NodeId) : Nat → NodeId → Nat
  | 0, _ => 1
  | depth + 1, id =>
      (successors id).foldr (fun child total => cost successors depth child + total) 1

def totalCost (successors : NodeId → List NodeId) : List Visit → Nat
  | [] => 0
  | visit :: pending => cost successors visit.depth visit.node + totalCost successors pending

theorem totalCost_tail (successors : NodeId → List NodeId) (id : NodeId)
    (pending : List Visit) :
    totalCost successors pending < totalCost successors (⟨0, id⟩ :: pending) := by
  simp only [totalCost, cost]
  omega

theorem totalCost_open (successors : NodeId → List NodeId) (depth : Nat) (id : NodeId)
    (pending : List Visit) :
    totalCost successors ((successors id).map (Visit.mk depth) ++ pending) <
      totalCost successors (⟨depth + 1, id⟩ :: pending) := by
  have opened (ids : List NodeId) :
      totalCost successors (ids.map (Visit.mk depth) ++ pending) + 1 =
        ids.foldr (fun child total => cost successors depth child + total) 1 +
          totalCost successors pending := by
    induction ids with
    | nil => exact Nat.add_comm _ _
    | cons child ids ih =>
        simp only [List.map_cons, List.cons_append, totalCost, List.foldr_cons]
        omega
  simp only [totalCost, cost]
  exact Nat.lt_of_succ_le (Nat.le_of_eq (opened (successors id)))

end Visit

/-- Visit the first pending node, then its successors, then the other pending
nodes. The walk ends at the first node that `stop` accepts, and the answer lists
all nodes visited up to there. -/
def walkUntil (stop : NodeId → Bool) (successors : NodeId → List NodeId) :
    List Visit → List NodeId
  | [] => []
  | ⟨0, _⟩ :: pending => walkUntil stop successors pending
  | ⟨depth + 1, id⟩ :: pending =>
      if stop id then [id]
      else id :: walkUntil stop successors ((successors id).map (Visit.mk depth) ++ pending)
termination_by pending => Visit.totalCost successors pending
decreasing_by
  · exact Visit.totalCost_tail successors _ pending
  · exact Visit.totalCost_open successors depth id pending

namespace Tree

def visitsFrom (tree : Tree) (start : NodeId) : List Visit :=
  [⟨tree.size, start⟩]

/-- All nodes below a starting point, parents before children, and children in
the order in which they are written. -/
def preorder (tree : Tree) (start : NodeId) : List NodeId :=
  walkUntil (fun _ => false) tree.children (tree.visitsFrom start)

/-- Like `preorder`, but the last child of a node comes first, and the walk
stops at the first node that satisfies `stop`. -/
def visitedUntil (tree : Tree) (stop : Node → Bool) (start : NodeId) : List NodeId :=
  walkUntil (fun id => stop (tree.node id)) (fun id => (tree.children id).reverse)
    (tree.visitsFrom start)

def existsNode (tree : Tree) (wanted : Node → Bool) (start : NodeId) : Bool :=
  (tree.visitedUntil wanted start).any fun id => wanted (tree.node id)

def countNodes (tree : Tree) (wanted : Node → Bool) (start : NodeId) : Nat :=
  (tree.visitedUntil (fun _ => false) start).countP fun id => wanted (tree.node id)

def countReachable (tree : Tree) (start : NodeId) : Nat :=
  tree.countNodes (fun _ => true) start

/-- How much there is to normalize: nodes, and bytes of names and literals. -/
structure Weight where
  nodes : Nat
  text : Nat
deriving DecidableEq

def weight (tree : Tree) (start : NodeId) : Weight :=
  (tree.visitedUntil (fun _ => false) start).foldl
    (fun weight id => ⟨weight.nodes + 1, weight.text + (tree.node id).textSize⟩) ⟨0, 0⟩

end Tree

end Juxtaposition
