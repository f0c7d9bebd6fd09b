import Juxtaposition.Rule.Basic

/-!
# Drafts of replacements

A replacement as a rule describes it, before any of it is stored. A draft
refers to nodes that are kept, and every operation it adds stands for a missing
operator. Rules that work by drafts read all they need before anything is
stored, so a rule that fails or proposes nothing leaves the arena as it was.
-/

set_option autoImplicit false

namespace Juxtaposition

/-- A subtree to be built from new nodes and kept ones. Only new names are called.
An operation stores its left operand first. A factor is a product too, but stores the rest before the
factor, so a chain of factors is stored from its last one backwards. -/
inductive Draft where
  | kept (id : NodeId)
  | identifier (name : String)
  | integer (value : Int64)
  | float (value : Binary64)
  | call (name : String) (arguments : List NodeId)
  | group (items : List NodeId)
  | operation (operator : Operator) (lhs rhs : Draft)
  | factor (first rest : Draft)
deriving DecidableEq

namespace Draft

abbrev product (lhs rhs : Draft) : Draft :=
  operation .mul lhs rhs

/-- Store the new nodes of a draft, children before parents. -/
def store : Draft → Tree → NodeId × Tree
  | kept id, tree => (id, tree)
  | identifier name, tree => tree.store (.identifier name)
  | integer value, tree => tree.store (.integer value)
  | float value, tree => tree.store (.float value none)
  | call name arguments, tree =>
      let (callee, tree) := tree.store (.identifier name)
      tree.store (.call callee arguments)
  | group items, tree => tree.store (.group items)
  | operation operator lhs rhs, tree =>
      let (lhs, tree) := lhs.store tree
      let (rhs, tree) := rhs.store tree
      tree.store (.operation operator lhs rhs .missing)
  | factor first rest, tree =>
      let (rest, tree) := rest.store tree
      let (first, tree) := first.store tree
      tree.store (.product first rest)

end Draft

structure Proposal where
  target : NodeId
  draft : Draft
  description : String
deriving DecidableEq

/-- What a detector finds at a node. The only failure is an oversized number. -/
abbrev Detection := Except Oversized (Option Proposal)

def Rule.ofDetector (name : String) (detect : Options → Tree → NodeId → Detection) : Rule where
  name := name
  apply options tree id :=
    match detect options tree id with
    | .error oversized => (.error (.ofOversized oversized), tree)
    | .ok none => (.ok none, tree)
    | .ok (some proposal) =>
        let (replacement, tree) := proposal.draft.store tree
        (.ok (some ⟨proposal.target, replacement, proposal.description⟩), tree)

end Juxtaposition
