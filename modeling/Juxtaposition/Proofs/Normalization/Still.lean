import Juxtaposition.Proofs.Normalization.Carried
import Juxtaposition.Proofs.Tree.Renaming

/-!
# Nodes that a run leaves in place

Some nodes are of no interest to any rule, wherever they stand. A run never takes them out of
the tree, and it never changes more of a node than the places of its children.
-/

set_option autoImplicit false

namespace Juxtaposition

/-- No rule has a proposal for the node or for its place, whatever holds it. -/
def Node.IsStill (options : Options) : Node → Prop
  | identifier name => ∀ isCallee, options.split isCallee name = .whole
  | float _ literal => literal.bind ExponentLiteral.ofText? = none
  | call _ _ => False
  | root _ | integer _ | operation _ _ _ _ | group _ | negation _ => True

theorem Node.isStill_outline {options : Options} {node : Node} :
    node.outline.IsStill options ↔ node.IsStill options := by
  cases node <;> exact Iff.rfl

/-! ## Stored drafts -/

namespace Draft

theorem store_keepsOutlines (draft : Draft) (tree : Tree) :
    tree.KeepsOutlines (draft.store tree).2 := by
  induction draft generalizing tree with
  | kept id => exact .refl tree
  | identifier name => exact tree.store_keepsOutlines _
  | integer value => exact tree.store_keepsOutlines _
  | float value => exact tree.store_keepsOutlines _
  | call name arguments =>
      exact (tree.store_keepsOutlines _).trans (Tree.store_keepsOutlines _ _)
  | group items => exact tree.store_keepsOutlines _
  | operation operator lhs rhs lhsKeeps rhsKeeps =>
      exact ((lhsKeeps tree).trans (rhsKeeps _)).trans (Tree.store_keepsOutlines _ _)
  | factor first rest firstKeeps restKeeps =>
      exact ((restKeeps tree).trans (firstKeeps _)).trans (Tree.store_keepsOutlines _ _)

end Draft

namespace Tree

variable {tree edited last : Tree} {layout final : Layout} {options : Options} {change : Change}
  {id : NodeId} {count : Nat}

theorem declined_of_isStill (still : (tree.node id).IsStill options) :
    (tree.verdict options id).gist = .ok none := by
  cases kind : tree.node id with
  | identifier name =>
      rw [kind] at still
      rw [gist_verdict_name kind, still]
      rfl
  | float value literal =>
      rw [kind] at still
      have nothing : literal.bind ExponentLiteral.ofText? = none := still
      rw [gist_verdict_float kind, literalGist, nothing]
      exact ite_self _
  | call callee arguments =>
      rw [kind] at still
      exact still.elim
  | _ =>
      refine gist_verdict_other ?_ ?_ ?_
      · simp only [callAt?, kind]
      · simp only [name?, kind, Node.name?]
      · simp only [kind, ne_eq, reduceCtorEq, not_false_eq_true, implies_true]

namespace Carries

theorem keepsOutlines (carried : tree.Carries options layout change edited) :
    tree.KeepsOutlines edited :=
  (change.draft.store_keepsOutlines tree).trans
    (keepsOutlines_replace (Draft.store_fst_lt carried.offer.isNew tree) carried.replaced)

theorem outline (carried : tree.Carries options layout change edited)
    (member : id ∈ layout.places) : (edited.node id).outline = (tree.node id).outline :=
  carried.keepsOutlines.outline id (carried.planted.index_lt member)

theorem ne_of_isStill (carried : tree.Carries options layout change edited)
    (still : (tree.node id).IsStill options) : id ≠ change.target ∧ id ≠ change.visited := by
  have declined := declined_of_isStill still
  have notVisited : id ≠ change.visited := by
    rintro rfl
    rw [carried.proposed] at declined
    cases declined
  refine ⟨?_, notVisited⟩
  rintro rfl
  rcases carried.headed with same | ⟨arguments, call⟩
  · exact notVisited same
  · rw [call] at still
    exact still

theorem mem_changed_of_isStill (carried : tree.Carries options layout change edited)
    (member : id ∈ layout.places) (still : (tree.node id).IsStill options) :
    id ∈ (layout.changed change).places :=
  carried.mem_changed member (carried.ne_of_isStill still).1 (carried.ne_of_isStill still).2

theorem isStill (carried : tree.Carries options layout change edited)
    (member : id ∈ layout.places) (still : (tree.node id).IsStill options) :
    (edited.node id).IsStill options := by
  rw [← Node.isStill_outline, carried.outline member, Node.isStill_outline]
  exact still

end Carries

namespace Evolves

theorem keepsOutlines (evolves : Evolves options count tree layout last final) :
    tree.KeepsOutlines last := by
  induction evolves with
  | refl => exact .refl _
  | cons carried _ ih => exact carried.keepsOutlines.trans ih

/-- A still node stays in the tree through a whole run. -/
theorem mem_of_isStill (evolves : Evolves options count tree layout last final)
    (member : id ∈ layout.places) (still : (tree.node id).IsStill options) :
    id ∈ final.places := by
  induction evolves with
  | refl => exact member
  | cons carried _ ih =>
      exact ih (carried.mem_changed_of_isStill member still) (carried.isStill member still)

end Evolves

end Tree

end Juxtaposition
