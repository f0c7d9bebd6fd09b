import Juxtaposition.Proofs.Expr.Products
import Juxtaposition.Proofs.Normalization.Standard
import Juxtaposition.Proofs.Normalization.Supplied

/-!
# What a run preserves

Operators, signs, lists and plain numbers stay where they were typed, with the same paths
between them. All else that a run does to the arena is to add products, and to take names,
calls and literals with an exponent apart.
-/

set_option autoImplicit false

namespace Juxtaposition

open Juxtaposition.Tree (root)

def Node.isPlain : Node → Bool
  | operation _ _ _ _ | group _ | negation _ | integer _ => true
  | float _ literal =>
      literal.all fun text => !text.toList.contains 'e' && !text.toList.contains 'E'
  | root _ | identifier _ | call _ _ => false

theorem Node.isStill_of_isPlain {node : Node} (plain : node.isPlain = true) (options : Options) :
    node.IsStill options := by
  cases node with
  | identifier name => cases plain
  | call callee arguments => cases plain
  | float value literal =>
      cases literal with
      | none => rfl
      | some text =>
          simp only [isPlain, Option.all_some, Bool.and_eq_true, Bool.not_eq_true',
            List.contains_eq_mem, decide_eq_false_iff_not] at plain
          exact ExponentLiteral.ofText?_eq_none_iff.mpr plain
  | _ => trivial

namespace Tree

variable {tree edited after last : Tree} {layout final : Layout} {options : Options}
  {change : Change} {id : NodeId} {provenance : Provenance} {count : Nat}

/-! ## Detached places -/

theorem Carries.detached (carried : tree.Carries options layout change edited)
    (inside : id.index < tree.size) (absent : id ∉ layout.places) :
    edited.node id = tree.node id ∧ edited.parent id = tree.parent id ∧
      id ∉ (layout.changed change).places := by
  have notHeld : id ∉ change.held.flatMap Layout.places := fun kept =>
    absent (carried.site.mem_of_held kept)
  refine ⟨carried.exchanged.node id inside ?_, carried.exchanged.parent id inside ?_ ?_, ?_⟩
  · rintro rfl
    exact absent (carried.site.mem_of_outside carried.site.holder_outside)
  · rintro rfl
    exact absent carried.site.target_mem
  · exact Site.not_top_of_not_held notHeld
  · intro member
    rcases carried.mem_or_fresh member with old | ⟨fresh, _⟩
    · exact absent old
    · exact Nat.not_lt_of_le fresh inside

/-- Places that are out of reach when a run begins stay so, and nothing happens to them. -/
theorem Evolves.detached (evolves : Evolves options count tree layout last final)
    (inside : id.index < tree.size) (absent : id ∉ layout.places) :
    last.node id = tree.node id ∧ last.parent id = tree.parent id ∧ id ∉ final.places := by
  induction evolves with
  | refl => exact ⟨rfl, rfl, absent⟩
  | cons carried _ ih =>
      obtain ⟨node, parent, stillAbsent⟩ := carried.detached inside absent
      obtain ⟨nodeLast, parentLast, absentLast⟩ :=
        ih (Nat.lt_of_lt_of_le inside carried.keepsOutlines.size) stillAbsent
      exact ⟨nodeLast.trans node, parentLast.trans parent, absentLast⟩

/-! ## Supplied products -/

theorem Planted.countNodes_isProduct (planted : tree.Planted layout) :
    tree.countNodes (Node.isProduct provenance) root =
      (tree.exprAlong layout).products.count provenance := by
  rw [countNodes, planted.visitedUntil_root, layout.places_mirror.countP_eq,
    planted.spans.products_exprAlong, List.count_eq_countP, List.countP_filterMap]
  refine List.countP_congr fun id _ => ?_
  rw [Node.isProduct_iff]
  cases (tree.node id).product? <;> simp

/-! ## Runs -/

/-- The operator at a place is the sign of an exponent in a literal of the first tree, and the
later tree has the whole reading of that literal there. -/
def IsSignOf (tree after : Tree) (id : NodeId) (operator : Operator) : Prop :=
  ∃ source value text literal expr, tree.Reaches root source ∧
    tree.node source = .float value (some text) ∧
    ExponentLiteral.ofText? text = some literal ∧ literal.sign? = some operator ∧
    literal.expr = .ok expr ∧ after.expr? id = some expr

structure Elaborates (tree after : Tree) (edits : Nat) : Prop where
  stays : ∀ id, tree.Reaches root id → (tree.node id).isPlain = true →
    after.Reaches root id ∧ (after.node id).outline = (tree.node id).outline
  paths : ∀ id other, tree.Reaches root id → (tree.node id).isPlain = true →
    tree.Reaches root other → (tree.node other).isPlain = true →
    (after.Reaches id other ↔ tree.Reaches id other)
  supplied : ∀ id operator lhs rhs provenance, after.Reaches root id → ¬ tree.Reaches root id →
    after.node id = .operation operator lhs rhs provenance → provenance = .missing ∧
      (operator = .mul ∨ (operator = .add ∨ operator = .sub) ∧ tree.IsSignOf after id operator)
  products : tree.countNodes (Node.isProduct .missing) root + edits ≤
    after.countNodes (Node.isProduct .missing) root
  detached : ∀ id : NodeId, id.index < tree.size → ¬ tree.Reaches root id →
    after.node id = tree.node id ∧ after.parent id = tree.parent id

theorem SignAt.isSignOf {operator : Operator} (planted : tree.Planted layout)
    (sign : SignAt options tree layout after final id operator) :
    (operator = .add ∨ operator = .sub) ∧ tree.IsSignOf after id operator := by
  obtain ⟨source, value, text, literal, part, before, float, found, signed, rfl, stillPart,
    read⟩ := sign
  refine ⟨?_, source, value, text, literal, after.exprAlong part, planted.reaches_iff.mpr before,
    float, found, signed, read, stillPart.expr?⟩
  obtain ⟨character, _, ofSign⟩ := Option.bind_eq_some_iff.mp signed
  unfold Operator.ofSign? at ofSign
  split at ofSign
  · cases ofSign
    exact .inl rfl
  · cases ofSign
    exact .inr rfl
  · cases ofSign

theorem Evolves.elaborates (evolves : Evolves options count tree layout last final)
    (planted : tree.Planted layout) : tree.Elaborates last count where
  stays id reached plain := by
    have member := planted.reaches_iff.mp reached
    have still := Node.isStill_of_isPlain plain options
    exact ⟨(evolves.planted planted).reaches_iff.mpr (evolves.mem_of_isStill member still),
      evolves.keepsOutlines.outline id (planted.index_lt member)⟩
  paths id other reached plain reachedToo plainToo :=
    evolves.reaches_iff (planted.reaches_iff.mp reached) (Node.isStill_of_isPlain plain options)
      (planted.reaches_iff.mp reachedToo) (Node.isStill_of_isPlain plainToo options)
  supplied id operator lhs rhs provenance reached new operation := by
    have start : Supplies options tree layout tree layout :=
      ⟨fun _ member _ _ float => ⟨member, float⟩, fun _ member absent => absurd member absent⟩
    have member := (evolves.planted planted).reaches_iff.mp reached
    rw [planted.reaches_iff] at new
    obtain ⟨missing, cause⟩ :=
      (evolves.supplies start).operations id member new operator lhs rhs provenance operation
    exact ⟨missing, cause.imp_right fun sign => sign.isSignOf planted⟩
  products := by
    obtain ⟨supplied, enough, same⟩ := evolves.steps.exists_supplied
    rw [planted.countNodes_isProduct, (evolves.planted planted).countNodes_isProduct,
      same.count_eq, List.count_append, List.count_replicate_self]
    omega
  detached id inside unreached := by
    rw [planted.reaches_iff] at unreached
    obtain ⟨node, parent, _⟩ := evolves.detached inside unreached
    exact ⟨node, parent⟩

end Tree

namespace Normalization

variable {tree : Tree}

/-- A run leaves what was typed in its place and adds at least one product with each edit. -/
theorem runStandard_elaborates (sound : tree.check = .ok ()) (permitImplicit : Bool)
    (options : Options) (outcome : Outcome) :
    ∃ stats, (runStandard permitImplicit options tree outcome).result = .ok stats ∧
      tree.Elaborates (runStandard permitImplicit options tree outcome).tree stats.edits := by
  obtain ⟨layout, planted⟩ := Tree.check_eq_ok_iff.mp sound
  obtain ⟨final, next, count, ended, _, evolves, edits⟩ :=
    exists_evolved planted permitImplicit options outcome
  obtain ⟨result, same, _⟩ := runStandard_of_runPasses ended
  refine ⟨final.stats, result, ?_⟩
  have elaborates := evolves.elaborates planted
  rw [← edits] at elaborates
  rw [same]
  exact elaborates

/-- The tree of `-y+a2b(2e-3)`. -/
def typedSum : Tree :=
  ⟨#[⟨.root ⟨1⟩, none⟩, ⟨.operation .add ⟨2⟩ ⟨4⟩ (.typed ⟨2, 3⟩), some ⟨0⟩⟩,
    ⟨.negation ⟨3⟩, some ⟨1⟩⟩, ⟨.identifier "y", some ⟨2⟩⟩, ⟨.call ⟨5⟩ [⟨6⟩], some ⟨1⟩⟩,
    ⟨.identifier "a2b", some ⟨4⟩⟩, ⟨.float ⟨0x3f60624dd2f1a9fc⟩ (some "2e-3"), some ⟨4⟩⟩]⟩

theorem runStandard_elaborates_typedSum :
    typedSum.check = .ok () ∧ ∃ stats,
      (runStandard true {} typedSum .fresh).result = .ok stats ∧
      typedSum.Elaborates (runStandard true {} typedSum .fresh).tree stats.edits ∧
      (runStandard true {} typedSum .fresh).tree.Reaches root ⟨1⟩ ∧
      (runStandard true {} typedSum .fresh).tree.Reaches ⟨1⟩ ⟨2⟩ := by
  have sound : typedSum.check = .ok () := by decide
  obtain ⟨stats, result, elaborates⟩ := runStandard_elaborates sound true {} .fresh
  have top : typedSum.Reaches root ⟨1⟩ := .child .refl (by decide)
  have sign : typedSum.Reaches ⟨1⟩ ⟨2⟩ := .child .refl (by decide)
  refine ⟨sound, stats, result, elaborates, (elaborates.stays ⟨1⟩ top rfl).1, ?_⟩
  exact (elaborates.paths ⟨1⟩ ⟨2⟩ top rfl (top.trans sign) rfl).mpr sign

end Normalization

end Juxtaposition
