import Juxtaposition.Proofs.Expr.PlacedLeaves
import Juxtaposition.Proofs.Normalization.Run

/-!
# Settled trees

Where no rule has a proposal the expression takes no more edits. Another run leaves the
tree as it is and skips the same nodes.
-/

set_option autoImplicit false

namespace Juxtaposition

namespace Tree

variable {tree : Tree} {options : Options} {layout : Layout}

def QuietAlong (tree : Tree) (options : Options) (layout : Layout) : Prop :=
  ∀ id ∈ layout.places, tree.Quiet options id

theorem QuietAlong.child {place : NodeId} {below : List Layout}
    (quiet : tree.QuietAlong options (.node place below)) {child : Layout}
    (member : child ∈ below) : tree.QuietAlong options child :=
  fun id inside => quiet id (Layout.mem_places_of_mem member inside)

private theorem editCountAll_eq_zero {layouts : List Layout}
    (none : ∀ layout ∈ layouts, (tree.exprAlong layout).editCount options = 0) :
    Expr.editCountAll options (layouts.map tree.exprAlong) = 0 := by
  induction layouts with
  | nil => rfl
  | cons first rest ih =>
      rw [List.map_cons, Expr.editCountAll, none first List.mem_cons_self,
        ih fun layout member => none layout (List.mem_cons_of_mem _ member)]

/-- Where nothing is proposed the expression takes no edit. -/
theorem Spans.editCount_eq_zero (spans : tree.Spans layout) (nodup : layout.places.Nodup)
    (quiet : tree.QuietAlong options layout)
    (value : ∀ name, tree.node layout.place = .identifier name →
      tree.isCallee layout.place = false) :
    (tree.exprAlong layout).editCount options = 0 := by
  induction layout using Layout.induction with
  | node place below ih =>
      have children := spans.children
      have here : tree.Quiet options place := quiet place (by simp)
      have childNone (child : Layout) (member : child ∈ below) :=
        ih child member (spans.child member) ((Layout.Within.of_mem .refl member).nodup nodup)
          (quiet.child member)
      have inner (child : Layout) (member : child ∈ below)
          (other : ∀ callee arguments, tree.node place = .call callee arguments →
            child ∈ below.tail) : (tree.exprAlong child).editCount options = 0 :=
        childNone child member fun _ _ => spans.isCallee_child nodup member other
      rw [exprAlong_node]
      rw [Tree.children] at children
      cases kind : tree.node place with
      | root body =>
          rw [kind] at children
          obtain ⟨first, rest, rfl, rfl, nothing⟩ := List.map_eq_cons_iff.mp children.symm
          obtain rfl := List.map_eq_nil_iff.mp nothing
          exact inner first List.mem_cons_self (by simp [kind])
      | identifier name =>
          have isKept := here.isKept kind
          rw [show tree.isCallee place = false from value name kind] at isKept
          rw [Node.expr, Expr.editCount, Options.nameCount_of_isKept isKept]
          rfl
      | integer number => rw [Node.expr, Expr.editCount]
      | float number literal =>
          rw [Node.expr, Expr.editCount, here.literalCount_eq_zero kind]
      | operation operator lhs rhs provenance =>
          rw [kind] at children
          obtain ⟨left, rest, rfl, rfl, following⟩ := List.map_eq_cons_iff.mp children.symm
          obtain ⟨right, rest, rfl, rfl, nothing⟩ := List.map_eq_cons_iff.mp following
          obtain rfl := List.map_eq_nil_iff.mp nothing
          have leftNone := inner left (by simp) (by simp [kind])
          have rightNone := inner right (by simp) (by simp [kind])
          simp only [List.map_cons, List.map_nil, Node.expr, Expr.editCount, leftNone, rightNone]
      | group items =>
          rw [Node.expr, Expr.editCount]
          exact editCountAll_eq_zero fun child member => inner child member (by simp [kind])
      | negation operand =>
          rw [kind] at children
          obtain ⟨only, rest, rfl, rfl, nothing⟩ := List.map_eq_cons_iff.mp children.symm
          obtain rfl := List.map_eq_nil_iff.mp nothing
          have none := inner only (by simp) (by simp [kind])
          simp only [List.map_cons, List.map_nil, Node.expr, Expr.editCount, none]
      | call callee arguments =>
          rw [kind] at children
          obtain ⟨first, rest, rfl, rfl, rfl⟩ := List.map_eq_cons_iff.mp children.symm
          have restNone := editCountAll_eq_zero fun child member =>
            inner child (List.mem_cons_of_mem _ member) fun _ _ _ => member
          rw [List.map_cons, Node.expr]
          cases found : tree.name? first.place with
          | some name =>
              have named := name?_eq_some_iff.mp found
              have called : tree.isCallee first.place = true :=
                isCallee_eq_true_iff.mpr ⟨place, _, spans.parent List.mem_cons_self, kind⟩
              have isKept := (quiet first.place (by simp [first.place_mem_places])).isKept named
              rw [called] at isKept
              have counted := Expr.editCount_named options (some (rest.map tree.exprAlong)) name
              rw [Expr.named, Option.isSome_some, Options.nameCount_of_isKept isKept,
                Options.keptCount, here.nonFunction?_eq_none kind named] at counted
              rw [(spans.child List.mem_cons_self).eq_leaf_of_name named, exprAlong_node, named,
                Node.expr, counted]
              simpa [Expr.argumentsCount] using restNone
          | none =>
              have isRoot := spans.isRoot List.mem_cons_self
              obtain ⟨unnamed, uncalled⟩ := (spans.child List.mem_cons_self).kind_exprAlong isRoot
              have firstNone := childNone first List.mem_cons_self fun name named => by
                rw [name?_eq_some_iff.mpr named] at found
                cases found
              rw [Expr.editCount_call_of_unnamed _ (unnamed.trans found), uncalled,
                here.not_isCallOrGroup kind, firstNone, restNone]
              rfl

end Tree

namespace Normalization

variable {options : Options} {layout : Layout} {progress other : Progress} {setting : Setting}

namespace Settled

theorem quiet (settled : Settled options layout progress) :
    progress.tree.QuietAlong options layout := by
  intro id member
  rcases settled.done id member with skipped | declined
  · exact (settled.consistent.oversized id skipped).2.quiet
  · exact Tree.quiet_of_declined declined

theorem mem_skipped_iff (settled : Settled options layout progress) {id : NodeId} :
    id ∈ progress.skipped ↔ id ∈ layout.places ∧ progress.tree.IsOversized options id := by
  refine ⟨settled.consistent.oversized id, fun ⟨member, number, found⟩ => ?_⟩
  rcases settled.done id member with skipped | declined
  · exact skipped
  · rw [found] at declined
    cases declined

theorem editCount_eq_zero (settled : Settled options layout progress) :
    (progress.tree.exprAlong layout).editCount options = 0 := by
  have planted := settled.consistent.planted
  refine planted.spans.editCount_eq_zero planted.nodup settled.quiet fun name named => ?_
  have isRoot := planted.isRoot
  rw [← planted.place, named] at isRoot
  cases isRoot

theorem skipped_length_eq (settled : Settled options layout progress)
    (again : Settled options layout other) (same : other.tree = progress.tree) :
    other.skipped.length = progress.skipped.length := by
  refine ((List.perm_ext_iff_of_nodup again.consistent.nodup
    settled.consistent.nodup).mpr fun id => ?_).length_eq
  rw [again.mem_skipped_iff, settled.mem_skipped_iff, same]

end Settled

theorem Consistent.runPasses_of_none (rules : setting.rules = Rule.standard)
    (consistent : Consistent setting.options layout progress) (remaining : Nat)
    (none : (progress.tree.exprAlong layout).editCount setting.options = 0) :
    ∃ final, runPasses setting remaining progress = (.ok (), final) ∧
      final.tree = progress.tree ∧ final.edits = progress.edits ∧
      final.passes = progress.passes + 1 ∧ Settled setting.options layout final := by
  rcases consistent.runPass_cases rules with
    ⟨final, pass, facts⟩ | ⟨_, _, _, _, _, _, _, _, carried, _⟩
  · exact ⟨final, runPasses_of_nothing pass _, facts⟩
  · rw [carried.step.editCount_eq] at none
    cases none

end Normalization

end Juxtaposition
