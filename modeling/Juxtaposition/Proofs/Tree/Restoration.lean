import Juxtaposition.Answer.Explanation
import Juxtaposition.Proofs.Expr.Restoration

/-!
# Question marks in a tree

A quoted answer has question marks for its placeholders. The quotation of a tree is the text of the
tree that has them in each of its names and literals.
-/

set_option autoImplicit false

namespace Juxtaposition

namespace Node

def restored : Node → Node
  | identifier name => identifier (Text.restoreQuestionMarks name)
  | float value literal => float value (literal.map Text.restoreQuestionMarks)
  | node => node

@[simp] theorem children_restored (node : Node) : node.restored.children = node.children := by
  cases node <;> rfl

@[simp] theorem isRoot_restored (node : Node) : node.restored.isRoot = node.isRoot := by
  cases node <;> rfl

theorem expr_restored (node : Node) (below : List Expr) :
    node.restored.expr (below.map Expr.restored) = (node.expr below).restored := by
  cases node with
  | identifier name => rfl
  | integer value => rfl
  | float value literal => rfl
  | group items => exact (Expr.restored_group below).symm
  | root body => rcases below with _ | ⟨_, _ | _⟩ <;> rfl
  | call callee arguments =>
      cases below with
      | nil => rfl
      | cons callee arguments => exact (Expr.restored_call callee arguments).symm
  | operation operator lhs rhs provenance => rcases below with _ | ⟨_, _ | ⟨_, _ | _⟩⟩ <;> rfl
  | negation operand => rcases below with _ | ⟨_, _ | _⟩ <;> rfl

end Node

namespace Tree

/-- The tree with question marks put back in each name and each literal by itself. -/
def restored (tree : Tree) : Tree :=
  ⟨tree.slots.map fun slot => { slot with node := slot.node.restored }⟩

/-- Question marks are put back leaf by leaf. Every placeholder in the text is one in a leaf, none
is left, and what stands between the leaves is kept. -/
structure RestoresLeaves (tree : Tree) (highlight : Highlight) : Prop where
  sound : tree.restored.check = .ok ()
  read : ∃ expr, tree.expr? root = some expr ∧ tree.restored.expr? root = some expr.restored
  leafwise : tree.quotation highlight = tree.restored.render highlight root
  counted : Text.occurrences Text.placeholder (tree.render highlight root) =
    Text.tally Leaf.placeholders (tree.leaves root)
  cleared : Text.occurrences Text.placeholder (tree.quotation highlight) = 0
  tokens : ∃ tokens : List Token,
    Token.print highlight tokens = (tree.render highlight root).toList ∧
      Token.print highlight (tokens.map Token.restored) = (tree.quotation highlight).toList ∧
      ∀ token ∈ tokens, token.restored = token ∨
        ∃ leaf ∈ tree.leaves root, token = .plain leaf.text

variable {tree : Tree} {layout : Layout}

@[simp] theorem node_restored (tree : Tree) (id : NodeId) :
    tree.restored.node id = (tree.node id).restored := by
  unfold restored node
  rw [Array.getElem?_map]
  cases tree.slots[id.index]? <;> rfl

@[simp] theorem parent_restored (tree : Tree) (id : NodeId) :
    tree.restored.parent id = tree.parent id := by
  unfold restored parent
  rw [Array.getElem?_map]
  cases tree.slots[id.index]? <;> rfl

theorem Spans.restored (spans : tree.Spans layout) : tree.restored.Spans layout := by
  induction spans with
  | node children links roots _ ih =>
      refine .node ?_ ?_ ?_ ih
      · rw [Tree.children, node_restored, Node.children_restored]
        exact children
      · simpa only [parent_restored] using links
      · simpa only [node_restored, Node.isRoot_restored] using roots

theorem exprAlong_restored (tree : Tree) (layout : Layout) :
    tree.restored.exprAlong layout = (tree.exprAlong layout).restored := by
  induction layout using Layout.induction with
  | node place below ih =>
      have inner : below.map tree.restored.exprAlong =
          (below.map tree.exprAlong).map Expr.restored := by
        rw [List.map_map]
        exact List.map_congr_left ih
      rw [exprAlong_node, exprAlong_node, inner, node_restored, Node.expr_restored]

theorem Planted.restored (planted : tree.Planted layout) : tree.restored.Planted layout where
  place := planted.place
  isRoot := by rw [node_restored, Node.isRoot_restored, planted.isRoot]
  unheld := by rw [parent_restored, planted.unheld]
  spans := planted.spans.restored
  nodup := planted.nodup

/-- The quotation of a sound tree puts question marks back in its names and literals and leaves
everything else alone. -/
theorem quotation_restoresLeaves (sound : tree.check = .ok ()) (highlight : Highlight) :
    tree.RestoresLeaves highlight := by
  obtain ⟨layout, planted⟩ := check_eq_ok_iff.mp sound
  have read := planted.expr?_root
  have readRestored : tree.restored.expr? root = some (tree.exprAlong layout).restored := by
    rw [planted.restored.expr?_root, exprAlong_restored]
  have rendered : tree.render highlight root = (tree.exprAlong layout).render highlight := by
    rw [render, read]
  have renderedRestored : tree.restored.render highlight root =
      (tree.exprAlong layout).restored.render highlight := by
    rw [render, readRestored]
  have leafwise : tree.quotation highlight = tree.restored.render highlight root := by
    rw [quotation, rendered, renderedRestored, Expr.restoreQuestionMarks_render]
  constructor
  case sound => exact check_eq_ok_iff.mpr ⟨layout, planted.restored⟩
  case read => exact ⟨_, read, readRestored⟩
  case leafwise => exact leafwise
  case counted => rw [rendered, planted.leaves_root, Expr.occurrences_render]
  case cleared => exact Text.occurrences_restoreQuestionMarks _
  case tokens =>
    refine ⟨(tree.exprAlong layout).tokens, ?_, ?_, ?_⟩
    · rw [rendered, Expr.print_tokens]
    · rw [leafwise, renderedRestored, ← Expr.tokens_restored, Expr.print_tokens]
    · rw [planted.leaves_root]
      exact Expr.restored_of_mem_tokens

/-- The tree of `QMC(HAR)QMCHAR1`, with a product supplied between the call and the name. -/
def partedPlaceholder : Tree :=
  ⟨#[⟨.root ⟨1⟩, none⟩, ⟨.operation .mul ⟨2⟩ ⟨5⟩ .missing, some ⟨0⟩⟩,
    ⟨.call ⟨3⟩ [⟨4⟩], some ⟨1⟩⟩, ⟨.identifier "QMC", some ⟨2⟩⟩, ⟨.identifier "HAR", some ⟨2⟩⟩,
    ⟨.identifier "QMCHAR1", some ⟨1⟩⟩]⟩

theorem quotation_restoresLeaves_partedPlaceholder :
    partedPlaceholder.check = .ok () ∧
      partedPlaceholder.restored.render .missing root =
        "QMC(HAR)<font color=\"red\">*</font>?1" ∧
      Text.occurrences Text.placeholder (partedPlaceholder.render .missing root) = 1 := by
  have sound : partedPlaceholder.check = .ok () := by decide
  have restores := quotation_restoresLeaves sound .missing
  exact ⟨sound, restores.leafwise.symm.trans (by decide), restores.counted.trans (by cbv)⟩

end Tree

end Juxtaposition
