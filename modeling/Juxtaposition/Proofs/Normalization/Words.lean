import Juxtaposition.Proofs.Expr.Words
import Juxtaposition.Proofs.Normalization.Standard

/-!
# Words after a run

A run of the standard rules keeps what was written: the tree reads as the same words in
the same order.
-/

set_option autoImplicit false

namespace Juxtaposition

namespace Tree

def words (tree : Tree) (id : NodeId) : List Word :=
  (tree.leaves id).flatMap Leaf.words

theorem Planted.words_root {tree : Tree} {layout : Layout} (planted : tree.Planted layout) :
    tree.words root = (tree.exprAlong layout).words := by
  rw [words, planted.leaves_root, Expr.words]

end Tree

theorem Node.leaf?_eq_float_iff {node : Node} {value : Binary64} {literal : Option String} :
    node.leaf? = some (.float value literal) ↔ node = .float value literal :=
  leaf?_eq_some_iff

namespace Normalization

open Juxtaposition.Tree (root)

/-- A run loses, adds and reorders no words, unless a literal with an exponent marker may
be taken apart. -/
theorem runStandard_words {tree : Tree} (sound : tree.check = .ok ()) (permitImplicit : Bool)
    (options : Options) (outcome : Outcome)
    (unmarked : options.strictSyntax = true ∨ ∀ id, tree.Reaches root id →
      ∀ value text, tree.node id = .float value (some text) →
        'e' ∉ text.toList ∧ 'E' ∉ text.toList) :
    ∃ stats, (runStandard permitImplicit options tree outcome).result = .ok stats ∧
      (runStandard permitImplicit options tree outcome).tree.words root = tree.words root := by
  obtain ⟨layout, planted⟩ := Tree.check_eq_ok_iff.mp sound
  obtain ⟨final, next, count, settled, steps, _, result, same⟩ :=
    exists_settled planted permitImplicit options outcome
  have plain : (tree.exprAlong layout).Unmarked options := by
    refine unmarked.imp_right fun plain value text member => ?_
    rw [Expr.mem_words_decimal_iff, planted.mem_leaves_iff] at member
    obtain ⟨id, reached, leaf⟩ := member
    exact plain id reached value text (Node.leaf?_eq_float_iff.mp leaf)
  refine ⟨final.stats, result, ?_⟩
  rw [same, settled.consistent.planted.words_root, planted.words_root, steps.words_eq plain]

/-- The words of `a2b(x)(99999999999999999999y)` are there before and after a run. -/
theorem runStandard_words_nestedCall :
    nestedCall.check = .ok () ∧
      (∀ id value text, nestedCall.node id ≠ .float value (some text)) ∧
      (runStandard true {} nestedCall .fresh).tree.words root =
        [.letters "a", .number 2, .letters "b", .letters "x", .number 99999999999999999999,
          .letters "y"] := by
  have sound : nestedCall.check = .ok () := by decide
  have noFloat (id : NodeId) (value : Binary64) (text : String) :
      nestedCall.node id ≠ .float value (some text) := by
    rcases id with ⟨_ | _ | _ | _ | _ | _ | index⟩
    all_goals exact nofun
  refine ⟨sound, noFloat, ?_⟩
  obtain ⟨_, _, same⟩ := runStandard_words sound true {} .fresh
    (.inr fun id _ value text float => absurd float (noFloat id value text))
  obtain ⟨layout, planted⟩ := Tree.check_eq_ok_iff.mp sound
  have read : some (Expr.call (.call (.identifier "a2b") [.identifier "x"])
      [.identifier "99999999999999999999y"]) = some (nestedCall.exprAlong layout) :=
    planted.expr?_root
  rw [same, planted.words_root, ← Option.some.inj read]
  decide

end Normalization

end Juxtaposition
