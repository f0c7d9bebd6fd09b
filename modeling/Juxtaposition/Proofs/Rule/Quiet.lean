import Juxtaposition.Proofs.Expr.EditCount
import Juxtaposition.Proofs.Rule.Reading
import Juxtaposition.Proofs.Rule.Verdict

/-!
# Quiet nodes

What it means for a node that no rule has a proposal for it, and that a number in it is
too large.
-/

set_option autoImplicit false

namespace Juxtaposition.Tree

def Quiet (tree : Tree) (options : Options) (id : NodeId) : Prop :=
  ∀ edit, (tree.verdict options id).gist ≠ .ok (some edit)

def IsOversized (tree : Tree) (options : Options) (id : NodeId) : Prop :=
  ∃ number, (tree.verdict options id).gist = .error number

variable {tree : Tree} {options : Options} {id : NodeId}

theorem quiet_of_declined (declined : (tree.verdict options id).gist = .ok none) :
    tree.Quiet options id := by
  intro edit proposed
  rw [declined] at proposed
  cases proposed

theorem IsOversized.quiet (oversized : tree.IsOversized options id) : tree.Quiet options id := by
  obtain ⟨number, found⟩ := oversized
  intro edit proposed
  rw [found] at proposed
  cases proposed

theorem Quiet.isKept {id : NodeId} (quiet : tree.Quiet options id) {name : String}
    (named : tree.node id = .identifier name) :
    (options.split (tree.isCallee id) name).isKept = true := by
  unfold Quiet at quiet
  rw [gist_verdict_name named] at quiet
  cases split : options.split (tree.isCallee id) name with
  | whole => rfl
  | oversized number => rfl
  | pieces _ _ _ => rw [split] at quiet; exact absurd rfl (quiet _)
  | trailing _ _ => rw [split] at quiet; exact absurd rfl (quiet _)

theorem Quiet.not_isCallOrGroup {id : NodeId} (quiet : tree.Quiet options id) {callee : NodeId}
    {arguments : List NodeId} (call : tree.node id = .call callee arguments) :
    (tree.node callee).isCallOrGroup = false := by
  cases called : (tree.node callee).isCallOrGroup with
  | false => rfl
  | true => exact absurd (gist_verdict_callOfCall call called) (quiet _)

theorem Quiet.nonFunction?_eq_none {id : NodeId} (quiet : tree.Quiet options id) {callee : NodeId}
    {arguments : List NodeId} (call : tree.node id = .call callee arguments) {name : String}
    (named : tree.node callee = .identifier name) : options.nonFunction? name = none := by
  have judged := gist_verdict_callOfName options call named
  cases found : options.nonFunction? name with
  | none => rfl
  | some reason =>
      rw [found, Option.isSome_some, if_pos rfl] at judged
      exact absurd judged (quiet _)

theorem Quiet.draft_eq_error (quiet : tree.Quiet options id) {value : Binary64} {text : String}
    (float : tree.node id = .float value (some text)) (lenient : options.strictSyntax = false)
    {literal : ExponentLiteral} (found : ExponentLiteral.ofText? text = some literal) :
    ∃ number, literal.draft = .error number := by
  unfold Quiet at quiet
  rw [gist_verdict_float float, literalGist, lenient] at quiet
  simp only [Bool.false_eq_true, if_false, Option.bind_some, found] at quiet
  cases drafted : literal.draft with
  | error number => exact ⟨number, rfl⟩
  | ok draft =>
      rw [drafted] at quiet
      exact absurd rfl (quiet _)

theorem Quiet.literalCount_eq_zero (quiet : tree.Quiet options id) {value : Binary64}
    {literal : Option String} (float : tree.node id = .float value literal) :
    Expr.literalCount options literal = 0 := by
  cases literal with
  | none => rfl
  | some text =>
      unfold Expr.literalCount
      dsimp only
      split
      · rfl
      · next lenient =>
        cases found : ExponentLiteral.ofText? text with
        | none => rfl
        | some literal =>
            obtain ⟨number, failed⟩ := quiet.draft_eq_error float (by simpa using lenient) found
            rw [Option.map_some, literal.expr_eq tree.read, failed]
            rfl

/-! ## Oversized numbers -/

theorem IsOversized.children_eq (oversized : tree.IsOversized options id) :
    tree.children id = [] := by
  obtain ⟨number, found⟩ := oversized
  rcases tree.gist_verdict_cases options id with
    ⟨name, named⟩ | ⟨callee, arguments, call⟩ | ⟨value, literal, float⟩ | declined
  · rw [Tree.children, named]
    rfl
  · exact absurd found (gist_verdict_call_ne_error call)
  · rw [Tree.children, float]
    rfl
  · rw [found] at declined
    cases declined

theorem IsOversized.split_eq (oversized : tree.IsOversized options id) {name : String}
    (named : tree.node id = .identifier name) :
    ∃ number, options.split (tree.isCallee id) name = .oversized number := by
  obtain ⟨number, found⟩ := oversized
  rw [gist_verdict_name named] at found
  cases split : options.split (tree.isCallee id) name with
  | oversized other => exact ⟨other, rfl⟩
  | whole => rw [split] at found; cases found
  | pieces _ _ _ => rw [split] at found; cases found
  | trailing _ _ => rw [split] at found; cases found

end Juxtaposition.Tree
