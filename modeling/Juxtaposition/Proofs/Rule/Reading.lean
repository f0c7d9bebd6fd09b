import Juxtaposition.Proofs.Rule.Draft
import Juxtaposition.Rule.NameSplit

/-!
# The drafts of the standard rules

What they keep, and how they read.
-/

set_option autoImplicit false

namespace Juxtaposition

namespace NamePiece

variable {read : NodeId → Expr}

theorem isNew_draftWith (arguments : Option (List NodeId)) (piece : NamePiece) :
    (piece.draftWith arguments).isNew = true := by
  cases arguments <;> cases piece <;> rfl

theorem keeps_draftWith (arguments : Option (List NodeId)) (piece : NamePiece) :
    (piece.draftWith arguments).keeps = arguments.getD [] := by
  cases arguments <;> cases piece <;> rfl

theorem expr_draftWith (arguments : Option (List NodeId)) (piece : NamePiece) :
    (piece.draftWith arguments).expr read = piece.expr (arguments.map (List.map read)) := by
  cases arguments <;> cases piece <;> rfl

theorem isNew_chain (arguments : Option (List NodeId)) (piece : NamePiece)
    (rest : List NamePiece) : (chain arguments piece rest).isNew = true := by
  cases rest with
  | nil => exact isNew_draftWith arguments piece
  | cons following rest => rfl

theorem keeps_chain (arguments : Option (List NodeId)) (piece : NamePiece)
    (rest : List NamePiece) : (chain arguments piece rest).keeps = arguments.getD [] := by
  induction rest generalizing piece with
  | nil => exact keeps_draftWith arguments piece
  | cons following rest ih =>
      have first : piece.draft.keeps = [] := keeps_draftWith none piece
      rw [chain, Draft.keeps, first, ih, List.nil_append]

theorem expr_chain (arguments : Option (List NodeId)) (piece : NamePiece)
    (rest : List NamePiece) :
    (chain arguments piece rest).expr read =
      exprChain (arguments.map (List.map read)) piece rest := by
  induction rest generalizing piece with
  | nil => exact expr_draftWith arguments piece
  | cons following rest ih =>
      have first : piece.draft.expr read = piece.expr none := expr_draftWith none piece
      rw [chain, Draft.expr, first, ih, exprChain]

end NamePiece

namespace ExponentLiteral

theorem mantissaExpr_eq (literal : ExponentLiteral) (read : NodeId → Expr) :
    literal.mantissaExpr = literal.mantissaDraft.map (Draft.expr read) := by
  unfold mantissaExpr mantissaDraft
  split
  · rfl
  · cases Text.readIntegerStart literal.mantissa <;> rfl

theorem expr_eq (literal : ExponentLiteral) (read : NodeId → Expr) :
    literal.expr = literal.draft.map (Draft.expr read) := by
  unfold ExponentLiteral.expr draft
  rw [literal.mantissaExpr_eq read]
  cases Text.readIntegerStart literal.exponent with
  | error number => rfl
  | ok exponent =>
      cases literal.mantissaDraft with
      | error number => rfl
      | ok mantissa => cases sign : literal.sign? <;> rfl

theorem mantissaDraft_keeps {literal : ExponentLiteral} {draft : Draft}
    (drafted : literal.mantissaDraft = .ok draft) : draft.keeps = [] := by
  unfold mantissaDraft at drafted
  split at drafted
  · cases drafted
    rfl
  · cases read : Text.readIntegerStart literal.mantissa with
    | error number => rw [read] at drafted; cases drafted
    | ok value => rw [read] at drafted; cases drafted; rfl

theorem draft_new {literal : ExponentLiteral} {draft : Draft}
    (drafted : literal.draft = .ok draft) : draft.isNew = true ∧ draft.keeps = [] := by
  unfold ExponentLiteral.draft at drafted
  cases exponent : Text.readIntegerStart literal.exponent with
  | error number => rw [exponent] at drafted; cases drafted
  | ok value =>
      cases mantissa : literal.mantissaDraft with
      | error number => rw [exponent, mantissa] at drafted; cases drafted
      | ok factor =>
          have nothing := mantissaDraft_keeps mantissa
          simp only [exponent, mantissa, bind, Except.bind] at drafted
          cases sign : literal.sign? with
          | none =>
              rw [sign] at drafted
              cases drafted
              exact ⟨rfl, by simp [Draft.keeps, nothing]⟩
          | some operator =>
              rw [sign] at drafted
              cases drafted
              exact ⟨rfl, by simp [Draft.keeps, nothing]⟩

end ExponentLiteral

end Juxtaposition
