import Juxtaposition.Proofs.Rule.Reading
import Juxtaposition.Proofs.Rule.Verdict

/-!
# Proposals

What the standard rules may propose for a node, in any arena. A proposal is for the node or for
the call that the node heads, and all that it keeps are children of a call that gives way.
-/

set_option autoImplicit false

namespace Juxtaposition

structure Proposal.Fits (tree : Tree) (id : NodeId) (proposal : Proposal) : Prop where
  isNew : proposal.draft.isNew = true
  target : proposal.target = id ∨
    ∃ arguments, tree.callHeadedBy? id = some (proposal.target, arguments)
  inner : (tree.node proposal.target).isRoot = false
  keeps : proposal.draft.keeps = [] ∨ ∃ callee arguments,
    tree.node proposal.target = .call callee arguments ∧
      proposal.draft.keeps.Sublist (callee :: arguments)

def Detector.Fits (detector : Detector) : Prop :=
  ∀ options tree id proposal, detector.detect options tree id = .ok (some proposal) →
    proposal.Fits tree id

namespace Proposal

variable {tree : Tree} {id : NodeId}

theorem fits_ofCall {callee : NodeId} {arguments : List NodeId}
    (call : tree.node id = .call callee arguments) (description : String) :
    (ofCall id callee arguments description).Fits tree id where
  isNew := rfl
  target := .inl rfl
  inner := by
    rw [ofCall, call]
    rfl
  keeps := .inr ⟨callee, arguments, call, List.Sublist.refl _⟩

/-- The callee is named anew, so at most the arguments are kept. -/
theorem fits_forName {name : String} (named : tree.node id = .identifier name)
    {draft : Option (List NodeId) → Draft} (isNew : ∀ arguments, (draft arguments).isNew = true)
    (keeps : ∀ arguments, (draft arguments).keeps = arguments.getD []) (description : String) :
    (forName tree id draft description).Fits tree id := by
  unfold forName
  cases headed : tree.callHeadedBy? id with
  | none =>
      refine ⟨isNew _, .inl rfl, ?_, .inl (keeps _)⟩
      rw [named]
      rfl
  | some found =>
      obtain ⟨holder, arguments⟩ := found
      obtain ⟨_, call⟩ := Tree.callHeadedBy?_eq_some_iff.mp headed
      refine ⟨isNew _, .inr ⟨arguments, headed⟩, ?_, .inr ⟨id, arguments, call, ?_⟩⟩
      · rw [call]
        rfl
      · rw [keeps]
        exact List.sublist_cons_self _ _

end Proposal

/-! ## The standard rules -/

namespace Rule

variable {options : Options} {tree : Tree} {id : NodeId} {proposal : Proposal}

theorem fits_of_detectCallOfCall
    (found : detectCallOfCall options tree id = .ok (some proposal)) : proposal.Fits tree id := by
  unfold detectCallOfCall at found
  cases call : tree.callAt? id with
  | none => rw [call] at found; cases found
  | some headed =>
      obtain ⟨callee, arguments⟩ := headed
      rw [call] at found
      dsimp only at found
      split at found
      · cases found
        exact Proposal.fits_ofCall (Tree.callAt?_eq_some_iff.mp call) _
      · cases found

theorem fits_of_detectFunctionNameShape
    (found : detectFunctionNameShape options tree id = .ok (some proposal)) :
    proposal.Fits tree id := by
  unfold detectFunctionNameShape at found
  cases call : tree.callAt? id with
  | none => rw [call] at found; cases found
  | some headed =>
      obtain ⟨callee, arguments⟩ := headed
      rw [call] at found
      dsimp only at found
      simp only [Except.ok.injEq, Option.bind_eq_bind, Option.bind_eq_some_iff, Option.pure_def,
        Option.some.injEq] at found
      obtain ⟨name, _, reason, _, rfl⟩ := found
      exact Proposal.fits_ofCall (Tree.callAt?_eq_some_iff.mp call) reason

/-- A rule on names proposes what its split of the name says. -/
theorem fits_of_detectName {split : Options → Tree → NodeId → String → Detection}
    (fits : ∀ name, tree.node id = .identifier name →
      split options tree id name = .ok (some proposal) → proposal.Fits tree id)
    (found : detectName split options tree id = .ok (some proposal)) :
    proposal.Fits tree id := by
  unfold detectName at found
  cases named : tree.name? id with
  | none => rw [named] at found; cases found
  | some name =>
      rw [named] at found
      dsimp only at found
      split at found
      · cases found
      · exact fits name (Tree.name?_eq_some_iff.mp named) found

theorem fits_of_splitLetterDigit {name : String} (named : tree.node id = .identifier name)
    (found : splitLetterDigit options tree id name = .ok (some proposal)) :
    proposal.Fits tree id := by
  unfold splitLetterDigit at found
  split at found
  · cases found
  · simp only [Except.ok.injEq, Option.bind_eq_bind, Option.bind_eq_some_iff, Option.pure_def,
      Option.some.injEq] at found
    obtain ⟨⟨letter, digit⟩, _, rfl⟩ := found
    refine ⟨rfl, .inl rfl, ?_, .inl rfl⟩
    rw [named]
    rfl

theorem fits_of_splitDigitRuns {name : String} (named : tree.node id = .identifier name)
    (found : splitDigitRuns options tree id name = .ok (some proposal)) :
    proposal.Fits tree id := by
  obtain ⟨_, first, rest, _, rfl⟩ := splitDigitRuns_eq_some found
  exact Proposal.fits_forName named (fun arguments => NamePiece.isNew_chain _ _ _)
    (fun arguments => NamePiece.keeps_chain _ _ _) _

theorem fits_of_splitTrailingDigits {name : String} (named : tree.node id = .identifier name)
    (found : splitTrailingDigits options tree id name = .ok (some proposal)) :
    proposal.Fits tree id := by
  unfold splitTrailingDigits at found
  dsimp only at found
  split at found
  · cases found
  · cases read : Text.readInteger (Text.splitAtDigit name).2 with
    | error number => rw [read] at found; cases found
    | ok value =>
        rw [read] at found
        cases found
        refine Proposal.fits_forName named (fun arguments => rfl) (fun arguments => ?_) _
        rw [Draft.keeps, Draft.keeps, NamePiece.keeps_draftWith, List.nil_append]

theorem fits_of_detectExponentLiteral
    (found : detectExponentLiteral options tree id = .ok (some proposal)) :
    proposal.Fits tree id := by
  unfold detectExponentLiteral at found
  split at found
  · cases found
  · split at found
    · next float =>
      split at found
      · next literal _ =>
        cases drafted : literal.draft with
        | error number => rw [drafted] at found; cases found
        | ok draft =>
            rw [drafted] at found
            cases found
            obtain ⟨isNew, nothing⟩ := ExponentLiteral.draft_new drafted
            refine ⟨isNew, .inl rfl, ?_, .inl nothing⟩
            rw [float]
            rfl
      · cases found
    · cases found

end Rule

/-- Every standard rule proposes what fits. -/
theorem Detector.fits_of_mem_standard {detector : Detector} (member : detector ∈ standard) :
    detector.Fits := by
  intro options tree id proposal found
  simp only [standard, List.mem_cons, List.not_mem_nil, or_false] at member
  rcases member with rfl | rfl | rfl | rfl | rfl | rfl
  · exact @Rule.fits_of_detectCallOfCall options tree id proposal found
  · exact Rule.fits_of_detectFunctionNameShape found
  · exact Rule.fits_of_detectName (fun _ => Rule.fits_of_splitLetterDigit) found
  · exact Rule.fits_of_detectName (fun _ => Rule.fits_of_splitDigitRuns) found
  · exact Rule.fits_of_detectName (fun _ => Rule.fits_of_splitTrailingDigits) found
  · exact Rule.fits_of_detectExponentLiteral found

end Juxtaposition
