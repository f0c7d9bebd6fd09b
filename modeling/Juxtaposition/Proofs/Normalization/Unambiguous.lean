import Juxtaposition.Proofs.Expr.Callable
import Juxtaposition.Proofs.Normalization.Standard
import Juxtaposition.Proofs.Rule.Runs

/-!
# Unambiguous trees

What is left at the nodes of a tree after a run. Where no rule has a proposal, nothing
can be taken for a product that is not written as one, apart from numbers that are too
large.
-/

set_option autoImplicit false

namespace Juxtaposition

namespace Options

theorem nonFunction?_eq_none {options : Options} {name : String}
    (function : options.nonFunction? name = none) :
    options.exemptsCallee name = true ∨
      Text.endsInDigit name = false ∧ name ≠ "i" ∧
        (options.strictSyntax = false → name.length ≠ 1) := by
  unfold nonFunction? at function
  split at function
  · next exempt => exact .inl exempt
  · split at function
    · cases function
    · next noDigit =>
      split at function
      · cases function
      · next notImaginary =>
        split at function
        · cases function
        · next notSingle =>
          refine .inr ⟨by simpa using noDigit, notImaginary, fun lenient single => ?_⟩
          simp [lenient, single] at notSingle

end Options

namespace ExponentLiteral

variable {literal : ExponentLiteral}

theorem draft_eq_error {number : Oversized} (failed : literal.draft = .error number) :
    Text.Oversize (Text.leadingDigits literal.exponent) ∨
      '.' ∉ literal.mantissa.toList ∧ Text.Oversize (Text.leadingDigits literal.mantissa) := by
  have found := oversizedDigits?_of_draft_error failed
  unfold oversizedDigits? at found
  split at found
  · next oversize => exact .inl oversize
  · split at found
    · cases found
    · next noPoint =>
      split at found
      · next oversize => exact .inr ⟨by simpa using noPoint, oversize⟩
      · cases found

end ExponentLiteral

/-- Nothing at a node can be taken for a product that is not written as one. Numbers
that are too large are the only exceptions. -/
structure Tree.Unambiguous (tree : Tree) (options : Options) (id : NodeId) : Prop where
  callee : ∀ callee arguments, tree.node id = .call callee arguments →
    (tree.node callee).isCallOrGroup = false
  functionName : ∀ callee arguments name, tree.node id = .call callee arguments →
    tree.node callee = .identifier name →
    options.exemptsCallee name = true ∨
      Text.endsInDigit name = false ∧ name ≠ "i" ∧
        (options.strictSyntax = false → name.length ≠ 1)
  pieces : ∀ name, tree.node id = .identifier name → options.exempts tree id = false →
    (Text.pieces name).length ≤ 1 ∨
      ∃ digits rest, Text.pieces name = digits :: rest ∧ Text.isNumeral digits = true ∧
        Text.Oversize digits
  trailing : ∀ letters digits, tree.node id = .identifier (letters ++ digits) →
    options.exempts tree id = false → options.strictSyntax = false → letters ≠ "" →
    (∀ character ∈ letters.toList, character.isDigit = false) →
    Text.isNumeral digits = true → Text.Oversize digits
  literal : options.strictSyntax = false →
    ∀ value text, tree.node id = .float value (some text) →
    'e' ∈ text.toList ∨ 'E' ∈ text.toList →
    ∃ literal, ExponentLiteral.ofText? text = some literal ∧
      (Text.Oversize (Text.leadingDigits literal.exponent) ∨
        '.' ∉ literal.mantissa.toList ∧ Text.Oversize (Text.leadingDigits literal.mantissa))

namespace Tree

variable {tree : Tree} {options : Options} {id : NodeId}

theorem exempts_eq {name : String} (named : tree.node id = .identifier name) :
    options.exempts tree id = options.exemptsName (tree.isCallee id) name := by
  unfold Options.exempts
  rw [name?_eq_some_iff.mpr named]

/-- Where nothing is proposed, nothing is ambiguous. -/
theorem Quiet.unambiguous (quiet : tree.Quiet options id) : tree.Unambiguous options id where
  callee _ _ call := quiet.not_isCallOrGroup call
  functionName _ _ _ call named :=
    Options.nonFunction?_eq_none (quiet.nonFunction?_eq_none call named)
  pieces name named free := by
    rw [exempts_eq named] at free
    exact Options.pieces_of_isKept (quiet.isKept named) free
  trailing letters digits named free lenient nonempty areLetters numeral := by
    rw [exempts_eq named] at free
    exact Options.oversize_of_isKept (quiet.isKept named) free lenient nonempty areLetters numeral
  literal lenient value text float marked := by
    obtain ⟨literal, found⟩ :=
      Option.isSome_iff_exists.mp (ExponentLiteral.isSome_ofText?_iff.mpr marked)
    obtain ⟨number, failed⟩ := quiet.draft_eq_error float lenient found
    exact ⟨literal, found, ExponentLiteral.draft_eq_error failed⟩

def CallsCallables (tree : Tree) : Prop :=
  ∀ id, tree.Reaches root id → ∀ callee arguments, tree.node id = .call callee arguments →
    (tree.name? callee).isSome = true ∨ (tree.node callee).isCallOrGroup = true

theorem Planted.callsCallables_iff {layout : Layout} (planted : tree.Planted layout) :
    tree.CallsCallables ↔ (tree.exprAlong layout).callsCallables = true := by
  rw [planted.spans.callsCallables_iff]
  exact forall_congr' fun _ => imp_congr_left planted.reaches_iff

end Tree

namespace Normalization

open Juxtaposition.Tree (root)

/-- After a run nothing reachable is ambiguous. If only names, calls and groups were
called before, only names are called afterwards. -/
theorem runStandard_unambiguous {tree : Tree} (sound : tree.check = .ok ())
    (permitImplicit : Bool) (options : Options) (outcome : Outcome) :
    ∃ stats, (runStandard permitImplicit options tree outcome).result = .ok stats ∧
      (∀ id, (runStandard permitImplicit options tree outcome).tree.Reaches root id →
        (runStandard permitImplicit options tree outcome).tree.Unambiguous options id) ∧
      (tree.CallsCallables →
        ∀ id, (runStandard permitImplicit options tree outcome).tree.Reaches root id →
          ∀ callee arguments,
            (runStandard permitImplicit options tree outcome).tree.node id =
              .call callee arguments →
            ∃ name, (runStandard permitImplicit options tree outcome).tree.node callee =
              .identifier name) := by
  obtain ⟨layout, planted⟩ := Tree.check_eq_ok_iff.mp sound
  obtain ⟨final, next, count, settled, steps, _, result, same⟩ :=
    exists_settled planted permitImplicit options outcome
  have plantedNext := settled.consistent.planted
  rw [same]
  refine ⟨final.stats, result, ?_, ?_⟩
  · intro id reached
    exact (settled.quiet id (plantedNext.reaches_iff.mp reached)).unambiguous
  · intro callable id reached callee arguments call
    have callableNext := plantedNext.callsCallables_iff.mpr
      (steps.callsCallables (planted.callsCallables_iff.mp callable))
    rcases callableNext id reached callee arguments call with named | called
    · obtain ⟨name, found⟩ := Option.isSome_iff_exists.mp named
      exact ⟨name, Tree.name?_eq_some_iff.mp found⟩
    · have quiet := settled.quiet id (plantedNext.reaches_iff.mp reached)
      rw [quiet.not_isCallOrGroup call] at called
      cases called

theorem runStandard_unambiguous_nestedCall :
    nestedCall.check = .ok () ∧ nestedCall.CallsCallables ∧
      (∀ id, (runStandard true {} nestedCall .fresh).tree.Reaches root id →
        (runStandard true {} nestedCall .fresh).tree.Unambiguous {} id) ∧
      ∀ id, (runStandard true {} nestedCall .fresh).tree.Reaches root id →
        ∀ callee arguments,
          (runStandard true {} nestedCall .fresh).tree.node id = .call callee arguments →
          ∃ name, (runStandard true {} nestedCall .fresh).tree.node callee =
            .identifier name := by
  have sound : nestedCall.check = .ok () := by decide
  have callable : nestedCall.CallsCallables := by
    obtain ⟨layout, planted⟩ := Tree.check_eq_ok_iff.mp sound
    have read : some (Expr.call (.call (.identifier "a2b") [.identifier "x"])
        [.identifier "99999999999999999999y"]) = some (nestedCall.exprAlong layout) :=
      planted.expr?_root
    rw [planted.callsCallables_iff, ← Option.some.inj read]
    rfl
  obtain ⟨_, _, unambiguous, named⟩ := runStandard_unambiguous sound true {} .fresh
  exact ⟨sound, callable, unambiguous, named callable⟩

end Normalization

end Juxtaposition
