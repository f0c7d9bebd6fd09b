import Juxtaposition.Proofs.Expr.EditCount
import Juxtaposition.Proofs.Expr.Runs

/-!
# Protection

Comparing two sets of options. Under options that protect more names or are stricter an
expression takes no more edits and has no more numbers to report, name by name.
-/

set_option autoImplicit false

namespace Juxtaposition

/-- The first options protect no name that the second ones do not protect, and they are
not the stricter ones. -/
structure Options.LooserThan (options guarded : Options) : Prop where
  safeVariables : ∀ name, name ∈ options.safeVariables → name ∈ guarded.safeVariables
  safeFunctions : ∀ name, name ∈ options.safeFunctions → name ∈ guarded.safeFunctions
  strictSyntax : options.strictSyntax = true → guarded.strictSyntax = true

namespace Options.LooserThan

variable {options guarded : Options} {isCallee : Bool} {name : String}

theorem safeAsFunction (looser : options.LooserThan guarded)
    (safe : options.safeAsFunction name = true) : guarded.safeAsFunction name = true := by
  apply Std.TreeSet.mem_iff_contains.mp
  apply looser.safeFunctions
  exact Std.TreeSet.mem_iff_contains.mpr safe

theorem safeAsVariable (looser : options.LooserThan guarded)
    (safe : options.safeAsVariable name = true) : guarded.safeAsVariable name = true := by
  apply Std.TreeSet.mem_iff_contains.mp
  apply looser.safeVariables
  exact Std.TreeSet.mem_iff_contains.mpr safe

theorem exemptsCallee (looser : options.LooserThan guarded)
    (exempt : options.exemptsCallee name = true) : guarded.exemptsCallee name = true := by
  simp only [Options.exemptsCallee, Bool.or_eq_true] at exempt ⊢
  exact exempt.imp_right looser.safeAsFunction

theorem exemptsName (looser : options.LooserThan guarded)
    (exempt : options.exemptsName isCallee name = true) :
    guarded.exemptsName isCallee name = true := by
  simp only [Options.exemptsName, Bool.or_eq_true, Bool.and_eq_true] at exempt ⊢
  rcases exempt with (logarithm | safeVariable) | ⟨called, safeFunction⟩
  · exact .inl (.inl logarithm)
  · exact .inl (.inr (looser.safeAsVariable safeVariable))
  · exact .inr ⟨called, looser.safeAsFunction safeFunction⟩

theorem free (looser : options.LooserThan guarded)
    (free : guarded.exemptsName isCallee name = false) :
    options.exemptsName isCallee name = false := by
  cases exempt : options.exemptsName isCallee name with
  | false => rfl
  | true =>
      rw [looser.exemptsName exempt] at free
      cases free

theorem lenient (looser : options.LooserThan guarded) (lenient : guarded.strictSyntax = false) :
    options.strictSyntax = false := by
  cases strict : options.strictSyntax with
  | false => rfl
  | true =>
      rw [looser.strictSyntax strict] at lenient
      cases lenient

/-- Protection never makes a function of the name of one into the name of none. -/
theorem nonFunction? (looser : options.LooserThan guarded)
    (found : (guarded.nonFunction? name).isSome = true) :
    (options.nonFunction? name).isSome = true := by
  unfold Options.nonFunction? at found ⊢
  split at found
  · cases found
  · next free =>
    have freeToo : ¬ options.exemptsCallee name = true := fun exempt =>
      free (looser.exemptsCallee exempt)
    rw [if_neg freeToo]
    split
    · rfl
    · next noDigit =>
      rw [if_neg noDigit] at found
      split
      · rfl
      · next notImaginary =>
        rw [if_neg notImaginary] at found
        split at found
        · next single =>
          simp only [Bool.and_eq_true, Bool.not_eq_true'] at single
          simp [looser.lenient single.1, single.2]
        · cases found

/-- A name is either kept whole under more protection, or it comes apart as it did. -/
theorem split_cases (looser : options.LooserThan guarded) (isCallee : Bool) (name : String) :
    guarded.split isCallee name = .whole ∨
      options.split isCallee name = guarded.split isCallee name := by
  unfold Options.split
  cases exempt : guarded.exemptsName isCallee name with
  | true => exact .inl rfl
  | false =>
      rw [looser.free exempt]
      simp only [Bool.false_eq_true, if_false]
      split
      · unfold splitEnd
        cases strict : guarded.strictSyntax with
        | true => exact .inl rfl
        | false =>
            rw [looser.lenient strict]
            exact .inr rfl
      · exact .inr rfl

/-! ## Edits -/

theorem keptCount_le (looser : options.LooserThan guarded) (isCallee : Bool) (name : String) :
    guarded.keptCount isCallee name ≤ options.keptCount isCallee name := by
  unfold keptCount
  cases isCallee with
  | false => exact Nat.le_refl 0
  | true =>
      cases found : (guarded.nonFunction? name).isSome with
      | false => exact Nat.zero_le _
      | true =>
          rw [looser.nonFunction? found]

theorem keptCount_le_one (options : Options) (isCallee : Bool) (name : String) :
    options.keptCount isCallee name ≤ 1 := by
  unfold keptCount
  split <;> omega

theorem keptCount_le_pieceCount (options : Options) (isCallee : Bool) (name : String) :
    options.keptCount isCallee name ≤ options.pieceCount isCallee name := by
  unfold pieceCount
  split
  · exact keptCount_le_one options isCallee name
  · exact Nat.le_refl _

theorem pieceCount_le (looser : options.LooserThan guarded) (isCallee : Bool) (name : String) :
    guarded.pieceCount isCallee name ≤ options.pieceCount isCallee name := by
  rcases looser.split_cases isCallee name with whole | same
  · have kept : guarded.pieceCount isCallee name = guarded.keptCount isCallee name :=
      pieceCount_of_isKept (by rw [whole]; rfl)
    rw [kept]
    exact (looser.keptCount_le isCallee name).trans (keptCount_le_pieceCount options isCallee name)
  · unfold pieceCount
    rw [same]
    split
    · exact Nat.le_refl 1
    · exact looser.keptCount_le isCallee name

theorem chainCount_le (looser : options.LooserThan guarded) (isCallee : Bool)
    (piece : NamePiece) (rest : List NamePiece) :
    NamePiece.chainCount guarded isCallee piece rest ≤
      NamePiece.chainCount options isCallee piece rest := by
  have single (isCallee : Bool) (piece : NamePiece) :
      piece.editCount guarded isCallee ≤ piece.editCount options isCallee := by
    cases piece with
    | name text => exact looser.pieceCount_le isCallee text
    | number value => exact Nat.le_refl 0
  induction rest generalizing piece with
  | nil => exact single isCallee piece
  | cons following rest ih => exact Nat.add_le_add (single false piece) (ih following)

theorem nameCount_le (looser : options.LooserThan guarded) (isCallee : Bool) (name : String) :
    guarded.nameCount isCallee name ≤ options.nameCount isCallee name := by
  rcases looser.split_cases isCallee name with whole | same
  · have kept : guarded.nameCount isCallee name = guarded.keptCount isCallee name :=
      nameCount_of_isKept (by rw [whole]; rfl)
    have single : guarded.keptCount isCallee name ≤ options.pieceCount isCallee name :=
      (looser.keptCount_le isCallee name).trans (keptCount_le_pieceCount options isCallee name)
    rw [kept]
    unfold nameCount
    split
    · have bound := keptCount_le_one guarded isCallee name
      omega
    · exact single
  · unfold nameCount
    rw [same]
    split
    · exact Nat.add_le_add_right (looser.chainCount_le isCallee _ _) 1
    · exact looser.pieceCount_le isCallee name

end Options.LooserThan

namespace Expr

variable {options guarded : Options}

theorem literalCount_le (looser : options.LooserThan guarded) (literal : Option String) :
    literalCount guarded literal ≤ literalCount options literal := by
  cases literal with
  | none => exact Nat.le_refl 0
  | some text =>
      unfold literalCount
      dsimp only
      cases strict : guarded.strictSyntax with
      | true => exact Nat.zero_le _
      | false =>
          rw [looser.lenient strict]

private theorem editCountAll_le {exprs : List Expr}
    (inner : ∀ expr ∈ exprs, expr.editCount guarded ≤ expr.editCount options) :
    editCountAll guarded exprs ≤ editCountAll options exprs := by
  induction exprs with
  | nil => exact Nat.le_refl 0
  | cons first rest ih =>
      exact Nat.add_le_add (inner first List.mem_cons_self)
        (ih fun expr member => inner expr (List.mem_cons_of_mem _ member))

/-- Under more protection an expression takes no more edits. -/
theorem editCount_le (looser : options.LooserThan guarded) (expr : Expr) :
    expr.editCount guarded ≤ expr.editCount options := by
  induction expr using namedInduction with
  | named arguments name inArguments =>
      rw [editCount_named, editCount_named]
      apply Nat.add_le_add (looser.nameCount_le _ name)
      cases arguments with
      | none => exact Nat.le_refl 0
      | some arguments => exact editCountAll_le inArguments
  | integer value => exact Nat.le_refl 0
  | float value literal => exact literalCount_le looser literal
  | call callee arguments unnamed inCallee inArguments =>
      rw [editCount_call_of_unnamed arguments unnamed, editCount_call_of_unnamed arguments unnamed]
      have below := editCountAll_le inArguments
      omega
  | operation operator lhs rhs provenance inLhs inRhs => exact Nat.add_le_add inLhs inRhs
  | group items inItems => exact editCountAll_le inItems
  | negation operand inOperand => exact inOperand

end Expr

/-! ## Oversized runs -/

namespace Options.LooserThan

variable {options guarded : Options}

theorem trailingRuns_sublist (looser : options.LooserThan guarded) (isCallee : Bool)
    (piece : String) :
    (guarded.trailingRuns isCallee piece).Sublist (options.trailingRuns isCallee piece) := by
  unfold Options.trailingRuns
  cases strict : guarded.strictSyntax with
  | true => exact List.nil_sublist _
  | false =>
      rw [looser.lenient strict]
      cases exempt : guarded.exemptsName isCallee piece with
      | true => exact List.nil_sublist _
      | false =>
          rw [looser.free exempt]

theorem pieceRuns_sublist (looser : options.LooserThan guarded) (isCallee : Bool)
    (pieces : List String) :
    (guarded.pieceRuns isCallee pieces).Sublist (options.pieceRuns isCallee pieces) := by
  induction pieces with
  | nil => exact List.Sublist.refl []
  | cons piece rest ih =>
      cases rest with
      | nil => exact looser.trailingRuns_sublist isCallee piece
      | cons following rest => exact (looser.trailingRuns_sublist false piece).append ih

theorem nameRuns_sublist (looser : options.LooserThan guarded) (isCallee : Bool)
    (name : String) :
    (guarded.nameRuns isCallee name).Sublist (options.nameRuns isCallee name) := by
  unfold Options.nameRuns
  cases exempt : guarded.exemptsName isCallee name with
  | true => exact List.nil_sublist _
  | false =>
      rw [looser.free exempt]
      simp only [Bool.false_eq_true, if_false]
      cases Text.oversizedLead? name with
      | some leading => exact List.Sublist.refl _
      | none => exact looser.pieceRuns_sublist isCallee _

theorem literalRuns_sublist (looser : options.LooserThan guarded) (literal : Option String) :
    (guarded.literalRuns literal).Sublist (options.literalRuns literal) := by
  cases literal with
  | none => exact List.Sublist.refl []
  | some text =>
      unfold Options.literalRuns
      dsimp only
      cases strict : guarded.strictSyntax with
      | true => exact List.nil_sublist _
      | false =>
          rw [looser.lenient strict]

end Options.LooserThan

/-- Under more protection an expression has no other numbers to report. -/
theorem Expr.oversized_sublist {options guarded : Options} (looser : options.LooserThan guarded)
    (expr : Expr) : (expr.oversizedRuns guarded).Sublist (expr.oversizedRuns options) := by
  apply List.Sublist.flatMap_right
  intro placed _
  obtain ⟨leaf, isCallee⟩ := placed
  cases leaf with
  | name text => exact looser.nameRuns_sublist isCallee text
  | integer value => exact List.Sublist.refl []
  | float value literal => exact looser.literalRuns_sublist literal

end Juxtaposition
