import Juxtaposition.Proofs.Expr.Normal
import Juxtaposition.Proofs.Expr.PlacedLeaves
import Juxtaposition.Proofs.Rule.Reading
import Juxtaposition.Proofs.Rule.Runs

/-!
# Oversized runs of an expression

The runs of digits of an expression that are too large, read off its leaves from left to right.
No edit takes one of them away, changes the text that it keeps, or brings up another one.
-/

set_option autoImplicit false

namespace Juxtaposition

def PlacedLeaf.runs (options : Options) : PlacedLeaf → List OversizedRun
  | ⟨.name text, isCallee⟩ => options.nameRuns isCallee text
  | ⟨.integer _, _⟩ => []
  | ⟨.float _ literal, _⟩ => options.literalRuns literal

namespace Expr

def runsAt (options : Options) (isCallee : Bool) (expr : Expr) : List OversizedRun :=
  (expr.placedLeaves isCallee).flatMap (PlacedLeaf.runs options)

def oversizedRuns (options : Options) (expr : Expr) : List OversizedRun :=
  expr.runsAt options false

variable {options : Options} {isCallee : Bool}

@[simp] theorem runsAt_product (lhs rhs : Expr) :
    (product lhs rhs).runsAt options isCallee =
      lhs.runsAt options false ++ rhs.runsAt options false := by
  rw [runsAt, placedLeaves_product, List.flatMap_append]
  rfl

theorem runsAt_identifier (name : String) :
    (identifier name).runsAt options isCallee = options.nameRuns isCallee name := by
  rw [runsAt, placedLeaves, List.flatMap_singleton]
  rfl

theorem runsAt_integer (value : Int64) : (integer value).runsAt options isCallee = [] := by
  rw [runsAt, placedLeaves, List.flatMap_singleton]
  rfl

theorem runsAt_float (value : Binary64) (literal : Option String) :
    (float value literal).runsAt options isCallee = options.literalRuns literal := by
  rw [runsAt, placedLeaves, List.flatMap_singleton]
  rfl

def argumentsRuns (options : Options) (arguments : Option (List Expr)) : List OversizedRun :=
  (argumentsPlaced arguments).flatMap (PlacedLeaf.runs options)

theorem runsAt_named (arguments : Option (List Expr)) (name : String)
    (value : arguments = none → isCallee = false) :
    (named arguments name).runsAt options isCallee =
      options.nameRuns arguments.isSome name ++ argumentsRuns options arguments := by
  rw [runsAt, placedLeaves_named arguments name value, List.flatMap_cons]
  rfl

theorem runsAt_counted (arguments : Option (List Expr)) (value : Int64) :
    (counted arguments value).runsAt options false = argumentsRuns options arguments := by
  rw [runsAt, placedLeaves_counted, List.flatMap_cons]
  rfl

end Expr

namespace NamePiece

variable {options : Options} {name : String}

private theorem runsAt_expr {text : String} {piece : NamePiece} (read : ofText text = .ok piece)
    (inside : text ∈ Text.pieces name) (arguments : Option (List Expr)) :
    (piece.expr arguments).runsAt options false =
      options.trailingRuns arguments.isSome text ++ Expr.argumentsRuns options arguments := by
  cases piece with
  | name letters =>
      obtain rfl := ofText_eq_name read
      rw [expr, Expr.runsAt_named arguments _ fun _ => rfl,
        Options.nameRuns_of_mem_pieces inside]
  | number value =>
      obtain ⟨numeral, _⟩ := ofText_eq_number read
      have digit : Text.startsInDigit text = true := by
        obtain ⟨nonempty, areDigits⟩ := Text.isNumeral_iff.mp numeral
        obtain ⟨first, rest, shape⟩ := List.exists_cons_of_ne_nil nonempty
        have isDigit := areDigits first (by rw [shape]; exact List.mem_cons_self)
        simp [Text.startsInDigit, shape, isDigit]
      rw [expr, Expr.runsAt_counted, Options.trailingRuns, digit, Bool.or_true]
      rfl

/-- A chain of factors has the runs of the pieces that it was read from. -/
theorem runsAt_exprChain {texts : List String} {first : NamePiece} {rest : List NamePiece}
    (read : texts.mapM ofText = .ok (first :: rest))
    (inside : ∀ text ∈ texts, text ∈ Text.pieces name) (arguments : Option (List Expr)) :
    (exprChain arguments first rest).runsAt options false =
      options.pieceRuns arguments.isSome texts ++ Expr.argumentsRuns options arguments := by
  induction texts generalizing first rest with
  | nil => cases read
  | cons text texts ih =>
      obtain ⟨piece, pieces, head, tail, same⟩ := mapM_cons_eq_ok read
      cases same
      have here := inside text List.mem_cons_self
      cases texts with
      | nil =>
          cases tail
          exact runsAt_expr head here arguments
      | cons second texts =>
          obtain ⟨following, pieces, _, _, rfl⟩ := mapM_cons_eq_ok tail
          have later := ih tail fun text member => inside text (List.mem_cons_of_mem _ member)
          rw [exprChain, Expr.runsAt_product, later, runsAt_expr head here none]
          simp [Expr.argumentsRuns, Expr.argumentsPlaced, Options.pieceRuns]

end NamePiece

namespace Expr

variable {options : Options} {old new expr expr' first last : Expr}

private theorem placedLeaves_of_isCallOrGroup {callee : Expr}
    (called : callee.isCallOrGroup = true) (isCallee : Bool) :
    callee.placedLeaves isCallee = callee.placedLeaves false := by
  cases callee with
  | call callee arguments => rw [placedLeaves, placedLeaves]
  | group items => rw [placedLeaves, placedLeaves]
  | _ => cases called

private theorem runsAt_literal {text : String} {literal : ExponentLiteral} {value : Binary64}
    {here : Bool} (lenient : options.strictSyntax = false)
    (found : ExponentLiteral.ofText? text = some literal)
    (read : literal.expr = .ok new) :
    (float value (some text)).runsAt options here = [] ∧ new.runsAt options here = [] := by
  constructor
  · rw [runsAt_float,
      Options.literalRuns_of_splits lenient (ExponentLiteral.splits_of_ofText? found)]
    cases drafted : literal.draft with
    | error number =>
        rw [literal.expr_eq fun _ => .integer 0, drafted] at read
        cases read
    | ok draft => simp [ExponentLiteral.oversizedDigits?_of_draft_ok drafted]
  · have marker : (identifier (String.ofList [literal.marker])).runsAt options false = [] := by
      rw [runsAt_identifier, Options.nameRuns_of_whole (ExponentLiteral.split_marker found)]
    obtain ⟨mantissa, exponent, mantissaRead, shape⟩ := ExponentLiteral.expr_eq_ok read
    have bare : mantissa.runsAt options false = [] := by
      rcases ExponentLiteral.mantissaExpr_eq_ok mantissaRead with ⟨value, rfl⟩ | ⟨value, rfl⟩
      · rw [runsAt_float, Options.literalRuns]
      · rw [runsAt_integer]
    rcases shape with ⟨operator, rfl⟩ | rfl
    · rw [runsAt, placedLeaves, List.flatMap_append]
      change (product _ _).runsAt options false ++ (integer exponent).runsAt options false = []
      rw [runsAt_product, bare, marker, runsAt_integer]
      rfl
    · rw [runsAt_product, runsAt_product, bare, marker, runsAt_integer]
      rfl

private theorem value_of_unnamed {arguments : Option (List Expr)} {name : String} {here : Bool}
    (unnamed : here = true → (named arguments name).name? = none) :
    arguments = none → here = false := by
  rintro rfl
  cases here with
  | false => rfl
  | true => cases unnamed rfl

/-- A reduction keeps the oversized runs and their order. -/
theorem Reduces.runsAt_eq (reduces : Reduces options old new) {here : Bool}
    (unnamed : here = true → old.name? = none) :
    new.runsAt options here = old.runsAt options here := by
  cases reduces with
  | @callOfCall callee arguments called =>
      rw [runsAt, runsAt, placedLeaves_product, placedLeaves_group, placedLeaves_call,
        placedLeaves_of_isCallOrGroup called true]
  | @nonFunction name reason arguments isKept found =>
      have same := Options.split_value_eq_of_nonFunction found
      have asValue : options.nameRuns false name = options.nameRuns true name := by
        rw [Options.nameRuns_of_isKept isKept, ← same, Options.nameRuns_of_isKept]
        rwa [same]
      have called : (named (some arguments) name).runsAt options here = _ :=
        runsAt_named (some arguments) name nofun
      rw [named, Option.isSome_some] at called
      rw [called, runsAt_product, runsAt_identifier, asValue, runsAt, placedLeaves_group]
      rfl
  | @pieces arguments name first second rest split =>
      obtain ⟨_, _, read⟩ := Options.split_eq_pieces split
      have chain : (NamePiece.exprChain arguments first (second :: rest)).runsAt options false = _ :=
        NamePiece.runsAt_exprChain read (fun _ member => member) arguments
      have anywhere : (NamePiece.exprChain arguments first (second :: rest)).runsAt options here =
          (NamePiece.exprChain arguments first (second :: rest)).runsAt options false := by
        rw [NamePiece.exprChain, runsAt_product, runsAt_product]
      rw [anywhere, chain, runsAt_named arguments name (value_of_unnamed unnamed),
        Options.nameRuns_of_pieces split]
  | @trailing arguments name letters value split =>
      have letter : options.nameRuns false letters = [] :=
        Options.nameRuns_of_whole (Options.split_trailing_letters split)
      rw [runsAt_named arguments name (value_of_unnamed unnamed),
        Options.nameRuns_of_trailing split, runsAt_product, runsAt_counted, runsAt_identifier,
        letter]
  | literal lenient found read =>
      obtain ⟨before, after⟩ := runsAt_literal lenient found read
      rw [before, after]

/-- Edits keep the oversized runs. -/
theorem Step.oversizedRuns_eq (step : Step options expr expr') :
    expr'.oversizedRuns options = expr.oversizedRuns options := by
  obtain ⟨old, new, reduces, exchange⟩ := step
  obtain ⟨front, back, here, unnamed, before, after⟩ := exchange.exists_placedLeaves false nofun
  have part : (new.placedLeaves here).flatMap (PlacedLeaf.runs options) =
      (old.placedLeaves here).flatMap (PlacedLeaf.runs options) := reduces.runsAt_eq unnamed
  simp only [oversizedRuns, runsAt, before, after, List.flatMap_append, part]

theorem Steps.oversizedRuns_eq {count : Nat} (steps : Steps options count first last) :
    last.oversizedRuns options = first.oversizedRuns options := by
  induction steps with
  | refl => rfl
  | cons step _ ih => exact ih.trans step.oversizedRuns_eq

end Expr

/-! ## Runs of a tree -/

namespace Tree

variable {tree : Tree} {layout : Layout}

def runsAt (tree : Tree) (options : Options) (id : NodeId) : List OversizedRun :=
  (tree.placedLeaf? id).toList.flatMap (PlacedLeaf.runs options)

theorem Planted.oversizedRuns_exprAlong (planted : tree.Planted layout) (options : Options) :
    (tree.exprAlong layout).oversizedRuns options = layout.places.flatMap (tree.runsAt options) := by
  have value : tree.isCallee layout.place = false := by
    rw [planted.place, isCallee, callHeadedBy?, planted.unheld]
    rfl
  have leaves := planted.spans.placedLeaves_exprAlong planted.nodup fun _ => value
  rw [value] at leaves
  rw [Expr.oversizedRuns, Expr.runsAt, leaves, List.filterMap_eq_flatMap_toList,
    List.flatMap_assoc]
  rfl

end Tree

end Juxtaposition
