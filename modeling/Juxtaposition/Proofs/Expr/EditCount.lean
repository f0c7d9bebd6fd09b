import Juxtaposition.Proofs.Expr.Normal

/-!
# Counting edits

The number of reductions that an expression takes, by recursion on it. Every
reduction lowers the count by one, the count is bounded by the size of the
expression, and an expression that takes none is in normal form.
-/

set_option autoImplicit false

namespace Juxtaposition

namespace Options

def keptCount (options : Options) (isCallee : Bool) (name : String) : Nat :=
  if isCallee && (options.nonFunction? name).isSome then 1 else 0

def pieceCount (options : Options) (isCallee : Bool) (text : String) : Nat :=
  match options.split isCallee text with
  | .trailing _ _ => 1
  | _ => options.keptCount isCallee text

end Options

def NamePiece.editCount (options : Options) (isCallee : Bool) : NamePiece → Nat
  | name text => options.pieceCount isCallee text
  | number _ => 0

def NamePiece.chainCount (options : Options) (isCallee : Bool) :
    NamePiece → List NamePiece → Nat
  | piece, [] => piece.editCount options isCallee
  | piece, following :: rest =>
      piece.editCount options false + chainCount options isCallee following rest

def Options.nameCount (options : Options) (isCallee : Bool) (name : String) : Nat :=
  match options.split isCallee name with
  | .pieces first second rest => NamePiece.chainCount options isCallee first (second :: rest) + 1
  | _ => options.pieceCount isCallee name

namespace Expr

def literalCount (options : Options) : (literal : Option String) → Nat
  | none => 0
  | some text =>
      if options.strictSyntax then 0
      else
        match (ExponentLiteral.ofText? text).map ExponentLiteral.expr with
        | some (.ok _) => 1
        | _ => 0

mutual

def editCount (options : Options) : Expr → Nat
  | identifier name => options.nameCount false name
  | integer _ => 0
  | float _ literal => literalCount options literal
  | call callee arguments =>
      (match callee.name? with
        | some name => options.nameCount true name
        | none => callee.editCount options + if callee.isCallOrGroup then 1 else 0) +
        editCountAll options arguments
  | operation _ lhs rhs _ => lhs.editCount options + rhs.editCount options
  | group items => editCountAll options items
  | negation operand => operand.editCount options

def editCountAll (options : Options) : List Expr → Nat
  | [] => 0
  | expr :: rest => expr.editCount options + editCountAll options rest

end

variable {options : Options}

theorem editCountAll_append (before after : List Expr) :
    editCountAll options (before ++ after) =
      editCountAll options before + editCountAll options after := by
  induction before with
  | nil => rw [List.nil_append, editCountAll, Nat.zero_add]
  | cons first rest ih => rw [List.cons_append, editCountAll, editCountAll, ih, Nat.add_assoc]

@[simp] theorem editCount_product (lhs rhs : Expr) :
    (product lhs rhs).editCount options = lhs.editCount options + rhs.editCount options := by
  rw [product, editCount]

def argumentsCount (options : Options) (arguments : Option (List Expr)) : Nat :=
  (arguments.map (editCountAll options)).getD 0

theorem editCount_named (options : Options) (arguments : Option (List Expr)) (name : String) :
    (named arguments name).editCount options =
      options.nameCount arguments.isSome name + argumentsCount options arguments := by
  cases arguments with
  | none => rw [named, editCount]; rfl
  | some arguments => rw [named, editCount]; rfl

theorem editCount_counted (arguments : Option (List Expr)) (value : Int64) :
    (counted arguments value).editCount options = argumentsCount options arguments := by
  cases arguments with
  | none => rw [counted, editCount]; rfl
  | some arguments =>
      rw [counted, editCount_product, editCount, editCount, Nat.zero_add]
      rfl

theorem editCount_call_of_unnamed {callee : Expr} (arguments : List Expr)
    (unnamed : callee.name? = none) :
    (call callee arguments).editCount options =
      callee.editCount options + (if callee.isCallOrGroup then 1 else 0) +
        editCountAll options arguments := by
  rw [editCount, unnamed]

end Expr

namespace Options

variable {options : Options} {isCallee : Bool} {name : String}

theorem pieceCount_of_isKept (isKept : (options.split isCallee name).isKept = true) :
    options.pieceCount isCallee name = options.keptCount isCallee name := by
  rcases Split.isKept_iff.mp isKept with whole | ⟨number, oversized⟩
  · rw [pieceCount, whole]
  · rw [pieceCount, oversized]

theorem nameCount_of_isKept (isKept : (options.split isCallee name).isKept = true) :
    options.nameCount isCallee name = options.keptCount isCallee name := by
  rw [← pieceCount_of_isKept isKept]
  rcases Split.isKept_iff.mp isKept with whole | ⟨number, oversized⟩
  · rw [nameCount, whole]
  · rw [nameCount, oversized]

theorem nameCount_trailing {letters : String} {value : Int64}
    (split : options.split isCallee name = .trailing letters value) :
    options.nameCount isCallee name = 1 := by
  simp only [nameCount, pieceCount, split]

theorem pieceCount_le_one (options : Options) (isCallee : Bool) (text : String) :
    options.pieceCount isCallee text ≤ 1 := by
  unfold pieceCount keptCount
  split
  · exact Nat.le_refl 1
  · split <;> omega

end Options

namespace NamePiece

variable {options : Options}

theorem editCount_le_one (options : Options) (isCallee : Bool) (piece : NamePiece) :
    piece.editCount options isCallee ≤ 1 := by
  cases piece with
  | number value => exact Nat.zero_le 1
  | name text => exact Options.pieceCount_le_one options isCallee text

theorem chainCount_le (options : Options) (isCallee : Bool) (piece : NamePiece)
    (rest : List NamePiece) :
    chainCount options isCallee piece rest ≤ rest.length + 1 := by
  induction rest generalizing piece with
  | nil => exact editCount_le_one options isCallee piece
  | cons following rest ih =>
      have first := editCount_le_one options false piece
      have later := ih following
      rw [chainCount, List.length_cons]
      omega

end NamePiece

namespace Options

variable {options : Options} {isCallee : Bool} {name : String}

theorem nameCount_le (options : Options) (isCallee : Bool) (name : String) :
    options.nameCount isCallee name ≤ name.utf8ByteSize + 1 := by
  unfold nameCount
  split
  · next first second rest split =>
    obtain ⟨_, _, read⟩ := split_eq_pieces split
    have length := (NamePiece.mapM_ofText_eq_ok read).1
    have pieces := Text.length_pieces_le name
    have chain := NamePiece.chainCount_le options isCallee first (second :: rest)
    simp only [List.length_cons] at length chain
    omega
  · have piece := pieceCount_le_one options isCallee name
    omega

theorem nameCount_of_mem_pieces {text : String} (member : text ∈ Text.pieces name) :
    options.nameCount isCallee text = options.pieceCount isCallee text := by
  unfold nameCount
  rw [split_of_mem_pieces member]
  split
  · next shape =>
    split at shape
    · cases shape
    · exact absurd shape splitEnd_ne_pieces
  · rfl

end Options

namespace NamePiece

variable {options : Options}

private theorem editCount_expr (options : Options) {name : String} {piece : NamePiece}
    (inside : ∀ text, piece = .name text → text ∈ Text.pieces name)
    (arguments : Option (List Expr)) :
    (piece.expr arguments).editCount options =
      piece.editCount options arguments.isSome + Expr.argumentsCount options arguments := by
  cases piece with
  | name text =>
      rw [expr, Expr.editCount_named, Options.nameCount_of_mem_pieces (inside text rfl), editCount]
  | number value => rw [expr, Expr.editCount_counted, editCount, Nat.zero_add]

theorem editCount_exprChain {name : String} {piece : NamePiece} {rest : List NamePiece}
    (inside : ∀ text, NamePiece.name text ∈ piece :: rest → text ∈ Text.pieces name)
    (arguments : Option (List Expr)) :
    (exprChain arguments piece rest).editCount options =
      chainCount options arguments.isSome piece rest + Expr.argumentsCount options arguments := by
  have head (text : String) (same : piece = .name text) : text ∈ Text.pieces name :=
    inside text (by rw [same]; exact List.mem_cons_self)
  induction rest generalizing piece with
  | nil => exact editCount_expr options head arguments
  | cons following rest ih =>
      have later (text : String) (member : NamePiece.name text ∈ following :: rest) :=
        inside text (List.mem_cons_of_mem _ member)
      have tail := ih later fun text same => later text (by rw [same]; exact List.mem_cons_self)
      have first := editCount_expr options head none
      rw [exprChain, Expr.editCount_product, first, chainCount, tail]
      simp only [Option.isSome_none, Expr.argumentsCount, Option.map_none, Option.getD_none]
      omega

end NamePiece

namespace Expr

variable {options : Options}

/-- A reduction is one edit. -/
theorem Reduces.editCount_eq {old new : Expr} (reduces : Reduces options old new) :
    old.editCount options = new.editCount options + 1 := by
  cases reduces with
  | @callOfCall callee arguments called =>
      rw [editCount_call_of_unnamed arguments (name?_of_isCallOrGroup called), if_pos called,
        editCount_product, editCount]
      omega
  | @nonFunction name reason arguments isKept found =>
      have isKeptValue : (options.split false name).isKept = true := by
        rw [Options.split_value_eq_of_nonFunction found, isKept]
      have called := editCount_named options (some arguments) name
      rw [named, Option.isSome_some, Options.nameCount_of_isKept isKept] at called
      rw [called, editCount_product, editCount, editCount,
        Options.nameCount_of_isKept isKeptValue]
      simp [Options.keptCount, found, argumentsCount, Nat.add_comm]
  | @pieces arguments name first second rest split =>
      obtain ⟨_, _, read⟩ := Options.split_eq_pieces split
      rw [NamePiece.editCount_exprChain (NamePiece.mapM_ofText_eq_ok read).2 arguments,
        editCount_named]
      unfold Options.nameCount
      rw [split]
      dsimp only
      omega
  | @trailing arguments name letters value split =>
      have isKept : (options.split false letters).isKept = true := by
        rw [Options.split_trailing_letters split]
        rfl
      rw [editCount_named, Options.nameCount_trailing split, editCount_product, editCount_counted,
        editCount, Options.nameCount_of_isKept isKept]
      simp only [Options.keptCount, Bool.false_and, Bool.false_eq_true, if_false]
      omega
  | @literal value text literal expr lenient found read =>
      have spent : (float value (some text)).editCount options = 1 := by
        rw [editCount, literalCount]
        simp [lenient, found, read]
      have marker : (identifier (String.ofList [literal.marker])).editCount options = 0 := by
        have isKept : (options.split false (String.ofList [literal.marker])).isKept = true := by
          rw [ExponentLiteral.split_marker found]
          rfl
        rw [editCount, Options.nameCount_of_isKept isKept]
        rfl
      obtain ⟨mantissa, exponent, mantissaRead, shape⟩ := ExponentLiteral.expr_eq_ok read
      have fixed : mantissa.editCount options = 0 := by
        rcases ExponentLiteral.mantissaExpr_eq_ok mantissaRead with ⟨value, rfl⟩ | ⟨value, rfl⟩
        · rw [editCount, literalCount]
        · rw [editCount]
      rw [spent]
      rcases shape with ⟨operator, rfl⟩ | rfl
      · rw [editCount, editCount_product, fixed, marker, editCount]
      · rw [editCount_product, editCount_product, fixed, marker, editCount]

theorem Exchanges.editCount_eq {old new expr expr' : Expr}
    (exchange : Exchanges old new expr expr')
    (fewer : old.editCount options = new.editCount options + 1) :
    expr.editCount options = expr'.editCount options + 1 := by
  induction exchange with
  | here => exact fewer
  | callee _ alike ih =>
      rw [editCount_call_of_unnamed _ alike.unnamed_left,
        editCount_call_of_unnamed _ alike.unnamed_right, alike.isCallOrGroup, ih]
      omega
  | argument _ ih =>
      simp only [editCount, editCountAll_append, editCountAll, ih]
      omega
  | lhs _ ih => simp only [editCount, ih]; omega
  | rhs _ ih => simp only [editCount, ih]; omega
  | item _ ih =>
      simp only [editCount, editCountAll_append, editCountAll, ih]
      omega
  | operand _ ih => simp only [editCount, ih]

theorem Step.editCount_eq {expr expr' : Expr} (step : Step options expr expr') :
    expr.editCount options = expr'.editCount options + 1 := by
  obtain ⟨_, _, reduces, exchange⟩ := step
  exact exchange.editCount_eq reduces.editCount_eq

theorem Steps.editCount_eq {count : Nat} {expr expr' : Expr}
    (steps : Steps options count expr expr') :
    expr.editCount options = expr'.editCount options + count := by
  induction steps with
  | refl => rfl
  | cons step _ ih => rw [step.editCount_eq, ih, Nat.add_assoc]

end Expr

/-! ## Nothing left to edit -/

theorem Options.isKept_of_nameCount_eq_zero {options : Options} {isCallee : Bool} {name : String}
    (none : options.nameCount isCallee name = 0) :
    (options.split isCallee name).isKept = true ∧
      (isCallee = true → options.nonFunction? name = .none) := by
  have isKept : (options.split isCallee name).isKept = true := by
    cases split : options.split isCallee name with
    | whole => rfl
    | oversized number => rfl
    | pieces first second rest =>
        unfold nameCount at none
        rw [split] at none
        cases none
    | trailing letters value =>
        rw [nameCount_trailing split] at none
        cases none
  refine ⟨isKept, fun called => ?_⟩
  rw [nameCount_of_isKept isKept, keptCount, called] at none
  cases found : options.nonFunction? name with
  | none => rfl
  | some reason => simp [found] at none

namespace Expr

variable {options : Options}

private theorem map_normal_eq_self {exprs : List Expr}
    (inner : ∀ expr ∈ exprs, expr.editCount options = 0 → expr.normal options = expr)
    (none : editCountAll options exprs = 0) : exprs.map (normal options) = exprs := by
  induction exprs with
  | nil => rfl
  | cons first rest ih =>
      rw [editCountAll, Nat.add_eq_zero_iff] at none
      rw [List.map_cons, inner first List.mem_cons_self none.1,
        ih (fun expr member => inner expr (List.mem_cons_of_mem _ member)) none.2]

theorem normal_eq_self_of_editCount_eq_zero {expr : Expr} (none : expr.editCount options = 0) :
    expr.normal options = expr := by
  induction expr using Expr.induction with
  | identifier name =>
      rw [editCount] at none
      rw [normal, normalName_of_isKept (Options.isKept_of_nameCount_eq_zero none).1, kept]
  | integer value => rw [normal]
  | float value literal =>
      rw [editCount] at none
      rw [normal]
      cases literal with
      | none => rfl
      | some text =>
          unfold literalCount at none
          unfold normalFloat
          dsimp only at none ⊢
          split
          · rfl
          · next lenient =>
            rw [if_neg lenient] at none
            split
            · next expr read =>
              rw [read] at none
              cases none
            · rfl
  | call callee arguments calleeNormal argumentsNormal =>
      cases found : callee.name? with
      | some name =>
          cases callee with
          | identifier text =>
              have counted := editCount_named options (some arguments) text
              rw [named, none, eq_comm, Nat.add_eq_zero_iff] at counted
              obtain ⟨isKept, isFunction⟩ := Options.isKept_of_nameCount_eq_zero counted.1
              have same := map_normal_eq_self argumentsNormal counted.2
              have called := normal_named options (some arguments) text
              have whole : normalName options (some arguments) text =
                  kept options (some arguments) text := normalName_of_isKept isKept
              rw [named, Option.map_some, same, whole] at called
              rw [called]
              simp [kept, isFunction rfl]
          | _ => cases found
      | none =>
          rw [editCount_call_of_unnamed arguments found] at none
          have called : callee.isCallOrGroup = false := by
            cases called : callee.isCallOrGroup with
            | false => rfl
            | true => simp [called] at none
          rw [called] at none
          simp only [Bool.false_eq_true, if_false, Nat.add_zero, Nat.add_eq_zero_iff] at none
          rw [normal_call_of_unnamed arguments found, called, if_neg Bool.false_ne_true,
            calleeNormal none.1, map_normal_eq_self argumentsNormal none.2]
  | operation operator lhs rhs provenance lhsNormal rhsNormal =>
      rw [editCount, Nat.add_eq_zero_iff] at none
      rw [normal, lhsNormal none.1, rhsNormal none.2]
  | group items itemsNormal =>
      rw [editCount] at none
      rw [normal_group, map_normal_eq_self itemsNormal none]
  | negation operand operandNormal =>
      rw [editCount] at none
      rw [normal, operandNormal none]

end Expr

end Juxtaposition
