import Juxtaposition.Proofs.Expr.Reduction

/-!
# Normal forms

The reading that an expression has once every product in it is written out, by
recursion on the expression. A reduction anywhere in an expression leaves its
normal form as it is.
-/

set_option autoImplicit false

namespace Juxtaposition

/-- A name that is kept whole. Where it is called and cannot be a function, it is
multiplied by the parenthesised arguments. -/
def Expr.kept (options : Options) : (arguments : Option (List Expr)) → (name : String) → Expr
  | none, name => identifier name
  | some arguments, name =>
      if (options.nonFunction? name).isSome then product (identifier name) (group arguments)
      else call (identifier name) arguments

def Expr.normalPiece (options : Options) (arguments : Option (List Expr)) (text : String) : Expr :=
  match options.split arguments.isSome text with
  | .trailing letters value => product (identifier letters) (counted arguments value)
  | _ => kept options arguments text

def NamePiece.normal (options : Options) (arguments : Option (List Expr)) : NamePiece → Expr
  | name text => .normalPiece options arguments text
  | number value => .counted arguments value

/-- The product of the normal forms of several factors, grouped to the right. Only
the last one is called. -/
def NamePiece.normalChain (options : Options) (arguments : Option (List Expr)) :
    NamePiece → List NamePiece → Expr
  | piece, [] => piece.normal options arguments
  | piece, following :: rest =>
      .product (piece.normal options none) (normalChain options arguments following rest)

namespace Expr

def normalName (options : Options) (arguments : Option (List Expr)) (name : String) : Expr :=
  match options.split arguments.isSome name with
  | .pieces first second rest => NamePiece.normalChain options arguments first (second :: rest)
  | _ => normalPiece options arguments name

/-- The normal form of a decimal number. A literal with an exponent marker is taken
apart outside strict syntax, unless one of its numbers is too large. -/
def normalFloat (options : Options) (value : Binary64) : (literal : Option String) → Expr
  | none => float value none
  | some text =>
      if options.strictSyntax then float value (some text)
      else
        match (ExponentLiteral.ofText? text).map ExponentLiteral.expr with
        | some (.ok expr) => expr
        | _ => float value (some text)

mutual

/-- The normal form of an expression. A call of a call or of a group is a product,
and so is a call of a name that cannot be a function. -/
def normal (options : Options) : Expr → Expr
  | identifier name => normalName options none name
  | integer value => integer value
  | float value literal => normalFloat options value literal
  | call callee arguments =>
      match callee.name? with
      | some name => normalName options (some (normalAll options arguments)) name
      | none =>
          if callee.isCallOrGroup then
            product (callee.normal options) (group (normalAll options arguments))
          else call (callee.normal options) (normalAll options arguments)
  | operation operator lhs rhs provenance =>
      operation operator (lhs.normal options) (rhs.normal options) provenance
  | group items => group (normalAll options items)
  | negation operand => negation (operand.normal options)

def normalAll (options : Options) : List Expr → List Expr
  | [] => []
  | expr :: rest => expr.normal options :: normalAll options rest

end

variable {options : Options}

/-- Strict syntax keeps every literal, and a literal without a marker is kept anyway. -/
theorem normalFloat_of_kept {value : Binary64} {text : String}
    (keeps : options.strictSyntax = true ∨ 'e' ∉ text.toList ∧ 'E' ∉ text.toList) :
    normalFloat options value (some text) = float value (some text) := by
  rcases keeps with strict | unmarked
  · simp [normalFloat, strict]
  · simp [normalFloat, ExponentLiteral.ofText?_eq_none_iff.mpr unmarked]

/-- Outside strict syntax the parts around the marker are read, where both are small enough. -/
theorem normalFloat_of_splits {value : Binary64} {text : String} {literal : ExponentLiteral}
    (lenient : options.strictSyntax = false) (splits : literal.Splits text) :
    normalFloat options value (some text) =
      literal.expr.toOption.getD (float value (some text)) := by
  simp only [normalFloat, lenient, ExponentLiteral.ofText?_eq_some_iff.mpr splits,
    Option.map_some]
  cases literal.expr <;> rfl

theorem normalAll_eq_map (exprs : List Expr) :
    normalAll options exprs = exprs.map (normal options) := by
  induction exprs with
  | nil => rfl
  | cons first rest ih => rw [normalAll, ih, List.map_cons]

@[simp] theorem normal_product (lhs rhs : Expr) :
    (product lhs rhs).normal options = product (lhs.normal options) (rhs.normal options) := by
  rw [product, normal, product]

@[simp] theorem normal_group (items : List Expr) :
    (group items).normal options = group (items.map (normal options)) := by
  rw [normal, normalAll_eq_map]

theorem normal_named (options : Options) (arguments : Option (List Expr)) (name : String) :
    (named arguments name).normal options =
      normalName options (arguments.map (List.map (normal options))) name := by
  cases arguments with
  | none => rw [named, normal]; rfl
  | some arguments =>
      rw [named, normal, normalAll_eq_map]
      rfl

theorem normal_counted (arguments : Option (List Expr)) (value : Int64) :
    (counted arguments value).normal options =
      counted (arguments.map (List.map (normal options))) value := by
  cases arguments with
  | none => rw [counted, normal, Option.map_none, counted]
  | some arguments =>
      rw [counted, normal_product, normal, normal_group, Option.map_some, counted]

theorem normal_call_of_unnamed {callee : Expr} (arguments : List Expr)
    (unnamed : callee.name? = none) :
    (call callee arguments).normal options =
      if callee.isCallOrGroup then
        product (callee.normal options) (group (arguments.map (normal options)))
      else call (callee.normal options) (arguments.map (normal options)) := by
  rw [normal, unnamed, normalAll_eq_map]

theorem name?_of_isCallOrGroup {expr : Expr} (called : expr.isCallOrGroup = true) :
    expr.name? = none := by
  cases expr <;> first | rfl | cases called

/-! ## Names -/

theorem normalPiece_of_isKept {arguments : Option (List Expr)} {text : String}
    (isKept : (options.split arguments.isSome text).isKept = true) :
    normalPiece options arguments text = kept options arguments text := by
  rcases Split.isKept_iff.mp isKept with whole | ⟨number, oversized⟩
  · rw [normalPiece, whole]
  · rw [normalPiece, oversized]

theorem normalName_of_isKept {arguments : Option (List Expr)} {name : String}
    (isKept : (options.split arguments.isSome name).isKept = true) :
    normalName options arguments name = kept options arguments name := by
  rw [← normalPiece_of_isKept isKept]
  rcases Split.isKept_iff.mp isKept with whole | ⟨number, oversized⟩
  · rw [normalName, whole]
  · rw [normalName, oversized]

theorem normalName_trailing {arguments : Option (List Expr)} {name letters : String}
    {value : Int64} (split : options.split arguments.isSome name = .trailing letters value) :
    normalName options arguments name =
      product (identifier letters) (counted arguments value) := by
  simp only [normalName, normalPiece, split]

theorem normalName_of_mem_pieces {arguments : Option (List Expr)} {name text : String}
    (member : text ∈ Text.pieces name) :
    normalName options arguments text = normalPiece options arguments text := by
  unfold normalName
  rw [Options.split_of_mem_pieces member]
  split
  · next shape =>
    split at shape
    · cases shape
    · exact absurd shape Options.splitEnd_ne_pieces
  · rfl

end Expr

namespace NamePiece

variable {options : Options}

private theorem normal_expr {name : String} {piece : NamePiece}
    (inside : ∀ text, piece = .name text → text ∈ Text.pieces name)
    (arguments : Option (List Expr)) :
    (piece.expr arguments).normal options =
      piece.normal options (arguments.map (List.map (Expr.normal options))) := by
  cases piece with
  | name text =>
      rw [expr, Expr.normal_named, Expr.normalName_of_mem_pieces (inside text rfl), normal]
  | number value => rw [expr, Expr.normal_counted, normal]

theorem normal_exprChain (options : Options) {name : String} {piece : NamePiece}
    {rest : List NamePiece}
    (inside : ∀ text, NamePiece.name text ∈ piece :: rest → text ∈ Text.pieces name)
    (arguments : Option (List Expr)) :
    (exprChain arguments piece rest).normal options =
      normalChain options (arguments.map (List.map (Expr.normal options))) piece rest := by
  have head (text : String) (same : piece = .name text) : text ∈ Text.pieces name :=
    inside text (by rw [same]; exact List.mem_cons_self)
  induction rest generalizing piece with
  | nil => exact normal_expr head arguments
  | cons following rest ih =>
      have later (text : String) (member : NamePiece.name text ∈ following :: rest) :=
        inside text (List.mem_cons_of_mem _ member)
      rw [exprChain, Expr.normal_product, normal_expr head none, normalChain, Option.map_none,
        ih later fun text same => later text (by rw [same]; exact List.mem_cons_self)]

end NamePiece

namespace ExponentLiteral

theorem normal_expr {options : Options} {text : String} {literal : ExponentLiteral} {expr : Expr}
    (found : ofText? text = some literal) (read : literal.expr = .ok expr) :
    expr.normal options = expr := by
  have marker : (Expr.identifier (String.ofList [literal.marker])).normal options =
      .identifier (String.ofList [literal.marker]) := by
    have isKept : (options.split false (String.ofList [literal.marker])).isKept = true := by
      rw [split_marker found]
      rfl
    rw [Expr.normal, Expr.normalName_of_isKept isKept, Expr.kept]
  obtain ⟨mantissa, exponent, mantissaRead, shape⟩ := expr_eq_ok read
  have fixed : mantissa.normal options = mantissa := by
    rcases mantissaExpr_eq_ok mantissaRead with ⟨value, rfl⟩ | ⟨value, rfl⟩
    · rw [Expr.normal, Expr.normalFloat]
    · rw [Expr.normal]
  rcases shape with ⟨operator, rfl⟩ | rfl
  · rw [Expr.normal, Expr.normal_product, fixed, marker, Expr.normal]
  · rw [Expr.normal_product, Expr.normal_product, fixed, marker, Expr.normal]

end ExponentLiteral

namespace Expr

/-- A reduction leaves the normal form as it is. -/
theorem Reduces.normal_eq {options : Options} {old new : Expr} (reduces : Reduces options old new) :
    old.normal options = new.normal options := by
  cases reduces with
  | @callOfCall callee arguments called =>
      rw [normal_call_of_unnamed arguments (name?_of_isCallOrGroup called), if_pos called,
        normal_product, normal_group]
  | @nonFunction name reason arguments isKept found =>
      have isKeptValue : (options.split false name).isKept = true := by
        rw [Options.split_value_eq_of_nonFunction found, isKept]
      have called := normal_named options (some arguments) name
      rw [named] at called
      rw [called, normalName_of_isKept isKept, normal_product, normal_group, normal,
        normalName_of_isKept isKeptValue]
      simp [kept, found]
  | @pieces arguments name first second rest split =>
      obtain ⟨_, _, read⟩ := Options.split_eq_pieces split
      have chain := NamePiece.normal_exprChain options (NamePiece.mapM_ofText_eq_ok read).2
        arguments
      rw [chain, normal_named]
      unfold normalName
      rw [Option.isSome_map, split]
  | @trailing arguments name letters value split =>
      have isKept : (options.split false letters).isKept = true := by
        rw [Options.split_trailing_letters split]
        rfl
      rw [normal_named, normalName_trailing (by rwa [Option.isSome_map]), normal_product,
        normal_counted, normal, normalName_of_isKept isKept, kept]
  | literal lenient found read =>
      rw [ExponentLiteral.normal_expr found read, normal,
        normalFloat_of_splits lenient (ExponentLiteral.splits_of_ofText? found), read]
      rfl

/-- Normal forms depend on a part only through its normal form. -/
theorem Exchanges.normal_eq {options : Options} {old new expr expr' : Expr}
    (exchange : Exchanges old new expr expr') (same : old.normal options = new.normal options) :
    expr.normal options = expr'.normal options := by
  induction exchange with
  | here => exact same
  | callee _ alike ih =>
      rw [normal_call_of_unnamed _ alike.unnamed_left, normal_call_of_unnamed _ alike.unnamed_right,
        alike.isCallOrGroup, ih]
  | argument _ ih => simp only [normal, normalAll_eq_map, List.map_append, List.map_cons, ih]
  | lhs _ ih => simp only [normal, ih]
  | rhs _ ih => simp only [normal, ih]
  | item _ ih => simp only [normal_group, List.map_append, List.map_cons, ih]
  | operand _ ih => simp only [normal, ih]

theorem Step.normal_eq {options : Options} {expr expr' : Expr} (step : Step options expr expr') :
    expr.normal options = expr'.normal options := by
  obtain ⟨_, _, reduces, exchange⟩ := step
  exact exchange.normal_eq reduces.normal_eq

theorem Steps.normal_eq {options : Options} {count : Nat} {expr expr' : Expr}
    (steps : Steps options count expr expr') : expr.normal options = expr'.normal options := by
  induction steps with
  | refl => rfl
  | cons step _ ih => exact step.normal_eq.trans ih

end Expr

end Juxtaposition
