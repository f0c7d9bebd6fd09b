import Juxtaposition.Proofs.Rule.Split
import Juxtaposition.Proofs.Rule.Marker

/-!
# Reductions of expressions

One edit by the standard rules, said without an arena: a subexpression that some
rule recognises is exchanged for its reading. An exchange takes place inside an
expression whose calls elsewhere keep their kind of callee.
-/

set_option autoImplicit false

namespace Juxtaposition

namespace Expr

@[elab_as_elim]
theorem induction {motive : Expr → Prop}
    (identifier : ∀ name, motive (.identifier name))
    (integer : ∀ value, motive (.integer value))
    (float : ∀ value literal, motive (.float value literal))
    (call : ∀ callee arguments, motive callee → (∀ item ∈ arguments, motive item) →
      motive (.call callee arguments))
    (operation : ∀ operator lhs rhs provenance, motive lhs → motive rhs →
      motive (.operation operator lhs rhs provenance))
    (group : ∀ items, (∀ item ∈ items, motive item) → motive (.group items))
    (negation : ∀ operand, motive operand → motive (.negation operand)) :
    ∀ expr, motive expr
  | .identifier name => identifier name
  | .integer value => integer value
  | .float value literal => float value literal
  | .call callee arguments =>
      call callee arguments
        (induction identifier integer float call operation group negation callee)
        fun item _ => induction identifier integer float call operation group negation item
  | .operation operator lhs rhs provenance =>
      operation operator lhs rhs provenance
        (induction identifier integer float call operation group negation lhs)
        (induction identifier integer float call operation group negation rhs)
  | .group items =>
      group items fun item _ =>
        induction identifier integer float call operation group negation item
  | .negation operand =>
      negation operand (induction identifier integer float call operation group negation operand)

def product (lhs rhs : Expr) : Expr :=
  operation .mul lhs rhs .missing

def name? : Expr → Option String
  | identifier name => some name
  | _ => none

def isCallOrGroup : Expr → Bool
  | call _ _ | group _ => true
  | _ => false

def named : (arguments : Option (List Expr)) → (name : String) → Expr
  | none, name => identifier name
  | some arguments, name => call (identifier name) arguments

def counted : (arguments : Option (List Expr)) → (value : Int64) → Expr
  | none, value => integer value
  | some arguments, value => product (integer value) (group arguments)

/-- An induction in which a name is taken together with the arguments that it is called
with. -/
@[elab_as_elim]
theorem namedInduction {motive : Expr → Prop}
    (named : ∀ arguments name, (∀ item ∈ arguments.getD [], motive item) →
      motive (.named arguments name))
    (integer : ∀ value, motive (.integer value))
    (float : ∀ value literal, motive (.float value literal))
    (call : ∀ callee arguments, callee.name? = none → motive callee →
      (∀ item ∈ arguments, motive item) → motive (.call callee arguments))
    (operation : ∀ operator lhs rhs provenance, motive lhs → motive rhs →
      motive (.operation operator lhs rhs provenance))
    (group : ∀ items, (∀ item ∈ items, motive item) → motive (.group items))
    (negation : ∀ operand, motive operand → motive (.negation operand)) (expr : Expr) :
    motive expr := by
  induction expr using induction with
  | identifier name => exact named none name (by simp)
  | integer value => exact integer value
  | float value literal => exact float value literal
  | call callee arguments inCallee inArguments =>
      cases callee with
      | identifier name => exact named (some arguments) name inArguments
      | _ => exact call _ arguments rfl inCallee inArguments
  | operation operator lhs rhs provenance inLhs inRhs =>
      exact operation operator lhs rhs provenance inLhs inRhs
  | group items inItems => exact group items inItems
  | negation operand inOperand => exact negation operand inOperand

end Expr

def NamePiece.expr (arguments : Option (List Expr)) : NamePiece → Expr
  | name text => .named arguments text
  | number value => .counted arguments value

def NamePiece.exprChain (arguments : Option (List Expr)) : NamePiece → List NamePiece → Expr
  | piece, [] => piece.expr arguments
  | piece, following :: rest => .product (piece.expr none) (exprChain arguments following rest)

namespace ExponentLiteral

def mantissaExpr (literal : ExponentLiteral) : Except Oversized Expr :=
  if literal.mantissa.toList.contains '.' then
    .ok (.float (Text.readDecimalStart literal.mantissa) none)
  else (Text.readIntegerStart literal.mantissa).map .integer

/-- The mantissa times the marker times the exponent, or the exponent added to or
subtracted from the product of the other two when it has a sign. -/
def expr (literal : ExponentLiteral) : Except Oversized Expr := do
  let exponent ← Text.readIntegerStart literal.exponent
  let mantissa ← literal.mantissaExpr
  let marker := Expr.identifier (String.ofList [literal.marker])
  match literal.sign? with
  | some operator =>
      return .operation operator (.product mantissa marker) (.integer exponent.abs) .missing
  | none => return .product mantissa (.product marker (.integer exponent))

theorem mantissaExpr_eq_ok {literal : ExponentLiteral} {mantissa : Expr}
    (read : literal.mantissaExpr = .ok mantissa) :
    (∃ value, mantissa = .float value none) ∨ ∃ value, mantissa = .integer value := by
  unfold mantissaExpr at read
  split at read
  · cases read
    exact .inl ⟨_, rfl⟩
  · cases value : Text.readIntegerStart literal.mantissa with
    | error _ => rw [value] at read; cases read
    | ok _ =>
        rw [value] at read
        cases read
        exact .inr ⟨_, rfl⟩

theorem expr_eq_ok {literal : ExponentLiteral} {expr : Expr} (read : literal.expr = .ok expr) :
    ∃ mantissa exponent, literal.mantissaExpr = .ok mantissa ∧
      ((∃ operator, expr = .operation operator
          (.product mantissa (.identifier (String.ofList [literal.marker])))
          (.integer exponent) .missing) ∨
        expr = .product mantissa
          (.product (.identifier (String.ofList [literal.marker])) (.integer exponent))) := by
  unfold ExponentLiteral.expr at read
  cases exponentRead : Text.readIntegerStart literal.exponent with
  | error _ => rw [exponentRead] at read; cases read
  | ok exponent =>
      cases mantissaRead : literal.mantissaExpr with
      | error _ => rw [exponentRead, mantissaRead] at read; cases read
      | ok mantissa =>
          simp only [exponentRead, mantissaRead, bind, Except.bind] at read
          cases sign : literal.sign? with
          | none =>
              rw [sign] at read
              cases read
              exact ⟨mantissa, _, rfl, .inr rfl⟩
          | some operator =>
              rw [sign] at read
              cases read
              exact ⟨mantissa, _, rfl, .inl ⟨operator, rfl⟩⟩

theorem split_marker {options : Options} {isCallee : Bool} {text : String}
    {literal : ExponentLiteral} (found : ofText? text = some literal) :
    options.split isCallee (String.ofList [literal.marker]) = .whole :=
  Options.split_of_letters (by simpa using isDigit_marker found)

end ExponentLiteral

namespace Expr

/-- A subexpression that a standard rule recognises, and what the rule puts in its
place. A called name is judged as a function only if it is kept whole. -/
inductive Reduces (options : Options) : Expr → Expr → Prop where
  | callOfCall {callee : Expr} {arguments : List Expr} :
      callee.isCallOrGroup = true →
      Reduces options (.call callee arguments) (.product callee (.group arguments))
  | nonFunction {name reason : String} {arguments : List Expr} :
      (options.split true name).isKept = true → options.nonFunction? name = some reason →
      Reduces options (.call (.identifier name) arguments)
        (.product (.identifier name) (.group arguments))
  | pieces {arguments : Option (List Expr)} {name : String} {first second : NamePiece}
      {rest : List NamePiece} :
      options.split arguments.isSome name = .pieces first second rest →
      Reduces options (.named arguments name)
        (NamePiece.exprChain arguments first (second :: rest))
  | trailing {arguments : Option (List Expr)} {name letters : String} {value : Int64} :
      options.split arguments.isSome name = .trailing letters value →
      Reduces options (.named arguments name)
        (.product (.identifier letters) (.counted arguments value))
  | literal {value : Binary64} {text : String} {literal : ExponentLiteral} {expr : Expr} :
      options.strictSyntax = false → ExponentLiteral.ofText? text = some literal →
      literal.expr = .ok expr → Reduces options (.float value (some text)) expr

structure CalledAlike (left right : Expr) : Prop where
  unnamed_left : left.name? = none
  unnamed_right : right.name? = none
  isCallOrGroup : left.isCallOrGroup = right.isCallOrGroup

inductive Exchanges (old new : Expr) : Expr → Expr → Prop where
  | here : Exchanges old new old new
  | callee {callee callee' : Expr} {arguments : List Expr} :
      Exchanges old new callee callee' → CalledAlike callee callee' →
      Exchanges old new (.call callee arguments) (.call callee' arguments)
  | argument {callee item item' : Expr} {before after : List Expr} :
      Exchanges old new item item' →
      Exchanges old new (.call callee (before ++ item :: after))
        (.call callee (before ++ item' :: after))
  | lhs {operator : Operator} {lhs lhs' rhs : Expr} {provenance : Provenance} :
      Exchanges old new lhs lhs' →
      Exchanges old new (.operation operator lhs rhs provenance)
        (.operation operator lhs' rhs provenance)
  | rhs {operator : Operator} {lhs rhs rhs' : Expr} {provenance : Provenance} :
      Exchanges old new rhs rhs' →
      Exchanges old new (.operation operator lhs rhs provenance)
        (.operation operator lhs rhs' provenance)
  | item {item item' : Expr} {before after : List Expr} :
      Exchanges old new item item' →
      Exchanges old new (.group (before ++ item :: after)) (.group (before ++ item' :: after))
  | operand {operand operand' : Expr} :
      Exchanges old new operand operand' →
      Exchanges old new (.negation operand) (.negation operand')

def Step (options : Options) (expr expr' : Expr) : Prop :=
  ∃ old new, Reduces options old new ∧ Exchanges old new expr expr'

inductive Steps (options : Options) : (count : Nat) → Expr → Expr → Prop where
  | refl {expr : Expr} : Steps options 0 expr expr
  | cons {count : Nat} {first second last : Expr} :
      Step options first second → Steps options count second last →
      Steps options (count + 1) first last

end Expr

end Juxtaposition
