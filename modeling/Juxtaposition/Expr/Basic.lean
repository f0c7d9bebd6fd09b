import Juxtaposition.Decimal.Binary64

/-!
# Expressions

Algebraic expressions as a student types them: names, numbers, calls,
parenthesised lists, negations, and binary operations. Every operation records
where its operator came from, since a product may be written with no operator
at all.
-/

set_option autoImplicit false

namespace Juxtaposition

inductive Operator where
  | add
  | sub
  | mul
  | div
  | pow
deriving DecidableEq

namespace Operator

def symbol : Operator → String
  | add => "+"
  | sub => "-"
  | mul => "*"
  | div => "/"
  | pow => "^"

def ofSign? : Char → Option Operator
  | '+' => some add
  | '-' => some sub
  | _ => none

def precedence : Operator → Nat
  | add | sub => 1
  | mul | div => 2
  | pow => 3

end Operator

structure Span where
  start : Nat
  stop : Nat
deriving DecidableEq

namespace Span

def single (offset : Nat) : Span :=
  ⟨offset, offset + 1⟩

def length (span : Span) : Nat :=
  span.stop - span.start

def isEmpty (span : Span) : Bool :=
  decide (span.stop ≤ span.start)

def text (span : Span) : String :=
  toString span.start ++ ".." ++ toString span.stop

end Span

/-- Where an operator came from: it was typed at some place, or it stands for a
juxtaposition of its operands, with nothing or with whitespace between them. -/
inductive Provenance where
  | typed (span : Span)
  | missing
  | whitespace
deriving DecidableEq

def Provenance.isSupplied : Provenance → Bool
  | typed _ => false
  | missing | whitespace => true

/-- Expressions. A number in decimal notation may keep the literal it was
written as. A group is a parenthesised list of items, possibly empty. -/
inductive Expr where
  | identifier (name : String)
  | integer (value : Int64)
  | float (value : Binary64) (literal : Option String)
  | call (callee : Expr) (arguments : List Expr)
  | operation (operator : Operator) (lhs rhs : Expr) (provenance : Provenance)
  | group (items : List Expr)
  | negation (operand : Expr)

end Juxtaposition
