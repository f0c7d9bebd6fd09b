import Juxtaposition.Expr.Printer
import Juxtaposition.Proofs.Expr.Reduction

/-!
# Grouping

What a printed expression shows. Parentheses that the printer adds are groups to a reader,
and a chain of sums or of products is grouped to the left. The places of the operators are
not shown.
-/

set_option autoImplicit false

namespace Juxtaposition

namespace Expr

mutual

def rebuild (change : Expr → Expr) : Expr → Expr
  | identifier name => change (identifier name)
  | integer value => change (integer value)
  | float value literal => change (float value literal)
  | call callee arguments => change (call (callee.rebuild change) (rebuildAll change arguments))
  | operation operator lhs rhs provenance =>
      change (operation operator (lhs.rebuild change) (rhs.rebuild change) provenance)
  | group items => change (group (rebuildAll change items))
  | negation operand => change (negation (operand.rebuild change))

def rebuildAll (change : Expr → Expr) : List Expr → List Expr
  | [] => []
  | expr :: rest => expr.rebuild change :: rebuildAll change rest

end

theorem rebuildAll_eq_map (change : Expr → Expr) (exprs : List Expr) :
    rebuildAll change exprs = exprs.map (rebuild change) := by
  induction exprs with
  | nil => rfl
  | cons first rest ih => rw [rebuildAll, ih, List.map_cons]

/-! ## Parentheses -/

def enclosed (minimum : Nat) (expr : Expr) : Expr :=
  if expr.precedence < minimum then group [expr] else expr

def encloseParts : Expr → Expr
  | call callee arguments => call (callee.enclosed atomPrecedence) arguments
  | operation operator lhs rhs provenance =>
      operation operator (lhs.enclosed (leftMinimum operator))
        (rhs.enclosed (rightMinimum operator)) provenance
  | negation operand => negation (operand.enclosed Operator.mul.precedence)
  | expr => expr

/-- The expression with a group wherever the printer puts parentheses. -/
def wrapped : Expr → Expr :=
  rebuild encloseParts

/-! ## Chains of operators -/

def attach (operator : Operator) (lhs : Expr) (provenance : Provenance) : Expr → Expr
  | operation inner first last found =>
      if inner.precedence = operator.precedence then
        operation inner (attach operator lhs provenance first) last found
      else operation operator lhs (operation inner first last found) provenance
  | rhs => operation operator lhs rhs provenance

def isLevel (operator : Operator) : Expr → Bool
  | operation inner _ _ _ => inner.precedence = operator.precedence
  | _ => false

theorem attach_of_level {operator inner : Operator} {lhs first last : Expr}
    {provenance found : Provenance} (level : inner.precedence = operator.precedence) :
    attach operator lhs provenance (operation inner first last found) =
      operation inner (attach operator lhs provenance first) last found := by
  rw [attach, if_pos level]

theorem attach_of_other {operator : Operator} {lhs rhs : Expr} {provenance : Provenance}
    (other : rhs.isLevel operator = false) :
    attach operator lhs provenance rhs = operation operator lhs rhs provenance := by
  cases rhs with
  | operation inner first last found => rw [attach, if_neg (by simpa [isLevel] using other)]
  | _ => rfl

/-- Group a sum whose right operand is a sum or a difference to the left, and a product
whose right operand is a product or a quotient. -/
def regroup : Expr → Expr
  | operation .add lhs rhs provenance => attach .add lhs provenance rhs
  | operation .mul lhs rhs provenance => attach .mul lhs provenance rhs
  | expr => expr

def leftGrouped : Expr → Expr :=
  rebuild regroup

/-! ## Places of operators -/

def unplace : Expr → Expr
  | operation operator lhs rhs _ => operation operator lhs rhs .missing
  | expr => expr

def unplaced : Expr → Expr :=
  rebuild unplace

theorem unplaced_attach (operator : Operator) (lhs : Expr) (provenance : Provenance)
    (rhs : Expr) :
    (attach operator lhs provenance rhs).unplaced =
      attach operator lhs.unplaced .missing rhs.unplaced := by
  induction rhs using induction with
  | operation inner first last found inFirst _ =>
      have shape : (operation inner first last found).unplaced =
          operation inner first.unplaced last.unplaced .missing := rfl
      rw [shape]
      by_cases level : inner.precedence = operator.precedence
      · rw [attach_of_level level, attach_of_level level, ← inFirst]
        rfl
      · rw [attach_of_other (by simpa [isLevel] using level),
          attach_of_other (by simpa [isLevel] using level)]
        rfl
  | _ => rfl

/-! ## What is read -/

/-- What a reader takes the printed expression for. -/
def reading (expr : Expr) : Expr :=
  expr.wrapped.leftGrouped.unplaced

def slotReading (minimum : Nat) (expr : Expr) : Expr :=
  if expr.precedence < minimum then group [expr.reading] else expr.reading

theorem precedence_wrapped (expr : Expr) : expr.wrapped.precedence = expr.precedence := by
  cases expr <;> rfl

theorem reading_enclosed (minimum : Nat) (expr : Expr) :
    (expr.wrapped.enclosed minimum).leftGrouped.unplaced = expr.slotReading minimum := by
  unfold enclosed slotReading
  rw [precedence_wrapped]
  split <;> rfl

private theorem reading_items (items : List Expr) :
    rebuildAll unplace (rebuildAll regroup (rebuildAll encloseParts items)) =
      items.map reading := by
  rw [rebuildAll_eq_map, rebuildAll_eq_map, rebuildAll_eq_map, List.map_map, List.map_map]
  rfl

theorem reading_call (callee : Expr) (arguments : List Expr) :
    (call callee arguments).reading =
      call (callee.slotReading atomPrecedence) (arguments.map reading) := by
  rw [← reading_enclosed, ← reading_items]
  rfl

theorem reading_group (items : List Expr) : (group items).reading = group (items.map reading) := by
  rw [← reading_items]
  rfl

theorem reading_negation (operand : Expr) :
    (negation operand).reading = negation (operand.slotReading Operator.mul.precedence) := by
  rw [← reading_enclosed]
  rfl

theorem reading_operation (operator : Operator) (lhs rhs : Expr) (provenance : Provenance) :
    (operation operator lhs rhs provenance).reading =
      if operator = .add ∨ operator = .mul then
        attach operator (lhs.slotReading (leftMinimum operator)) .missing
          (rhs.slotReading (rightMinimum operator))
      else
        operation operator (lhs.slotReading (leftMinimum operator))
          (rhs.slotReading (rightMinimum operator)) .missing := by
  rw [← reading_enclosed, ← reading_enclosed]
  cases operator with
  | add => exact unplaced_attach _ _ _ _
  | mul => exact unplaced_attach _ _ _ _
  | _ => rfl

end Expr

end Juxtaposition
