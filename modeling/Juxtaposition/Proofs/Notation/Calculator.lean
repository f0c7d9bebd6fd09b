import Juxtaposition.Proofs.Expr.Value
import Juxtaposition.Proofs.Notation.Reading

/-!
# Calculating from the text

A calculator that takes the printed text character by character. A minus where a term begins is the
sign of the term, and elsewhere in front of an operand it is the sign of a number. What the
calculator arrives at is the value of the expression, unless a term begins with a power of a signed
number, which is printed as the negation of a power.
-/

set_option autoImplicit false

namespace Juxtaposition.Notation

/-- What has been read since the innermost bracket: the sum of the finished terms, the product of
the finished factors with the sign of their term, whether a divisor is next, and the bases whose
exponents are not finished, with the last one first. -/
structure Ledger where
  total : Rat
  factor : Rat
  divides : Bool
  bases : List Rat

def Ledger.after (total : Rat) : Ledger :=
  ⟨total, 1, false, []⟩

/-- Either an operand is to begin, perhaps as the beginning of a term, or a number or name is being
read, or a bracket has been closed on a value. -/
inductive Mode where
  | operand (leads : Bool)
  | word (negative : Bool) (characters : List Char)
  | closed (value : Rat)

/-- The ledgers of the outer brackets have the innermost one first. -/
structure Calculator where
  ledger : Ledger
  outer : List Ledger
  mode : Mode

end Juxtaposition.Notation

namespace Juxtaposition

/-- The value of a number or name. Only a number has a sign of its own. -/
def Interpretation.word (interpretation : Interpretation) (negative : Bool)
    (characters : List Char) : Rat :=
  if characters.all Char.isDigit then
    Rat.ofInt (if negative then -(Text.digitsValue characters : Int)
      else Text.digitsValue characters)
  else interpretation.name (String.ofList characters)

namespace Notation.Calculator

section Steps

variable (interpretation : Interpretation)

def awaits (calculator : Calculator) : Bool :=
  match calculator.mode with
  | .operand _ => true
  | .word _ _ | .closed _ => false

def operand (calculator : Calculator) : Rat :=
  match calculator.mode with
  | .operand _ => 0
  | .word negative characters => interpretation.word negative characters
  | .closed value => value

/-- Powers group to the right. -/
def raise (bases : List Rat) (exponent : Rat) : Rat :=
  bases.foldl (fun exponent base => interpretation.power base exponent) exponent

def powered (calculator : Calculator) : Rat :=
  raise interpretation calculator.ledger.bases (calculator.operand interpretation)

def multiplied (calculator : Calculator) : Rat :=
  if calculator.ledger.divides then
    calculator.ledger.factor / calculator.powered interpretation
  else calculator.ledger.factor * calculator.powered interpretation

def summed (calculator : Calculator) : Rat :=
  calculator.ledger.total + calculator.multiplied interpretation

def operate (calculator : Calculator) : Operator → Calculator
  | .add => ⟨.after (calculator.summed interpretation), calculator.outer, .operand true⟩
  | .sub =>
      ⟨⟨calculator.summed interpretation, -1, false, []⟩, calculator.outer, .operand false⟩
  | .mul =>
      ⟨⟨calculator.ledger.total, calculator.multiplied interpretation, false, []⟩,
        calculator.outer, .operand false⟩
  | .div =>
      ⟨⟨calculator.ledger.total, calculator.multiplied interpretation, true, []⟩,
        calculator.outer, .operand false⟩
  | .pow =>
      ⟨{ calculator.ledger with
          bases := calculator.operand interpretation :: calculator.ledger.bases },
        calculator.outer, .operand false⟩

def close (calculator : Calculator) : Calculator :=
  match calculator.outer with
  | [] => calculator
  | ledger :: outer => ⟨ledger, outer, .closed (calculator.summed interpretation)⟩

def start (calculator : Calculator) (leads : Bool) : Char → Calculator
  | '(' => ⟨.after 0, calculator.ledger :: calculator.outer, .operand true⟩
  | '-' =>
      if leads then
        ⟨{ calculator.ledger with factor := -calculator.ledger.factor }, calculator.outer,
          .operand false⟩
      else { calculator with mode := .word true [] }
  | character => { calculator with mode := .word false [character] }

def spell (calculator : Calculator) (character : Char) : Calculator :=
  match calculator.mode with
  | .word negative characters =>
      { calculator with mode := .word negative (characters ++ [character]) }
  | .operand _ | .closed _ => { calculator with mode := .word false [character] }

def proceed (calculator : Calculator) : Char → Calculator
  | '+' => calculator.operate interpretation .add
  | '-' => calculator.operate interpretation .sub
  | '*' => calculator.operate interpretation .mul
  | '/' => calculator.operate interpretation .div
  | '^' => calculator.operate interpretation .pow
  | ')' => calculator.close interpretation
  | character => calculator.spell character

def step (calculator : Calculator) (character : Char) : Calculator :=
  match calculator.mode with
  | .operand leads => calculator.start leads character
  | .word _ _ | .closed _ => calculator.proceed interpretation character

def run (calculator : Calculator) (text : List Char) : Calculator :=
  text.foldl (step interpretation) calculator

def read (leads : Bool) (ledger : Ledger) (outer : List Ledger) (text : List Char) : Calculator :=
  run interpretation ⟨ledger, outer, .operand leads⟩ text

end Steps

variable {interpretation : Interpretation} {calculator : Calculator} {text text' : List Char}
  {ledger : Ledger} {outer : List Ledger} {total factor value : Rat} {leads : Bool}

@[simp] theorem run_nil : calculator.run interpretation [] = calculator :=
  rfl

@[simp] theorem run_cons (character : Char) : calculator.run interpretation (character :: text) =
    (calculator.step interpretation character).run interpretation text :=
  rfl

@[simp] theorem run_append : calculator.run interpretation (text ++ text') =
    (calculator.run interpretation text).run interpretation text' :=
  List.foldl_append

@[simp] theorem read_append : read interpretation leads ledger outer (text ++ text') =
    (read interpretation leads ledger outer text).run interpretation text' :=
  run_append

theorem read_bracket : read interpretation leads ledger outer ('(' :: text) =
    read interpretation true (.after 0) (ledger :: outer) text :=
  rfl

theorem read_sign : read interpretation true ledger outer ('-' :: text) =
    read interpretation false { ledger with factor := -ledger.factor } outer text :=
  rfl

theorem read_negative : read interpretation false ledger outer ('-' :: text) =
    run interpretation ⟨ledger, outer, .word true []⟩ text :=
  rfl

/-! ## What is complete -/

structure HasOperand (interpretation : Interpretation) (calculator : Calculator)
    (ledger : Ledger) (outer : List Ledger) (value : Rat) : Prop where
  complete : calculator.awaits = false
  ledger : calculator.ledger = ledger
  outer : calculator.outer = outer
  operand : calculator.operand interpretation = value

structure HasPower (interpretation : Interpretation) (calculator : Calculator)
    (ledger : Ledger) (outer : List Ledger) (value : Rat) : Prop where
  complete : calculator.awaits = false
  total : calculator.ledger.total = ledger.total
  factor : calculator.ledger.factor = ledger.factor
  divides : calculator.ledger.divides = ledger.divides
  outer : calculator.outer = outer
  powered : calculator.powered interpretation = value

structure HasProduct (interpretation : Interpretation) (calculator : Calculator)
    (total : Rat) (outer : List Ledger) (value : Rat) : Prop where
  complete : calculator.awaits = false
  total : calculator.ledger.total = total
  outer : calculator.outer = outer
  multiplied : calculator.multiplied interpretation = value

structure HasSum (interpretation : Interpretation) (calculator : Calculator)
    (outer : List Ledger) (value : Rat) : Prop where
  complete : calculator.awaits = false
  outer : calculator.outer = outer
  summed : calculator.summed interpretation = value

theorem step_of_complete (complete : calculator.awaits = false) (character : Char) :
    calculator.step interpretation character = calculator.proceed interpretation character := by
  unfold step
  unfold awaits at complete
  cases mode : calculator.mode with
  | operand leads => simp [mode] at complete
  | word negative characters => rfl
  | closed value => rfl

namespace HasOperand

theorem power (has : HasOperand interpretation calculator ledger outer value) :
    HasPower interpretation calculator ledger outer
      (raise interpretation ledger.bases value) where
  complete := has.complete
  total := by rw [has.ledger]
  factor := by rw [has.ledger]
  divides := by rw [has.ledger]
  outer := has.outer
  powered := by rw [powered, has.ledger, has.operand]

theorem run_pow (has : HasOperand interpretation calculator ledger outer value) :
    calculator.run interpretation ('^' :: text) =
      read interpretation false { ledger with bases := value :: ledger.bases } outer text := by
  rw [run_cons, step_of_complete has.complete]
  simp only [read, proceed, operate, has.ledger, has.outer, has.operand]

end HasOperand

theorem HasPower.product (has : HasPower interpretation calculator ledger outer value) :
    HasProduct interpretation calculator ledger.total outer
      (if ledger.divides then ledger.factor / value else ledger.factor * value) where
  complete := has.complete
  total := has.total
  outer := has.outer
  multiplied := by rw [multiplied, has.divides, has.factor, has.powered]

namespace HasProduct

theorem sum (has : HasProduct interpretation calculator total outer value) :
    HasSum interpretation calculator outer (total + value) where
  complete := has.complete
  outer := has.outer
  summed := by rw [summed, has.total, has.multiplied]

theorem run_mul (has : HasProduct interpretation calculator total outer value) :
    calculator.run interpretation ('*' :: text) =
      read interpretation false ⟨total, value, false, []⟩ outer text := by
  rw [run_cons, step_of_complete has.complete]
  simp only [read, proceed, operate, has.total, has.outer, has.multiplied]

theorem run_div (has : HasProduct interpretation calculator total outer value) :
    calculator.run interpretation ('/' :: text) =
      read interpretation false ⟨total, value, true, []⟩ outer text := by
  rw [run_cons, step_of_complete has.complete]
  simp only [read, proceed, operate, has.total, has.outer, has.multiplied]

end HasProduct

namespace HasSum

theorem run_add (has : HasSum interpretation calculator outer value) :
    calculator.run interpretation ('+' :: text) =
      read interpretation true (.after value) outer text := by
  rw [run_cons, step_of_complete has.complete]
  simp only [read, proceed, operate, has.outer, has.summed]

theorem run_sub (has : HasSum interpretation calculator outer value) :
    calculator.run interpretation ('-' :: text) =
      read interpretation false ⟨value, -1, false, []⟩ outer text := by
  rw [run_cons, step_of_complete has.complete]
  simp only [read, proceed, operate, has.outer, has.summed]

theorem run_close (has : HasSum interpretation calculator (ledger :: outer) value) :
    calculator.run interpretation (')' :: text) =
      run interpretation ⟨ledger, outer, .closed value⟩ text := by
  rw [run_cons, step_of_complete has.complete]
  simp only [proceed, close, has.outer, has.summed]

end HasSum

/-! ## Words -/

theorem start_of_not_mark {character : Char} (plain : character ∉ marks) :
    calculator.start leads character = { calculator with mode := .word false [character] } := by
  unfold start
  split
  · exact absurd (by decide) plain
  · exact absurd (by decide) plain
  · rfl

theorem proceed_of_not_mark {character : Char} (plain : character ∉ marks) :
    calculator.proceed interpretation character = calculator.spell character := by
  unfold proceed
  split
  · exact absurd (by decide) plain
  · exact absurd (by decide) plain
  · exact absurd (by decide) plain
  · exact absurd (by decide) plain
  · exact absurd (by decide) plain
  · exact absurd (by decide) plain
  · rfl

theorem run_word {negative : Bool} {characters : List Char}
    (plain : ∀ character ∈ text, character ∉ marks) :
    run interpretation ⟨ledger, outer, .word negative characters⟩ text =
      ⟨ledger, outer, .word negative (characters ++ text)⟩ := by
  induction text generalizing characters with
  | nil => rw [run_nil, List.append_nil]
  | cons first rest ih =>
      have here : step interpretation ⟨ledger, outer, .word negative characters⟩ first =
          ⟨ledger, outer, .word negative (characters ++ [first])⟩ :=
        proceed_of_not_mark (plain first List.mem_cons_self)
      rw [run_cons, here,
        ih fun character member => plain character (List.mem_cons_of_mem _ member),
        List.append_assoc, List.singleton_append]

/-- A word without a sign is read from its first character to its last. -/
theorem read_word (nonempty : text ≠ []) (plain : ∀ character ∈ text, character ∉ marks) :
    read interpretation leads ledger outer text = ⟨ledger, outer, .word false text⟩ := by
  cases text with
  | nil => exact absurd rfl nonempty
  | cons first rest =>
      have here : step interpretation ⟨ledger, outer, .operand leads⟩ first =
          ⟨ledger, outer, .word false [first]⟩ :=
        start_of_not_mark (plain first List.mem_cons_self)
      rw [read, run_cons, here,
        run_word fun character member => plain character (List.mem_cons_of_mem _ member),
        List.singleton_append]

end Notation.Calculator

end Juxtaposition
