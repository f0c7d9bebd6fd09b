import Juxtaposition.Proofs.Notation.Calculator
import Juxtaposition.Tree.Validity

/-!
# The value of a printed expression

What a calculator arrives at on the printed text of an expression is the value of the expression,
so expressions that are printed alike have the same value. The exception is a power of a signed
number at the beginning of a term. It is printed without a bracket around its base, like the
negation of a power.
-/

set_option autoImplicit false

namespace Juxtaposition.Notation

open Calculator

/-- From the printed expression a calculator reads the value. What it has completed then is as much
as the strength of the expression allows. -/
structure Calculates (interpretation : Interpretation) (leads : Bool) (expr : Expr) : Prop where
  operand : 4 ≤ expr.precedence → (leads && expr.isSigned) = false → ∀ ledger outer,
    HasOperand interpretation
      (read interpretation leads ledger outer (expr.render .none).toList)
      ledger outer (expr.value interpretation)
  power : 3 ≤ expr.precedence → (leads && expr.isSigned) = false → ∀ ledger outer,
    HasPower interpretation
      (read interpretation leads ledger outer (expr.render .none).toList)
      ledger outer (raise interpretation ledger.bases (expr.value interpretation))
  product : 2 ≤ expr.precedence → ∀ total factor outer,
    HasProduct interpretation
      (read interpretation leads ⟨total, factor, false, []⟩ outer (expr.render .none).toList)
      total outer (factor * expr.value interpretation)
  sum : leads = true → ∀ total outer,
    HasSum interpretation
      (read interpretation leads (.after total) outer (expr.render .none).toList)
      outer (total + expr.value interpretation)

namespace Calculates

variable {interpretation : Interpretation} {leads : Bool} {expr operand lhs rhs : Expr}

theorem ofSum (weak : expr.precedence < 2)
    (sum : leads = true → ∀ total outer, HasSum interpretation
      (read interpretation leads (.after total) outer (expr.render .none).toList)
      outer (total + expr.value interpretation)) :
    Calculates interpretation leads expr where
  operand strong := by omega
  power strong := by omega
  product strong := absurd weak (Nat.not_lt_of_le strong)
  sum := sum

private theorem sum_of_product
    (product : ∀ total factor outer, HasProduct interpretation
      (read interpretation leads ⟨total, factor, false, []⟩ outer (expr.render .none).toList)
      total outer (factor * expr.value interpretation)) (total : Rat) (outer : List Ledger) :
    HasSum interpretation
      (read interpretation leads (.after total) outer (expr.render .none).toList)
      outer (total + expr.value interpretation) := by
  have once := (product total 1 outer).sum
  rw [Rat.one_mul] at once
  exact once

theorem ofProduct (weak : expr.precedence < 3)
    (product : ∀ total factor outer, HasProduct interpretation
      (read interpretation leads ⟨total, factor, false, []⟩ outer (expr.render .none).toList)
      total outer (factor * expr.value interpretation)) :
    Calculates interpretation leads expr where
  operand strong := by omega
  power strong := absurd weak (Nat.not_lt_of_le strong)
  product _ := product
  sum _ := sum_of_product product

theorem ofPower (weak : expr.precedence < 4)
    (power : ∀ ledger outer, HasPower interpretation
      (read interpretation leads ledger outer (expr.render .none).toList)
      ledger outer (raise interpretation ledger.bases (expr.value interpretation))) :
    Calculates interpretation leads expr where
  operand strong := absurd weak (Nat.not_lt_of_le strong)
  power _ _ := power
  product _ total factor outer := (power ⟨total, factor, false, []⟩ outer).product
  sum _ := sum_of_product fun total factor outer =>
    (power ⟨total, factor, false, []⟩ outer).product

theorem ofOperand
    (operand : ∀ ledger outer, HasOperand interpretation
      (read interpretation leads ledger outer (expr.render .none).toList)
      ledger outer (expr.value interpretation)) :
    Calculates interpretation leads expr where
  operand _ _ := operand
  power _ _ ledger outer := (operand ledger outer).power
  product _ total factor outer := (operand ⟨total, factor, false, []⟩ outer).power.product
  sum _ := sum_of_product fun total factor outer =>
    (operand ⟨total, factor, false, []⟩ outer).power.product

/-- A signed number at the beginning of a term gives its sign to the term. -/
theorem ofSigned (signed : expr.isSigned = true)
    (product : ∀ total factor outer, HasProduct interpretation
      (read interpretation true ⟨total, factor, false, []⟩ outer (expr.render .none).toList)
      total outer (factor * expr.value interpretation)) :
    Calculates interpretation true expr where
  operand _ unsigned := absurd signed (Bool.eq_false_iff.mp unsigned)
  power _ unsigned := absurd signed (Bool.eq_false_iff.mp unsigned)
  product _ := product
  sum _ := sum_of_product product

/-! ## Operands in their places -/

/-- An operand is either printed as it is or in brackets, which begin a term. -/
theorem slot_cases (minimum : Nat) (ledger : Ledger) (outer : List Ledger)
    (calculates :
      Calculates interpretation (leads || decide (expr.precedence < minimum)) expr) :
    (minimum ≤ expr.precedence ∧ Calculates interpretation leads expr ∧
        Expr.enclose minimum expr.precedence (expr.render .none) = expr.render .none) ∨
      HasOperand interpretation
        (read interpretation leads ledger outer
          (Expr.enclose minimum expr.precedence (expr.render .none)).toList)
        ledger outer (expr.value interpretation) := by
  by_cases weak : expr.precedence < minimum
  · right
    rw [decide_eq_true weak, Bool.or_true] at calculates
    have closed := calculates.sum rfl 0 (ledger :: outer)
    have text : (Expr.enclose minimum expr.precedence (expr.render .none)).toList =
        '(' :: ((expr.render .none).toList ++ [')']) := by
      simp [Expr.enclose, weak]
    rw [text, read_bracket, read_append, closed.run_close, run_nil, Rat.zero_add]
    exact ⟨rfl, rfl, rfl, rfl⟩
  · left
    rw [decide_eq_false weak, Bool.or_false] at calculates
    exact ⟨Nat.le_of_not_lt weak, calculates, if_neg weak⟩

theorem operandSlot
    (calculates : Calculates interpretation (leads || decide (expr.precedence < 4)) expr)
    (unsigned : (leads && expr.isSigned) = false) (ledger : Ledger) (outer : List Ledger) :
    HasOperand interpretation
      (read interpretation leads ledger outer
        (Expr.enclose 4 expr.precedence (expr.render .none)).toList)
      ledger outer (expr.value interpretation) := by
  rcases calculates.slot_cases 4 ledger outer with ⟨strong, plain, text⟩ | bracket
  · rw [text]
    exact plain.operand strong unsigned ledger outer
  · exact bracket

theorem powerSlot (calculates : Calculates interpretation (decide (expr.precedence < 3)) expr)
    (ledger : Ledger) (outer : List Ledger) :
    HasPower interpretation
      (read interpretation false ledger outer
        (Expr.enclose 3 expr.precedence (expr.render .none)).toList)
      ledger outer (raise interpretation ledger.bases (expr.value interpretation)) := by
  rw [← Bool.false_or (decide _)] at calculates
  rcases calculates.slot_cases 3 ledger outer with ⟨strong, plain, text⟩ | bracket
  · rw [text]
    exact plain.power strong (Bool.false_and _) ledger outer
  · exact bracket.power

theorem productSlot
    (calculates : Calculates interpretation (leads || decide (expr.precedence < 2)) expr)
    (total factor : Rat) (outer : List Ledger) :
    HasProduct interpretation
      (read interpretation leads ⟨total, factor, false, []⟩ outer
        (Expr.enclose 2 expr.precedence (expr.render .none)).toList)
      total outer (factor * expr.value interpretation) := by
  rcases calculates.slot_cases 2 ⟨total, factor, false, []⟩ outer with
    ⟨strong, plain, text⟩ | bracket
  · rw [text]
    exact plain.product strong total factor outer
  · exact bracket.power.product

/-- A factor that does not begin its term. -/
theorem factorSlot (calculates : Calculates interpretation (decide (expr.precedence < 2)) expr)
    (total factor : Rat) (outer : List Ledger) :
    HasProduct interpretation
      (read interpretation false ⟨total, factor, false, []⟩ outer
        (Expr.enclose 2 expr.precedence (expr.render .none)).toList)
      total outer (factor * expr.value interpretation) := by
  rw [← Bool.false_or (decide _)] at calculates
  exact calculates.productSlot total factor outer

/-- No expression is too weak for the place of a summand. -/
theorem sumSlot (calculates : Calculates interpretation true expr) (total : Rat)
    (outer : List Ledger) :
    HasSum interpretation
      (read interpretation true (.after total) outer
        (Expr.enclose 1 expr.precedence (expr.render .none)).toList)
      outer (total + expr.value interpretation) := by
  have strong : ¬ expr.precedence < 1 := Nat.not_lt_of_le expr.precedence_pos
  rw [Expr.enclose, if_neg strong]
  exact calculates.sum rfl total outer

/-! ## Expression by expression -/

theorem identifier {name : String} (lexical : isName name = true) :
    Calculates interpretation leads (.identifier name) := by
  obtain ⟨first, rest, shape, letter, _⟩ := Name.exists_text_cons ⟨name, lexical⟩
  have plain := Name.plain ⟨name, lexical⟩
  have nonempty : name.toList ≠ [] := by
    rw [shape]
    exact List.cons_ne_nil first rest
  have notDigits : name.toList.all Char.isDigit = false := by
    rw [shape, List.all_cons, isDigit_of_isLetter letter, Bool.false_and]
  refine .ofOperand fun ledger outer => ?_
  rw [Expr.render, read_word nonempty plain]
  refine ⟨rfl, rfl, rfl, ?_⟩
  simp [Calculator.operand, Interpretation.word, notDigits, Expr.value]

private theorem word_toDigits (negative : Bool) (number : Nat) :
    interpretation.word negative (Nat.toDigits 10 number) =
      Rat.ofInt (if negative then -number else number) := by
  have digits : (Nat.toDigits 10 number).all Char.isDigit = true :=
    List.all_eq_true.mpr fun _ => Text.isDigit_of_mem_toDigits
  rw [Interpretation.word, if_pos digits, Text.digitsValue_toDigits]

private theorem plain_toDigits {number : Nat} :
    ∀ character ∈ Nat.toDigits 10 number, character ∉ marks :=
  fun _ member => not_mem_marks_of_isDigit (Text.isDigit_of_mem_toDigits member)

private theorem product_negSucc {value : Int64} {number : Nat}
    (same : value.toInt = .negSucc number) (total factor : Rat) (outer : List Ledger) :
    HasProduct interpretation
      (read interpretation true ⟨total, factor, false, []⟩ outer
        ((Expr.integer value).render .none).toList)
      total outer (factor * (Expr.integer value).value interpretation) := by
  have text : (toString value.toInt).toList = '-' :: Nat.toDigits 10 (number + 1) := by
    rw [same]
    exact Text.toList_toString_negSucc number
  have word : HasOperand interpretation
      ⟨⟨total, -factor, false, []⟩, outer, .word false (Nat.toDigits 10 (number + 1))⟩
      ⟨total, -factor, false, []⟩ outer (Rat.ofInt (number + 1 : Nat)) :=
    ⟨rfl, rfl, rfl, word_toDigits false (number + 1)⟩
  have minus : -factor * Rat.ofInt (number + 1 : Nat) =
      factor * Rat.ofInt (Int.negSucc number) := by
    rw [Rat.neg_mul, ← Rat.mul_neg]
    rfl
  rw [Expr.render, text, read_sign, read_word Nat.toDigits_ne_nil plain_toDigits, Expr.value, same,
    ← minus]
  exact word.power.product

/-- Where a term begins, the sign of a number is read as the sign of the term. -/
theorem integer (value : Int64) : Calculates interpretation leads (.integer value) := by
  cases same : value.toInt with
  | ofNat number =>
      refine .ofOperand fun ledger outer => ?_
      have text : (toString value.toInt).toList = Nat.toDigits 10 number := by
        rw [same]
        exact Text.toList_toString_natCast number
      rw [Expr.render, text, read_word Nat.toDigits_ne_nil plain_toDigits, Expr.value, same]
      exact ⟨rfl, rfl, rfl, word_toDigits false number⟩
  | negSucc number =>
      cases leads with
      | false =>
          refine .ofOperand fun ledger outer => ?_
          have text : (toString value.toInt).toList = '-' :: Nat.toDigits 10 (number + 1) := by
            rw [same]
            exact Text.toList_toString_negSucc number
          rw [Expr.render, text, read_negative, run_word plain_toDigits, Expr.value, same]
          exact ⟨rfl, rfl, rfl, word_toDigits true (number + 1)⟩
      | true =>
          refine .ofSigned ?_ (product_negSucc same)
          rw [Expr.isSigned, same]
          exact decide_eq_true (Int.negSucc_lt_zero number)

theorem negation (calculates : Calculates interpretation
      (decide (operand.precedence < Operator.mul.precedence)) operand) :
    Calculates interpretation leads (.negation operand) := by
  refine .ofSum (Nat.lt_succ_self 1) fun first total outer => ?_
  subst first
  have text : ((Expr.negation operand).render .none).toList =
      '-' :: (Expr.enclose 2 operand.precedence (operand.render .none)).toList := by
    simp [Expr.render, Operator.precedence]
  have read := (calculates.factorSlot total (-1) outer).sum
  rw [Rat.neg_mul, Rat.one_mul] at read
  rw [text, read_sign]
  exact read

section Operations

variable {provenance : Provenance}

theorem addition
    (inLhs : Calculates interpretation (leads || decide (lhs.precedence < 1)) lhs)
    (inRhs : Calculates interpretation true rhs) :
    Calculates interpretation leads (.operation .add lhs rhs provenance) := by
  refine .ofSum (Nat.lt_succ_self 1) fun first total outer => ?_
  subst first
  rw [Bool.true_or] at inLhs
  have text : ((Expr.operation .add lhs rhs provenance).render .none).toList =
      (Expr.enclose 1 lhs.precedence (lhs.render .none)).toList ++
        '+' :: (Expr.enclose 1 rhs.precedence (rhs.render .none)).toList :=
    Spelling.render_operation
  have left := inLhs.sumSlot total outer
  have right := inRhs.sumSlot (total + lhs.value interpretation) outer
  rw [Rat.add_assoc] at right
  rw [text, read_append, left.run_add]
  exact right

theorem subtraction
    (inLhs : Calculates interpretation (leads || decide (lhs.precedence < 1)) lhs)
    (inRhs : Calculates interpretation (decide (rhs.precedence < 2)) rhs) :
    Calculates interpretation leads (.operation .sub lhs rhs provenance) := by
  refine .ofSum (Nat.lt_succ_self 1) fun first total outer => ?_
  subst first
  rw [Bool.true_or] at inLhs
  have text : ((Expr.operation .sub lhs rhs provenance).render .none).toList =
      (Expr.enclose 1 lhs.precedence (lhs.render .none)).toList ++
        '-' :: (Expr.enclose 2 rhs.precedence (rhs.render .none)).toList :=
    Spelling.render_operation
  have left := inLhs.sumSlot total outer
  have right := (inRhs.factorSlot (total + lhs.value interpretation) (-1) outer).sum
  rw [Rat.neg_mul, Rat.one_mul, Rat.add_assoc, ← Rat.sub_eq_add_neg] at right
  rw [text, read_append, left.run_sub]
  exact right

theorem multiplication
    (inLhs : Calculates interpretation (leads || decide (lhs.precedence < 2)) lhs)
    (inRhs : Calculates interpretation (decide (rhs.precedence < 2)) rhs) :
    Calculates interpretation leads (.operation .mul lhs rhs provenance) := by
  refine .ofProduct (Nat.lt_succ_self 2) fun total factor outer => ?_
  have text : ((Expr.operation .mul lhs rhs provenance).render .none).toList =
      (Expr.enclose 2 lhs.precedence (lhs.render .none)).toList ++
        '*' :: (Expr.enclose 2 rhs.precedence (rhs.render .none)).toList :=
    Spelling.render_operation
  have left := inLhs.productSlot total factor outer
  have right := inRhs.factorSlot total (factor * lhs.value interpretation) outer
  rw [Rat.mul_assoc] at right
  rw [text, read_append, left.run_mul]
  exact right

theorem division
    (inLhs : Calculates interpretation (leads || decide (lhs.precedence < 2)) lhs)
    (inRhs : Calculates interpretation (decide (rhs.precedence < 3)) rhs) :
    Calculates interpretation leads (.operation .div lhs rhs provenance) := by
  refine .ofProduct (Nat.lt_succ_self 2) fun total factor outer => ?_
  have text : ((Expr.operation .div lhs rhs provenance).render .none).toList =
      (Expr.enclose 2 lhs.precedence (lhs.render .none)).toList ++
        '/' :: (Expr.enclose 3 rhs.precedence (rhs.render .none)).toList :=
    Spelling.render_operation
  have left := inLhs.productSlot total factor outer
  have right := inRhs.powerSlot ⟨total, factor * lhs.value interpretation, true, []⟩ outer
  have grouped : factor * lhs.value interpretation / rhs.value interpretation =
      factor * (lhs.value interpretation / rhs.value interpretation) := by
    rw [Rat.div_def, Rat.div_def, Rat.mul_assoc]
  rw [text, read_append, left.run_div, Expr.value, Interpretation.operate, ← grouped]
  exact right.product

theorem exponentiation
    (inLhs : Calculates interpretation (leads || decide (lhs.precedence < 4)) lhs)
    (unsigned : (leads && lhs.isSigned) = false)
    (inRhs : Calculates interpretation (decide (rhs.precedence < 3)) rhs) :
    Calculates interpretation leads (.operation .pow lhs rhs provenance) := by
  refine .ofPower (Nat.lt_succ_self 3) fun ledger outer => ?_
  have text : ((Expr.operation .pow lhs rhs provenance).render .none).toList =
      (Expr.enclose 4 lhs.precedence (lhs.render .none)).toList ++
        '^' :: (Expr.enclose 3 rhs.precedence (rhs.render .none)).toList :=
    Spelling.render_operation
  have left := inLhs.operandSlot unsigned ledger outer
  have right := inRhs.powerSlot
    { ledger with bases := lhs.value interpretation :: ledger.bases } outer
  rw [text, read_append, left.run_pow]
  exact ⟨right.complete, right.total, right.factor, right.divides, right.outer, right.powered⟩

end Operations

end Calculates

theorem calculates {expr : Expr} (interpretation : Interpretation)
    (arithmetic : expr.IsArithmetic) (leads : Bool) (clear : expr.signsClear leads = true) :
    Calculates interpretation leads expr := by
  induction arithmetic generalizing leads with
  | identifier lexical => exact .identifier lexical
  | integer value => exact .integer value
  | @operation lhs rhs operator provenance _ _ inLhs inRhs =>
      rw [Expr.signsClear, Bool.and_eq_true, Bool.and_eq_true] at clear
      obtain ⟨⟨unsigned, left⟩, right⟩ := clear
      have readLhs := inLhs _ left
      have readRhs := inRhs _ right
      cases operator with
      | add => exact .addition readLhs readRhs
      | sub => exact .subtraction readLhs readRhs
      | mul => exact .multiplication readLhs readRhs
      | div => exact .division readLhs readRhs
      | pow =>
          rw [beq_self_eq_true, Bool.and_true, Bool.not_eq_true'] at unsigned
          exact .exponentiation readLhs unsigned readRhs
  | negation _ inOperand => exact .negation (inOperand _ clear)

open Juxtaposition.Tree (root)

/-- Arithmetic expressions that are printed alike have the same value, as long as no term of theirs
begins with a power of a signed number. -/
theorem render_determines_value {first second : Tree} {left right : Expr}
    (interpretation : Interpretation)
    (found : first.expr? root = some left) (found' : second.expr? root = some right)
    (arithmetic : left.IsArithmetic) (arithmetic' : right.IsArithmetic)
    (clear : left.signsClear true = true) (clear' : right.signsClear true = true)
    (same : first.render .none root = second.render .none root) :
    left.value interpretation = right.value interpretation := by
  have readLeft := (calculates interpretation arithmetic true clear).sum rfl 0 []
  have readRight := (calculates interpretation arithmetic' true clear').sum rfl 0 []
  rw [Tree.render, Tree.render, found, found'] at same
  rw [show left.render .none = right.render .none from same] at readLeft
  have alike := readLeft.summed.symm.trans readRight.summed
  rwa [Rat.zero_add, Rat.zero_add] at alike

/-- Every power is read as a square, and every name as five. -/
def squares : Interpretation :=
  ⟨fun _ => 5, fun base _ => base * base⟩

/-- The tree of `-2*x^-3` in which the factor `2` has a sign. -/
def signedFactor : Tree :=
  ⟨#[⟨.root ⟨1⟩, none⟩, ⟨.operation .mul ⟨2⟩ ⟨3⟩ .missing, some ⟨0⟩⟩, ⟨.integer (-2), some ⟨1⟩⟩,
    ⟨.operation .pow ⟨4⟩ ⟨5⟩ .missing, some ⟨1⟩⟩, ⟨.identifier "x", some ⟨3⟩⟩,
    ⟨.integer (-3), some ⟨3⟩⟩]⟩

/-- The tree of `-2*x^-3` in which the product has a sign. -/
def negatedProduct : Tree :=
  ⟨#[⟨.root ⟨1⟩, none⟩, ⟨.negation ⟨2⟩, some ⟨0⟩⟩,
    ⟨.operation .mul ⟨3⟩ ⟨4⟩ .missing, some ⟨1⟩⟩, ⟨.integer 2, some ⟨2⟩⟩,
    ⟨.operation .pow ⟨5⟩ ⟨6⟩ .missing, some ⟨2⟩⟩, ⟨.identifier "x", some ⟨4⟩⟩,
    ⟨.integer (-3), some ⟨4⟩⟩]⟩

theorem render_determines_value_signedFactor :
    ∃ left right : Expr, signedFactor.expr? root = some left ∧
      negatedProduct.expr? root = some right ∧ left.IsArithmetic ∧ right.IsArithmetic ∧
      left.signsClear true = true ∧ right.signsClear true = true ∧
      signedFactor.render .none root = negatedProduct.render .none root ∧
      left.value squares = right.value squares := by
  have cube : (Expr.operation .pow (.identifier "x") (.integer (-3)) .missing).IsArithmetic :=
    .operation .pow .missing (.identifier (by decide)) (.integer (-3))
  have first := Expr.IsArithmetic.operation .mul .missing (.integer (-2)) cube
  have second := (Expr.IsArithmetic.operation .mul .missing (.integer 2) cube).negation
  have found : signedFactor.expr? root = some _ := rfl
  have found' : negatedProduct.expr? root = some _ := rfl
  have same : signedFactor.render .none root = negatedProduct.render .none root := by decide
  exact ⟨_, _, found, found', first, second, by decide, by decide, same,
    render_determines_value squares found found' first second (by decide) (by decide) same⟩

/-- The tree of the power of `-2`. -/
def signedPower : Tree :=
  ⟨#[⟨.root ⟨1⟩, none⟩, ⟨.operation .pow ⟨2⟩ ⟨3⟩ .missing, some ⟨0⟩⟩, ⟨.integer (-2), some ⟨1⟩⟩,
    ⟨.identifier "x", some ⟨1⟩⟩]⟩

/-- The tree of the negation of a power of `2`. -/
def negatedPower : Tree :=
  ⟨#[⟨.root ⟨1⟩, none⟩, ⟨.negation ⟨2⟩, some ⟨0⟩⟩,
    ⟨.operation .pow ⟨3⟩ ⟨4⟩ .missing, some ⟨1⟩⟩, ⟨.integer 2, some ⟨2⟩⟩,
    ⟨.identifier "x", some ⟨2⟩⟩]⟩

/-- Both are printed as `-2^x`, but a square is not the negation of a square. -/
theorem render_conflates_signedPower :
    ∃ left right : Expr, signedPower.check = .ok () ∧ negatedPower.check = .ok () ∧
      signedPower.expr? root = some left ∧ negatedPower.expr? root = some right ∧
      left.IsArithmetic ∧ right.IsArithmetic ∧
      signedPower.render .none root = "-2^x" ∧ negatedPower.render .none root = "-2^x" ∧
      left.value squares = 4 ∧ right.value squares = -4 := by
  have name : (Expr.identifier "x").IsArithmetic := .identifier (by decide)
  have first := Expr.IsArithmetic.operation .pow .missing (.integer (-2)) name
  have second := (Expr.IsArithmetic.operation .pow .missing (.integer 2) name).negation
  exact ⟨_, _, by decide, by decide, rfl, rfl, first, second, by decide, by decide,
    by decide +kernel, by decide +kernel⟩

end Juxtaposition.Notation
