import Juxtaposition.Proofs.Expr.Grouping
import Juxtaposition.Proofs.Expr.Leaves
import Juxtaposition.Proofs.Notation.Unambiguous
import Juxtaposition.Proofs.Text.Numeral

/-!
# Reading what is printed

The printed text of an expression is a phrase, and what the phrase denotes is the
expression with its parentheses as groups and its chains grouped to the left. Since the
notation is unambiguous, nothing else can be read.
-/

set_option autoImplicit false

namespace Juxtaposition.Notation

def Spelled (category : Category) (text : List Char) (reading : category.Reading) : Prop :=
  ∃ phrase : Phrase category, phrase.text = text ∧ phrase.read = reading

namespace Spelled

variable {text text' : List Char} {expr lhs rhs : Expr}

/-! ## Wider categories -/

theorem power (atom : Spelled .atom text expr) : Spelled .power text expr := by
  obtain ⟨phrase, rfl, rfl⟩ := atom
  exact ⟨.ofAtom phrase, rfl, rfl⟩

theorem product (power : Spelled .power text expr) : Spelled .product text expr := by
  obtain ⟨phrase, rfl, rfl⟩ := power
  exact ⟨.ofPower phrase, rfl, rfl⟩

theorem term (product : Spelled .product text expr) : Spelled .term text expr := by
  obtain ⟨phrase, rfl, rfl⟩ := product
  exact ⟨.ofProduct phrase, rfl, rfl⟩

theorem sum (term : Spelled .term text expr) : Spelled .sum text expr := by
  obtain ⟨phrase, rfl, rfl⟩ := term
  exact ⟨.ofTerm phrase, rfl, rfl⟩

end Spelled

/-! ## Chains -/

namespace Phrase

variable {operator : Operator}

/-- No atom reads as an operation. -/
theorem isLevel_atom (atom : Phrase .atom) : Expr.isLevel operator atom.read = false := by
  cases atom <;> rfl

theorem isLevel_power (power : Phrase .power) (weaker : operator.precedence < 3) :
    Expr.isLevel operator power.read = false := by
  cases power with
  | ofAtom atom => exact atom.isLevel_atom
  | power lhs rhs =>
      have different : Operator.pow.precedence ≠ operator.precedence := by
        rw [show Operator.pow.precedence = 3 from rfl]
        omega
      exact decide_eq_false different

theorem isLevel_product (product : Phrase .product) (weaker : operator.precedence < 2) :
    Expr.isLevel operator product.read = false := by
  cases product with
  | ofPower power => exact power.isLevel_power (by omega)
  | product inner level lhs rhs =>
      have different : inner.precedence ≠ operator.precedence := by
        rw [level, show Operator.mul.precedence = 2 from rfl]
        omega
      exact decide_eq_false different

theorem isLevel_term (term : Phrase .term) (weaker : operator.precedence < 2) :
    Expr.isLevel operator term.read = false := by
  cases term with
  | ofProduct product => exact product.isLevel_product weaker
  | negation operand => rfl

/-- A sum after a sum is written as one sum, which is grouped to the left. -/
theorem exists_sum (operator : Operator)
    (level : operator.precedence = Operator.add.precedence) (lhs : Phrase .sum) :
    ∀ rhs : Phrase .sum, ∃ phrase : Phrase .sum,
      phrase.text = lhs.text ++ sign operator :: rhs.text ∧
        phrase.read = Expr.attach operator lhs.read .missing rhs.read
  | .ofTerm term => by
      have weaker : operator.precedence < 2 := by
        rw [level]
        decide
      exact ⟨.sum operator level lhs term, rfl,
        (Expr.attach_of_other (term.isLevel_term weaker)).symm⟩
  | .sum inner innerLevel start operand => by
      obtain ⟨phrase, text, read⟩ := exists_sum operator level lhs start
      refine ⟨.sum inner innerLevel phrase operand, ?_, ?_⟩
      · simp only [Phrase.text, text, List.append_assoc, List.cons_append]
      · rw [Phrase.read, Phrase.read, read, Expr.attach_of_level (innerLevel.trans level.symm)]

theorem exists_product (operator : Operator)
    (level : operator.precedence = Operator.mul.precedence)
    (lhs : Phrase .product) : ∀ rhs : Phrase .product, ∃ phrase : Phrase .product,
      phrase.text = lhs.text ++ sign operator :: rhs.text ∧
        phrase.read = Expr.attach operator lhs.read .missing rhs.read
  | .ofPower factor => by
      have weaker : operator.precedence < 3 := by
        rw [level]
        decide
      exact ⟨.product operator level lhs factor, rfl,
        (Expr.attach_of_other (factor.isLevel_power weaker)).symm⟩
  | .product inner innerLevel start operand => by
      obtain ⟨phrase, text, read⟩ := exists_product operator level lhs start
      refine ⟨.product inner innerLevel phrase operand, ?_, ?_⟩
      · simp only [Phrase.text, text, List.append_assoc, List.cons_append]
      · rw [Phrase.read, Phrase.read, read, Expr.attach_of_level (innerLevel.trans level.symm)]

end Phrase

/-! ## Productions -/

namespace Spelled

variable {text text' : List Char} {expr callee lhs rhs : Expr} {items : List Expr}

theorem difference (left : Spelled .sum text lhs) (right : Spelled .term text' rhs) :
    Spelled .sum (text ++ sign .sub :: text') (Expr.operation .sub lhs rhs .missing) := by
  obtain ⟨phrase, rfl, rfl⟩ := left
  obtain ⟨phrase', rfl, rfl⟩ := right
  exact ⟨.sum .sub rfl phrase phrase', rfl, rfl⟩

theorem quotient (left : Spelled .product text lhs) (right : Spelled .power text' rhs) :
    Spelled .product (text ++ sign .div :: text') (Expr.operation .div lhs rhs .missing) := by
  obtain ⟨phrase, rfl, rfl⟩ := left
  obtain ⟨phrase', rfl, rfl⟩ := right
  exact ⟨.product .div rfl phrase phrase', rfl, rfl⟩

theorem exponential (left : Spelled .atom text lhs) (right : Spelled .power text' rhs) :
    Spelled .power (text ++ sign .pow :: text') (Expr.operation .pow lhs rhs .missing) := by
  obtain ⟨phrase, rfl, rfl⟩ := left
  obtain ⟨phrase', rfl, rfl⟩ := right
  exact ⟨.power phrase phrase', rfl, rfl⟩

theorem sumChain (left : Spelled .sum text lhs) (right : Spelled .sum text' rhs) :
    Spelled .sum (text ++ sign .add :: text') (Expr.attach .add lhs .missing rhs) := by
  obtain ⟨phrase, rfl, rfl⟩ := left
  obtain ⟨phrase', rfl, rfl⟩ := right
  exact Phrase.exists_sum .add rfl phrase phrase'

theorem productChain (left : Spelled .product text lhs) (right : Spelled .product text' rhs) :
    Spelled .product (text ++ sign .mul :: text') (Expr.attach .mul lhs .missing rhs) := by
  obtain ⟨phrase, rfl, rfl⟩ := left
  obtain ⟨phrase', rfl, rfl⟩ := right
  exact Phrase.exists_product .mul rfl phrase phrase'

theorem grouped (arguments : Spelled .arguments text items) :
    Spelled .atom ('(' :: (text ++ [')'])) (Expr.group items) := by
  obtain ⟨phrase, rfl, rfl⟩ := arguments
  exact ⟨.group phrase, rfl, rfl⟩

theorem called (atom : Spelled .atom text callee) (arguments : Spelled .arguments text' items) :
    Spelled .atom (text ++ '(' :: (text' ++ [')'])) (Expr.call callee items) := by
  obtain ⟨phrase, rfl, rfl⟩ := atom
  obtain ⟨inner, rfl, rfl⟩ := arguments
  exact ⟨.call phrase inner, rfl, rfl⟩

theorem negated (factors : Spelled .product text expr) :
    Spelled .sum ('-' :: text) (Expr.negation expr) := by
  obtain ⟨phrase, rfl, rfl⟩ := factors
  exact ⟨.ofTerm (.negation phrase), rfl, rfl⟩

theorem single (item : Spelled .sum text expr) : Spelled .items text [expr] := by
  obtain ⟨phrase, rfl, rfl⟩ := item
  exact ⟨.last phrase, rfl, rfl⟩

theorem separated (item : Spelled .sum text expr) (later : Spelled .items text' items) :
    Spelled .items (text ++ ',' :: text') (expr :: items) := by
  obtain ⟨phrase, rfl, rfl⟩ := item
  obtain ⟨phrase', rfl, rfl⟩ := later
  exact ⟨.more phrase phrase', rfl, rfl⟩

end Spelled

/-! ## Integers -/

/-- An integer that is not negative is printed as a numeral that denotes it. -/
theorem exists_numeral {value : Int64} (natural : 0 ≤ value.toInt) :
    ∃ numeral : Numeral, numeral.text = toString value.toInt ∧ numeral.value = value := by
  obtain ⟨number, same⟩ := Int.eq_ofNat_of_zero_le natural
  have digits : (toString value.toInt).toList = Nat.toDigits 10 number := by
    rw [same, Text.toList_toString_natCast]
  have numeral : Text.isNumeral (toString value.toInt) = true := by
    rw [Text.isNumeral_iff, digits]
    exact ⟨Nat.toDigits_ne_nil, fun _ => Text.isDigit_of_mem_toDigits⟩
  have denoted : Text.digitsValue (toString value.toInt).toList = number := by
    rw [digits, Text.digitsValue_toDigits]
  have read : Text.readInteger (toString value.toInt) = .ok value := by
    have small : ¬ Text.Oversize (toString value.toInt) := by
      have bound := Int64.toInt_lt value
      rw [Text.Oversize, denoted]
      omega
    rw [Text.readInteger_of_numeral numeral, if_neg small, denoted, ← same, Int64.ofInt_toInt]
  exact ⟨⟨toString value.toInt, value, numeral, read⟩, rfl, rfl⟩

/-! ## Printed expressions -/

structure Spelling (expr : Expr) : Prop where
  atom : 4 ≤ expr.precedence → Spelled .atom (expr.render .none).toList expr.reading
  power : 3 ≤ expr.precedence → Spelled .power (expr.render .none).toList expr.reading
  product : 2 ≤ expr.precedence → Spelled .product (expr.render .none).toList expr.reading
  sum : Spelled .sum (expr.render .none).toList expr.reading

namespace Spelling

variable {expr callee operand lhs rhs : Expr} {exprs : List Expr}

theorem ofAtom (spelled : Spelled .atom (expr.render .none).toList expr.reading) :
    Spelling expr where
  atom _ := spelled
  power _ := spelled.power
  product _ := spelled.power.product
  sum := spelled.power.product.term.sum

theorem ofPower (spelled : Spelled .power (expr.render .none).toList expr.reading)
    (weak : expr.precedence < 4) : Spelling expr where
  atom strong := absurd weak (Nat.not_lt_of_le strong)
  power _ := spelled
  product _ := spelled.product
  sum := spelled.product.term.sum

theorem ofProduct (spelled : Spelled .product (expr.render .none).toList expr.reading)
    (weak : expr.precedence < 3) : Spelling expr where
  atom strong := by omega
  power strong := absurd weak (Nat.not_lt_of_le strong)
  product _ := spelled
  sum := spelled.term.sum

theorem ofSum (spelled : Spelled .sum (expr.render .none).toList expr.reading)
    (weak : expr.precedence < 2) : Spelling expr where
  atom strong := by omega
  power strong := by omega
  product strong := absurd weak (Nat.not_lt_of_le strong)
  sum := spelled

theorem items : ∀ {exprs : List Expr}, exprs ≠ [] → (∀ expr ∈ exprs, Spelling expr) →
    Spelled .items (Expr.renderItems .none exprs).toList (exprs.map Expr.reading)
  | [], nonempty, _ => absurd rfl nonempty
  | [only], _, spelling => by
      rw [Expr.renderItems]
      exact (spelling only List.mem_cons_self).sum.single
  | first :: second :: rest, _, spelling => by
      have later := items (List.cons_ne_nil second rest)
        fun expr member => spelling expr (List.mem_cons_of_mem _ member)
      have printed : Expr.renderItems .none (first :: second :: rest) =
          first.render .none ++ "," ++ Expr.renderItems .none (second :: rest) := rfl
      rw [printed]
      simpa using (spelling first List.mem_cons_self).sum.separated later

theorem arguments (spelling : ∀ expr ∈ exprs, Spelling expr) :
    Spelled .arguments (Expr.renderItems .none exprs).toList (exprs.map Expr.reading) := by
  cases exprs with
  | nil => exact ⟨.none, by rw [Expr.renderItems]; rfl, rfl⟩
  | cons first rest =>
      obtain ⟨phrase, text, read⟩ := items (List.cons_ne_nil first rest) spelling
      exact ⟨.some phrase, text, read⟩

theorem group (spelling : ∀ expr ∈ exprs, Spelling expr) :
    Spelled .atom ("(" ++ Expr.renderItems .none exprs ++ ")").toList
      (Expr.group (exprs.map Expr.reading)) := by
  simpa using (arguments spelling).grouped

/-- An operand in its place. It is either printed in parentheses, which makes it an atom, or
it is strong enough to stand there as it is. -/
theorem slot (spelling : Spelling expr) {spelled : List Char → Expr → Prop} (minimum : Nat)
    (lift : ∀ {text reading}, Spelled .atom text reading → spelled text reading)
    (direct : minimum ≤ expr.precedence →
      spelled (expr.render .none).toList expr.reading) :
    spelled (Expr.enclose minimum expr.precedence (expr.render .none)).toList
      (expr.slotReading minimum) := by
  unfold Expr.enclose Expr.slotReading
  split
  · have single : ∀ item ∈ [expr], Spelling item := by simpa using spelling
    apply lift
    simpa only [Expr.renderItems, List.map_cons, List.map_nil] using group single
  · next strong => exact direct (Nat.le_of_not_lt strong)

theorem atomSlot (spelling : Spelling expr) :
    Spelled .atom (Expr.enclose 4 expr.precedence (expr.render .none)).toList
      (expr.slotReading 4) :=
  spelling.slot 4 id spelling.atom

theorem powerSlot (spelling : Spelling expr) :
    Spelled .power (Expr.enclose 3 expr.precedence (expr.render .none)).toList
      (expr.slotReading 3) :=
  spelling.slot 3 Spelled.power spelling.power

theorem productSlot (spelling : Spelling expr) :
    Spelled .product (Expr.enclose 2 expr.precedence (expr.render .none)).toList
      (expr.slotReading 2) :=
  spelling.slot 2 (fun atom => atom.power.product) spelling.product

theorem sumSlot (spelling : Spelling expr) :
    Spelled .sum (Expr.enclose 1 expr.precedence (expr.render .none)).toList
      (expr.slotReading 1) :=
  spelling.slot 1 (fun atom => atom.power.product.term.sum) fun _ => spelling.sum

/-! ### Expression by expression -/

theorem identifier {name : String} (lexical : isName name = true) :
    Spelling (.identifier name) := by
  refine ofAtom ⟨.name ⟨name, lexical⟩, ?_, rfl⟩
  rw [Expr.render]
  rfl

theorem integer {value : Int64} (natural : 0 ≤ value.toInt) : Spelling (.integer value) := by
  obtain ⟨numeral, text, same⟩ := exists_numeral natural
  refine ofAtom ⟨.integer numeral, ?_, ?_⟩
  · rw [Phrase.text, text, Expr.render]
  · rw [Phrase.read, same]
    rfl

theorem call (inCallee : Spelling callee) (inArguments : ∀ expr ∈ exprs, Spelling expr) :
    Spelling (.call callee exprs) := by
  apply ofAtom
  rw [Expr.reading_call, Expr.render]
  simpa [Expr.atomPrecedence] using inCallee.atomSlot.called (arguments inArguments)

theorem groupOf (inItems : ∀ expr ∈ exprs, Spelling expr) : Spelling (.group exprs) := by
  apply ofAtom
  rw [Expr.render, Expr.reading_group]
  exact group inItems

theorem negation (inOperand : Spelling operand) : Spelling (.negation operand) := by
  refine ofSum ?_ (Nat.lt_succ_self 1)
  rw [Expr.reading_negation, Expr.render]
  simpa [Operator.precedence] using inOperand.productSlot.negated

section Operations

variable {operator : Operator} {provenance : Provenance}

theorem render_operation :
    ((Expr.operation operator lhs rhs provenance).render .none).toList =
      (Expr.enclose (Expr.leftMinimum operator) lhs.precedence (lhs.render .none)).toList ++
        sign operator ::
          (Expr.enclose (Expr.rightMinimum operator) rhs.precedence (rhs.render .none)).toList := by
  have symbol : (Highlight.none.operatorText operator provenance).toList = [sign operator] := by
    cases operator <;> simp [Highlight.operatorText, Operator.symbol, sign]
  rw [Expr.render, String.toList_append, String.toList_append, symbol, List.append_assoc,
    List.singleton_append]

theorem addition (inLhs : Spelling lhs) (inRhs : Spelling rhs) :
    Spelling (.operation .add lhs rhs provenance) := by
  refine ofSum ?_ (Nat.lt_succ_self 1)
  rw [render_operation, Expr.reading_operation, if_pos (.inl rfl)]
  exact inLhs.sumSlot.sumChain inRhs.sumSlot

theorem subtraction (inLhs : Spelling lhs) (inRhs : Spelling rhs) :
    Spelling (.operation .sub lhs rhs provenance) := by
  refine ofSum ?_ (Nat.lt_succ_self 1)
  rw [render_operation, Expr.reading_operation, if_neg nofun]
  exact inLhs.sumSlot.difference inRhs.productSlot.term

theorem multiplication (inLhs : Spelling lhs) (inRhs : Spelling rhs) :
    Spelling (.operation .mul lhs rhs provenance) := by
  refine ofProduct ?_ (Nat.lt_succ_self 2)
  rw [render_operation, Expr.reading_operation, if_pos (.inr rfl)]
  exact inLhs.productSlot.productChain inRhs.productSlot

theorem division (inLhs : Spelling lhs) (inRhs : Spelling rhs) :
    Spelling (.operation .div lhs rhs provenance) := by
  refine ofProduct ?_ (Nat.lt_succ_self 2)
  rw [render_operation, Expr.reading_operation, if_neg nofun]
  exact inLhs.productSlot.quotient inRhs.powerSlot

theorem exponentiation (inLhs : Spelling lhs) (inRhs : Spelling rhs) :
    Spelling (.operation .pow lhs rhs provenance) := by
  refine ofPower ?_ (Nat.lt_succ_self 3)
  rw [render_operation, Expr.reading_operation, if_neg nofun]
  exact inLhs.atomSlot.exponential inRhs.powerSlot

end Operations

end Spelling

/-! ## Trees -/

/-- A name as the notation has it, or an integer that needs no sign. Decimal fractions are
not part of the notation. -/
def IsPlain : Leaf → Prop
  | .name text => isName text = true
  | .integer value => 0 ≤ value.toInt
  | .float _ _ => False

instance : DecidablePred IsPlain
  | .name text => inferInstanceAs (Decidable (isName text = true))
  | .integer value => inferInstanceAs (Decidable (0 ≤ value.toInt))
  | .float _ _ => inferInstanceAs (Decidable False)

theorem spelling {expr : Expr} (plain : ∀ leaf ∈ expr.leaves, IsPlain leaf) : Spelling expr := by
  induction expr using Expr.induction with
  | identifier name =>
      rw [Expr.leaves] at plain
      exact .identifier (plain (.name name) List.mem_cons_self)
  | integer value =>
      rw [Expr.leaves] at plain
      exact .integer (plain (.integer value) List.mem_cons_self)
  | float value literal =>
      rw [Expr.leaves] at plain
      exact (plain (.float value literal) List.mem_cons_self).elim
  | call callee arguments inCallee inArguments =>
      rw [Expr.leaves_call] at plain
      apply Spelling.call
      · exact inCallee fun leaf member => plain leaf (List.mem_append_left _ member)
      · intro item listed
        apply inArguments item listed
        intro leaf member
        exact plain leaf (List.mem_append_right _ (List.mem_flatMap.mpr ⟨item, listed, member⟩))
  | operation operator lhs rhs provenance inLhs inRhs =>
      rw [Expr.leaves] at plain
      have left := inLhs fun leaf member => plain leaf (List.mem_append_left _ member)
      have right := inRhs fun leaf member => plain leaf (List.mem_append_right _ member)
      cases operator with
      | add => exact left.addition right
      | sub => exact left.subtraction right
      | mul => exact left.multiplication right
      | div => exact left.division right
      | pow => exact left.exponentiation right
  | group items inItems =>
      rw [Expr.leaves_group] at plain
      apply Spelling.groupOf
      intro item listed
      apply inItems item listed
      intro leaf member
      exact plain leaf (List.mem_flatMap.mpr ⟨item, listed, member⟩)
  | negation operand inOperand =>
      rw [Expr.leaves] at plain
      exact (inOperand plain).negation

open Juxtaposition.Tree (root)

/-- The text of a tree is written by exactly one phrase. It reads as the expression in the
tree, with groups for the parentheses that were added and with its chains grouped to the
left, apart from the places of the operators. -/
theorem render_unambiguous {tree : Tree} (sound : tree.check = .ok ())
    (plain : ∀ id, tree.Reaches root id → ∀ leaf, (tree.node id).leaf? = some leaf →
      IsPlain leaf) :
    ∃ (expr : Expr) (phrase : Phrase .sum), tree.expr? root = some expr ∧
      phrase.text = (tree.render .none root).toList ∧
      (∀ other : Phrase .sum, other.text = (tree.render .none root).toList → other = phrase) ∧
      phrase.read = expr.wrapped.leftGrouped.unplaced := by
  obtain ⟨layout, planted⟩ := Tree.check_eq_ok_iff.mp sound
  have found := planted.expr?_root
  have printed : tree.render .none root = (tree.exprAlong layout).render .none := by
    rw [Tree.render, found]
  have plainLeaves (leaf : Leaf) (member : leaf ∈ (tree.exprAlong layout).leaves) :
      IsPlain leaf := by
    obtain ⟨id, reached, same⟩ := planted.mem_leaves_iff.mp member
    exact plain id reached leaf same
  obtain ⟨phrase, text, read⟩ := (spelling plainLeaves).sum
  rw [printed]
  refine ⟨tree.exprAlong layout, phrase, found, text, fun other same => ?_, read⟩
  exact sum_eq_of_text_eq (same.trans text.symm)

/-- The tree of `x+((y-2)*f(z)-3)`. -/
def chainedSum : Tree :=
  ⟨#[⟨.root ⟨1⟩, none⟩, ⟨.operation .add ⟨2⟩ ⟨3⟩ .missing, some ⟨0⟩⟩,
    ⟨.identifier "x", some ⟨1⟩⟩, ⟨.operation .sub ⟨4⟩ ⟨5⟩ .missing, some ⟨1⟩⟩,
    ⟨.operation .mul ⟨6⟩ ⟨7⟩ .missing, some ⟨3⟩⟩, ⟨.integer 3, some ⟨3⟩⟩,
    ⟨.operation .sub ⟨8⟩ ⟨9⟩ .missing, some ⟨4⟩⟩, ⟨.call ⟨10⟩ [⟨11⟩], some ⟨4⟩⟩,
    ⟨.identifier "y", some ⟨6⟩⟩, ⟨.integer 2, some ⟨6⟩⟩, ⟨.identifier "f", some ⟨7⟩⟩,
    ⟨.identifier "z", some ⟨7⟩⟩]⟩

/-- It is shown as `x+(y-2)*f(z)-3` and read as `(x+(y-2)*f(z))-3`. -/
theorem render_unambiguous_chainedSum :
    chainedSum.check = .ok () ∧
      (∀ id, chainedSum.Reaches root id → ∀ leaf, (chainedSum.node id).leaf? = some leaf →
        IsPlain leaf) ∧
      ∃ phrase : Phrase .sum, phrase.text = "x+(y-2)*f(z)-3".toList ∧
        (∀ other : Phrase .sum, other.text = "x+(y-2)*f(z)-3".toList → other = phrase) ∧
        phrase.read = Expr.operation .sub
          (.operation .add (.identifier "x")
            (.product (.group [.operation .sub (.identifier "y") (.integer 2) .missing])
              (.call (.identifier "f") [.identifier "z"])) .missing)
          (.integer 3) .missing := by
  have sound : chainedSum.check = .ok () := by decide
  have plain (id : NodeId) (_ : chainedSum.Reaches root id) (leaf : Leaf)
      (found : (chainedSum.node id).leaf? = some leaf) : IsPlain leaf := by
    rcases id with ⟨_ | _ | _ | _ | _ | _ | _ | _ | _ | _ | _ | _ | index⟩ <;> cases found <;>
      decide
  obtain ⟨expr, phrase, shape, text, only, read⟩ := render_unambiguous sound plain
  cases shape
  have printed : chainedSum.render .none root = "x+(y-2)*f(z)-3" := by decide
  rw [printed] at text only
  exact ⟨sound, plain, phrase, text, only, read⟩

end Juxtaposition.Notation
