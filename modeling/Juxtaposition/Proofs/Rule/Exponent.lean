import Juxtaposition.Proofs.Rule.Reading
import Juxtaposition.Proofs.Rule.Runs
import Juxtaposition.Proofs.Text.Decimal
import Juxtaposition.Proofs.Text.Words

/-!
# What becomes of an exponent literal

How a literal is split at its marker, what is read from its two parts, and what the rule answers.
Numbers that are read are exact, and those that are too large are reported before anything is
stored.
-/

set_option autoImplicit false

namespace Juxtaposition

namespace Text

/-- Reading an integer from the start of the text never wraps around. Its negation has the negated
value, and its magnitude is the magnitude of its value. -/
structure ReadsInRange (text : String) : Prop where
  negation : ∀ magnitude, readInteger (leadingDigits text) = .ok magnitude →
    (-magnitude).toInt = -magnitude.toInt
  value : ∀ value, readIntegerStart text = .ok value → value.toInt = decimalStart text
  abs : ∀ value, readIntegerStart text = .ok value → value.abs.toInt = value.toInt.natAbs

theorem isNumeral_of_readInteger {digits : String} {text : String} {value : Int64}
    (same : digits = leadingDigits text) (read : readInteger digits = .ok value) :
    isNumeral digits = true := by
  subst same
  cases digits : ((splitSign text.toList).2.takeWhile Char.isDigit).isEmpty with
  | false => exact isNumeral_leadingDigits digits
  | true =>
      rw [leadingDigits_eq_empty digits] at read
      have unread : readInteger "" = .error ⟨""⟩ := by decide
      rw [unread] at read
      cases read

theorem readsInRange (text : String) : ReadsInRange text := by
  constructor
  case negation =>
    intro magnitude read
    have numeral := isNumeral_of_readInteger rfl read
    have exact := toInt_of_readInteger numeral read
    have small := small_of_readInteger numeral read
    rw [Oversize] at small
    rw [Int64.toInt_neg, Int.bmod_eq_of_le (by omega) (by omega)]
  case value => exact fun _ => toInt_of_readIntegerStart
  case abs =>
    intro value read
    rw [toInt_abs_of_readIntegerStart read, toInt_of_readIntegerStart read, natAbs_decimalStart]

end Text

namespace ExponentLiteral

/-! ## What a literal stands for -/

inductive ReadsMantissa (mantissa : String) : Expr → Prop where
  | integer {value : Int64} : '.' ∉ mantissa.toList → value.toInt = Text.decimalStart mantissa →
      ReadsMantissa mantissa (.integer value)
  | decimal {numeral : Text.DecimalNumeral} : '.' ∈ mantissa.toList →
      numeral.IsLongest mantissa.toList → ReadsMantissa mantissa (.float numeral.value none)

/-- An exponent with a sign is added to the product of mantissa and marker or subtracted from it.
Any other exponent is multiplied by them. -/
inductive Reads (literal : ExponentLiteral) : Expr → Prop where
  | signed {sign : Char} {operator : Operator} {mantissa : Expr} {value : Int64} :
      literal.exponent.toList.head? = some sign → Operator.ofSign? sign = some operator →
      ReadsMantissa literal.mantissa mantissa →
      value.toInt = (Text.decimalStart literal.exponent).natAbs →
      Reads literal (.operation operator
        (.product mantissa (.identifier (String.ofList [literal.marker]))) (.integer value) .missing)
  | unsigned {mantissa : Expr} {value : Int64} :
      (∀ sign ∈ literal.exponent.toList.head?, Operator.ofSign? sign = none) →
      ReadsMantissa literal.mantissa mantissa →
      value.toInt = Text.decimalStart literal.exponent →
      Reads literal (.product mantissa
        (.product (.identifier (String.ofList [literal.marker])) (.integer value)))

/-- What the rule answers for a literal. The digits of an oversized exponent are reported before
those of the mantissa, and nothing is stored then. Otherwise new nodes are stored, on top of those
that are there, which read as what the literal stands for. -/
inductive Answers (literal : ExponentLiteral) (tree : Tree) (id : NodeId) : RuleResult → Prop where
  | exponent : Text.Oversize (Text.leadingDigits literal.exponent) →
      Answers literal tree id
        (.error (.integerOverflow (Text.leadingDigits literal.exponent)), tree)
  | mantissa : ¬ Text.Oversize (Text.leadingDigits literal.exponent) →
      '.' ∉ literal.mantissa.toList → Text.Oversize (Text.leadingDigits literal.mantissa) →
      Answers literal tree id
        (.error (.integerOverflow (Text.leadingDigits literal.mantissa)), tree)
  | built {stored : Tree} {replacement : NodeId} {expr : Expr} :
      ¬ Text.Oversize (Text.leadingDigits literal.exponent) →
      ('.' ∈ literal.mantissa.toList ∨ ¬ Text.Oversize (Text.leadingDigits literal.mantissa)) →
      tree.Grows stored [] → stored.expr? replacement = some expr → literal.Reads expr →
      Answers literal tree id
        (.ok (some ⟨id, replacement, "exponent marker read as a variable"⟩), stored)

variable {literal : ExponentLiteral}

theorem readsMantissa {mantissa : Expr} (read : literal.mantissaExpr = .ok mantissa) :
    ReadsMantissa literal.mantissa mantissa ∧
      ('.' ∈ literal.mantissa.toList ∨ ¬ Text.Oversize (Text.leadingDigits literal.mantissa)) := by
  unfold mantissaExpr at read
  split at read
  · next point =>
    have member : '.' ∈ literal.mantissa.toList := by simpa using point
    cases read
    rw [Text.readDecimalStart_eq]
    exact ⟨.decimal member (Text.decimalPrefix_isLongest _), .inl member⟩
  · next noPoint =>
    have absent : '.' ∉ literal.mantissa.toList := by simpa using noPoint
    cases value : Text.readIntegerStart literal.mantissa with
    | error number =>
        rw [value] at read
        cases read
    | ok number =>
        rw [value] at read
        cases read
        exact ⟨.integer absent (Text.toInt_of_readIntegerStart value),
          .inr (Text.small_of_readIntegerStart value)⟩

theorem reads {expr : Expr} (read : literal.expr = .ok expr) :
    literal.Reads expr ∧ ¬ Text.Oversize (Text.leadingDigits literal.exponent) ∧
      ('.' ∈ literal.mantissa.toList ∨ ¬ Text.Oversize (Text.leadingDigits literal.mantissa)) := by
  unfold ExponentLiteral.expr at read
  cases exponentRead : Text.readIntegerStart literal.exponent with
  | error number =>
      rw [exponentRead] at read
      cases read
  | ok value =>
      cases mantissaRead : literal.mantissaExpr with
      | error number =>
          rw [exponentRead, mantissaRead] at read
          cases read
      | ok mantissa =>
          obtain ⟨readMantissa, small⟩ := readsMantissa mantissaRead
          have range := Text.readsInRange literal.exponent
          have exact := range.value value exponentRead
          simp only [exponentRead, mantissaRead, bind, Except.bind] at read
          refine ⟨?_, Text.small_of_readIntegerStart exponentRead, small⟩
          cases sign : literal.sign? with
          | none =>
              rw [sign] at read
              cases read
              exact .unsigned (fun first head => Option.bind_eq_none_iff.mp sign first head)
                readMantissa exact
          | some operator =>
              rw [sign] at read
              cases read
              obtain ⟨first, head, isSign⟩ := Option.bind_eq_some_iff.mp sign
              have magnitude := range.abs value exponentRead
              rw [exact] at magnitude
              exact .signed head isSign readMantissa magnitude

theorem answers_of_error {tree : Tree} {id : NodeId} {number : Oversized}
    (failed : literal.draft = .error number) :
    literal.Answers tree id (.error (.ofOversized number), tree) := by
  obtain ⟨digits⟩ := number
  have found := oversizedDigits?_of_draft_error failed
  unfold oversizedDigits? at found
  split at found
  · next oversize =>
    cases found
    exact .exponent oversize
  · next small =>
    split at found
    · cases found
    · next noPoint =>
      split at found
      · next oversize =>
        cases found
        exact .mantissa small (by simpa using noPoint) oversize
      · cases found

theorem answers_of_draft {tree : Tree} {id : NodeId} {draft : Draft}
    (drafted : literal.draft = .ok draft) :
    literal.Answers tree id
      (.ok (some ⟨id, (draft.store tree).1, "exponent marker read as a variable"⟩),
        (draft.store tree).2) := by
  have read : literal.expr = .ok (draft.expr tree.read) := by
    rw [literal.expr_eq tree.read, drafted]
    rfl
  obtain ⟨reads, smallExponent, smallMantissa⟩ := literal.reads read
  obtain ⟨_, keeps⟩ := draft_new drafted
  have nothing : (([] : List Layout).map Layout.place) = draft.keeps := keeps.symm
  obtain ⟨layout, place, builds⟩ :=
    Draft.store_builds (Tree.Forest.nil tree) nothing (fun _ member => absurd member List.not_mem_nil)
  have forest := builds.forest
  have stored := List.mem_singleton_self layout
  have found := (forest.spans layout stored).expr?_place
    (List.flatMap_singleton Layout.places layout ▸ forest.nodup)
    (forest.index_lt layout stored _ layout.place_mem_places)
  have shape : (draft.store tree).2.exprAlong layout = draft.expr tree.read :=
    (List.cons.inj builds.reads).1
  rw [place, shape] at found
  exact .built smallExponent smallMantissa builds.grows found reads

end ExponentLiteral

/-- Outside strict syntax the rule splits every literal that has a marker, and reads exactly what the
two parts denote. -/
theorem Rule.exponentLiteral_answers {options : Options} {tree : Tree} {id : NodeId}
    {value : Binary64} {text : String} (lenient : options.strictSyntax = false)
    (float : tree.node id = .float value (some text))
    (marked : 'e' ∈ text.toList ∨ 'E' ∈ text.toList) :
    ∃ literal : ExponentLiteral, literal.Splits text ∧
      literal.Answers tree id (exponentLiteral.apply options tree id) ∧
      Text.ReadsInRange literal.mantissa ∧ Text.ReadsInRange literal.exponent := by
  obtain ⟨literal, found⟩ :=
    Option.isSome_iff_exists.mp (ExponentLiteral.isSome_ofText?_iff.mpr marked)
  refine ⟨literal, ExponentLiteral.splits_of_ofText? found, ?_, Text.readsInRange _,
    Text.readsInRange _⟩
  have detected : detectExponentLiteral options tree id =
      literal.draft.map fun draft => some ⟨id, draft, "exponent marker read as a variable"⟩ := by
    unfold detectExponentLiteral
    rw [lenient, float]
    simp only [found]
    cases literal.draft <;> rfl
  have applied : exponentLiteral.apply options tree id =
      match literal.draft with
      | .error number => (.error (.ofOversized number), tree)
      | .ok draft => (.ok (some ⟨id, (draft.store tree).1, "exponent marker read as a variable"⟩),
          (draft.store tree).2) := by
    unfold exponentLiteral ofDetector
    dsimp only
    rw [detected]
    cases literal.draft <;> rfl
  rw [applied]
  cases drafted : literal.draft with
  | error number => exact ExponentLiteral.answers_of_error drafted
  | ok draft => exact ExponentLiteral.answers_of_draft drafted

/-- The tree of the literal `-2.50E1e-3`, whose first marker is not the one it is split at. -/
def twoMarkers : Tree where
  slots := #[⟨.root ⟨1⟩, none⟩, ⟨.float ⟨0⟩ (some "-2.50E1e-3"), some Tree.root⟩]

theorem Rule.exponentLiteral_answers_twoMarkers :
    twoMarkers.node ⟨1⟩ = .float ⟨0⟩ (some "-2.50E1e-3") ∧
      ('e' ∈ "-2.50E1e-3".toList ∨ 'E' ∈ "-2.50E1e-3".toList) ∧
      (∃ literal : ExponentLiteral, literal.Splits "-2.50E1e-3" ∧
        literal.Answers twoMarkers ⟨1⟩ (exponentLiteral.apply {} twoMarkers ⟨1⟩) ∧
        Text.ReadsInRange literal.mantissa ∧ Text.ReadsInRange literal.exponent) ∧
      (exponentLiteral.apply {} twoMarkers ⟨1⟩).1 =
        .ok (some ⟨⟨1⟩, ⟨6⟩, "exponent marker read as a variable"⟩) ∧
      (exponentLiteral.apply {} twoMarkers ⟨1⟩).2.render .none ⟨6⟩ = "-2.5*e-3" := by
  have node : twoMarkers.node ⟨1⟩ = .float ⟨0⟩ (some "-2.50E1e-3") := by decide
  have marked : 'e' ∈ "-2.50E1e-3".toList ∨ 'E' ∈ "-2.50E1e-3".toList := .inl (by decide)
  exact ⟨node, marked, exponentLiteral_answers rfl node marked, by decide +kernel,
    by decide +kernel⟩

end Juxtaposition
