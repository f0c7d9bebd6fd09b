import Juxtaposition.Proofs.Notation.Phrase
import Juxtaposition.Proofs.Text.Pieces

/-!
# Unambiguous notation

No two phrases of a category are written alike. Two phrases that start the same text are
compared from the left. As long as what follows may follow either of them, one of the two is
the start of the other, because phrases grow only at their right end.
-/

set_option autoImplicit false

namespace Juxtaposition.Notation

/-! ## Names and numerals -/

theorem not_mem_marks_of_isDigit {character : Char} (isDigit : character.isDigit = true) :
    character ∉ marks := by
  intro member
  have noDigits : marks.any Char.isDigit = false := by decide
  exact List.any_eq_false.mp noDigits character member isDigit

theorem isDigit_of_isLetter {character : Char} (letter : isLetter character = true) :
    character.isDigit = false := by
  simp only [isLetter, Bool.and_eq_true, Bool.not_eq_true'] at letter
  exact letter.1.2

theorem not_mem_marks_of_isLetter {character : Char} (letter : isLetter character = true) :
    character ∉ marks := by
  simp only [isLetter, Bool.and_eq_true, Bool.not_eq_true', List.contains_eq_mem,
    decide_eq_false_iff_not] at letter
  exact letter.1.1

theorem Name.exists_text_cons (name : Name) :
    ∃ first rest, name.text.toList = first :: rest ∧ isLetter first = true ∧
      ∀ character ∈ rest, character ∉ marks := by
  have lexical := name.lexical
  unfold isName at lexical
  split at lexical
  · cases lexical
  · next first rest shape =>
    rw [Bool.and_eq_true, List.all_eq_true] at lexical
    refine ⟨first, rest, shape, lexical.1, fun character member => ?_⟩
    have part := lexical.2 character member
    simp only [Bool.or_eq_true, beq_iff_eq] at part
    rcases part with (isLetter | isDigit) | rfl
    · exact not_mem_marks_of_isLetter isLetter
    · exact not_mem_marks_of_isDigit isDigit
    · decide

theorem Name.plain (name : Name) : ∀ character ∈ name.text.toList, character ∉ marks := by
  obtain ⟨first, rest, shape, letter, later⟩ := name.exists_text_cons
  rw [shape]
  intro character member
  rcases List.mem_cons.mp member with rfl | inRest
  · exact not_mem_marks_of_isLetter letter
  · exact later character inRest

theorem Numeral.exists_text_cons (numeral : Numeral) :
    ∃ first rest, numeral.text.toList = first :: rest ∧ first.isDigit = true := by
  obtain ⟨nonempty, areDigits⟩ := Text.isNumeral_iff.mp numeral.isNumeral
  obtain ⟨first, rest, shape⟩ := List.exists_cons_of_ne_nil nonempty
  rw [shape] at areDigits
  exact ⟨first, rest, shape, areDigits first List.mem_cons_self⟩

theorem Numeral.plain (numeral : Numeral) :
    ∀ character ∈ numeral.text.toList, character ∉ marks := by
  intro character member
  apply not_mem_marks_of_isDigit
  exact (Text.isNumeral_iff.mp numeral.isNumeral).2 character member

theorem Name.eq_of_text {left right : Name} (same : left.text = right.text) : left = right := by
  cases left
  cases right
  cases same
  rfl

theorem Numeral.eq_of_text {left right : Numeral} (same : left.text = right.text) :
    left = right := by
  obtain ⟨text, value, _, read⟩ := left
  obtain ⟨text', value', _, read'⟩ := right
  cases same
  rw [read] at read'
  cases read'
  rfl

/-- Two texts without marks that are followed by marks are equal if they start the same
text. -/
theorem append_inj_of_marks {left right rest rest' : List Char}
    (plain : ∀ character ∈ left, character ∉ marks)
    (plain' : ∀ character ∈ right, character ∉ marks)
    (ends : ∀ character ∈ rest.head?, character ∈ marks)
    (ends' : ∀ character ∈ rest'.head?, character ∈ marks)
    (same : left ++ rest = right ++ rest') : left = right ∧ rest = rest' := by
  induction left generalizing right with
  | nil =>
      cases right with
      | nil => exact ⟨rfl, same⟩
      | cons first later =>
          rw [List.nil_append] at same
          subst same
          exact absurd (ends first rfl) (plain' first List.mem_cons_self)
  | cons first later ih =>
      cases right with
      | nil =>
          rw [List.nil_append] at same
          subst same
          exact absurd (ends' first rfl) (plain first List.mem_cons_self)
      | cons first' later' =>
          rw [List.cons_append, List.cons_append, List.cons.injEq] at same
          obtain ⟨rfl, tails⟩ := same
          obtain ⟨rfl, sameRest⟩ := ih
            (fun character member => plain character (List.mem_cons_of_mem _ member))
            (fun character member => plain' character (List.mem_cons_of_mem _ member)) tails
          exact ⟨rfl, sameRest⟩

/-! ## Growth -/

namespace Category

def ends : Category → List Char
  | sum | term => [')', ',', '+', '-']
  | product | power => [')', ',', '+', '-', '*', '/']
  | atom => [')', ',', '+', '-', '*', '/', '^', '(']
  | arguments | items => [')']

/-- The characters that continue a phrase to a longer one of its category. -/
def growth : Category → List Char
  | sum => ['+', '-']
  | product => ['*', '/']
  | atom => ['(']
  | term | power | arguments | items => []

/-- Characters with which no phrase starts. -/
def bars : Category → List Char
  | sum | term | items | arguments => [')']
  | product | power | atom => [')', '-']

theorem ends_subset_marks (category : Category) : category.ends ⊆ marks := by
  cases category <;> decide

theorem growth_subset_ends (category : Category) : category.growth ⊆ category.ends := by
  cases category <;> decide

end Category

def Follows (allowed rest : List Char) : Prop :=
  ∀ character ∈ rest.head?, character ∈ allowed

inductive Extends : {category : Category} → Phrase category → Phrase category → List Char → Prop
  where
  | sum {operator : Operator} {level : operator.precedence = Operator.add.precedence}
      {lhs : Phrase .sum} {rhs : Phrase .term} :
      Extends lhs (.sum operator level lhs rhs) (sign operator :: rhs.text)
  | product {operator : Operator} {level : operator.precedence = Operator.mul.precedence}
      {lhs : Phrase .product} {rhs : Phrase .power} :
      Extends lhs (.product operator level lhs rhs) (sign operator :: rhs.text)
  | call {callee : Phrase .atom} {arguments : Phrase .arguments} :
      Extends callee (.call callee arguments) ('(' :: (arguments.text ++ [')']))

inductive Grows {category : Category} (phrase : Phrase category) :
    Phrase category → List Char → Prop where
  | refl : Grows phrase phrase []
  | step {middle later : Phrase category} {text more : List Char} :
      Grows phrase middle text → Extends middle later more → Grows phrase later (text ++ more)

variable {category : Category} {phrase other later : Phrase category}
  {text rest rest' : List Char}

theorem Extends.exists_cons (extension : Extends phrase later text) :
    ∃ first more, text = first :: more ∧ first ∈ category.growth := by
  cases extension with
  | @sum operator level _ rhs =>
      refine ⟨sign operator, rhs.text, rfl, ?_⟩
      cases operator <;> first | decide | cases level
  | @product operator level _ rhs =>
      refine ⟨sign operator, rhs.text, rfl, ?_⟩
      cases operator <;> first | decide | cases level
  | @call _ arguments => exact ⟨'(', arguments.text ++ [')'], rfl, List.mem_singleton_self _⟩

theorem Grows.head_cases (grows : Grows phrase later text) :
    (phrase = later ∧ text = []) ∨
      ∃ middle first more, Extends phrase middle first ∧ Grows middle later more ∧
        text = first ++ more := by
  induction grows with
  | refl => exact .inl ⟨rfl, rfl⟩
  | @step middle later _ more _ step ih =>
      right
      rcases ih with ⟨rfl, rfl⟩ | ⟨next, first, between, start, grows, rfl⟩
      · exact ⟨later, more, [], step, .refl, by simp⟩
      · exact ⟨next, first, between ++ more, start, grows.step step, by simp⟩

theorem follows_cons {allowed : List Char} {first : Char} (member : first ∈ allowed) :
    Follows allowed (first :: rest) := by
  intro character found
  cases found
  exact member

theorem Grows.follows (grows : Grows phrase later text) (ends : Follows category.ends rest) :
    Follows category.ends (text ++ rest) := by
  rcases grows.head_cases with ⟨_, rfl⟩ | ⟨_, _, more, start, _, rfl⟩
  · exact ends
  · obtain ⟨first, after, rfl, continues⟩ := start.exists_cons
    exact follows_cons (category.growth_subset_ends continues)

/-! ## Comparison -/

/-- One of two phrases is the start of the other, and the texts that follow them differ by
what the longer one has more. -/
def Compared {category : Category} (phrase other : Phrase category)
    (rest rest' : List Char) : Prop :=
  (∃ text, Grows phrase other text ∧ rest = text ++ rest') ∨
    ∃ text, Grows other phrase text ∧ rest' = text ++ rest

private theorem Grows.eq_of_follows {allowed : List Char} (grows : Grows phrase later text)
    (follows : Follows allowed (text ++ rest)) (apart : allowed.any category.growth.contains = false) :
    phrase = later ∧ text = [] := by
  rcases grows.head_cases with same | ⟨_, _, more, start, _, rfl⟩
  · exact same
  · obtain ⟨first, after, rfl, continues⟩ := start.exists_cons
    have foreign := List.any_eq_false.mp apart first (follows first rfl)
    rw [List.contains_iff_mem] at foreign
    exact absurd continues foreign

/-- Phrases that are not continued are compared to be equal. -/
theorem Compared.settle {allowed : List Char} (compared : Compared phrase other rest rest')
    (follows : Follows allowed rest) (follows' : Follows allowed rest')
    (apart : allowed.any category.growth.contains = false) : phrase = other ∧ rest = rest' := by
  rcases compared with ⟨text, grows, rfl⟩ | ⟨text, grows, rfl⟩
  · obtain ⟨rfl, rfl⟩ := grows.eq_of_follows follows apart
    exact ⟨rfl, rfl⟩
  · obtain ⟨rfl, rfl⟩ := grows.eq_of_follows follows' apart
    exact ⟨rfl, rfl⟩

/-- A comparison goes on with a phrase that is continued, when what continues it is
determined by the text. -/
theorem Compared.extend {more : List Char}
    (compared : Compared phrase other (more ++ rest) rest')
    (extension : Extends phrase later more) (ends : Follows category.ends rest')
    (determined : ∀ {next : Phrase category} {first after : List Char},
      Extends phrase next first → Follows category.ends after → more ++ rest = first ++ after →
      later = next ∧ rest = after) :
    Compared later other rest rest' := by
  rcases compared with ⟨text, grows, same⟩ | ⟨text, grows, same⟩
  · rcases grows.head_cases with ⟨rfl, rfl⟩ | ⟨next, first, between, start, onward, rfl⟩
    · exact .inr ⟨more, Grows.step .refl extension, same.symm⟩
    · rw [List.append_assoc] at same
      obtain ⟨rfl, sameRest⟩ := determined start (onward.follows ends) same
      exact .inl ⟨between, onward, sameRest⟩
  · refine .inr ⟨text ++ more, grows.step extension, ?_⟩
    rw [List.append_assoc]
    exact same

/-! ### Starts -/

def Starts (phrase : Phrase category) : Prop :=
  ∀ shorter text, ¬ Extends shorter phrase text

theorem exists_start (phrase : Phrase category) :
    ∃ first text, Grows first phrase text ∧ Starts first := by
  induction phrase with
  | sum operator level lhs rhs inLhs _ =>
      obtain ⟨first, text, grows, starts⟩ := inLhs
      exact ⟨first, _, grows.step .sum, starts⟩
  | product operator level lhs rhs inLhs _ =>
      obtain ⟨first, text, grows, starts⟩ := inLhs
      exact ⟨first, _, grows.step .product, starts⟩
  | call callee arguments inCallee _ =>
      obtain ⟨first, text, grows, starts⟩ := inCallee
      exact ⟨first, _, grows.step .call, starts⟩
  | _ => exact ⟨_, [], .refl, fun _ _ extension => nomatch extension⟩

theorem Grows.text_eq (grows : Grows phrase later text) : later.text = phrase.text ++ text := by
  induction grows with
  | refl => rw [List.append_nil]
  | step _ extension ih =>
      rw [← List.append_assoc, ← ih]
      cases extension with
      | sum => rfl
      | product => rfl
      | call => rfl

theorem exists_text_cons (phrase : Phrase category) (proper : category ≠ .arguments) :
    ∃ first more, phrase.text = first :: more ∧ first ∉ category.bars := by
  have bars : Category.bars .atom ⊆ marks := by decide
  have fewer : Category.bars .term ⊆ Category.bars .product := by decide
  induction phrase with
  | ofTerm _ ih => exact ih nofun
  | sum operator _ lhs rhs ih _ =>
      obtain ⟨first, more, shape, allowed⟩ := ih nofun
      exact ⟨first, _, by rw [Phrase.text, shape, List.cons_append], allowed⟩
  | ofProduct _ ih =>
      obtain ⟨first, more, shape, allowed⟩ := ih nofun
      exact ⟨first, more, shape, fun barred => allowed (fewer barred)⟩
  | negation operand _ => exact ⟨'-', operand.text, rfl, by decide⟩
  | ofPower _ ih => exact ih nofun
  | product operator _ lhs rhs ih _ =>
      obtain ⟨first, more, shape, allowed⟩ := ih nofun
      exact ⟨first, _, by rw [Phrase.text, shape, List.cons_append], allowed⟩
  | ofAtom _ ih => exact ih nofun
  | power lhs rhs ih _ =>
      obtain ⟨first, more, shape, allowed⟩ := ih nofun
      exact ⟨first, _, by rw [Phrase.text, shape, List.cons_append], allowed⟩
  | name word =>
      obtain ⟨first, more, shape, letter, _⟩ := word.exists_text_cons
      exact ⟨first, more, shape, fun barred => not_mem_marks_of_isLetter letter (bars barred)⟩
  | integer numeral =>
      obtain ⟨first, more, shape, isDigit⟩ := numeral.exists_text_cons
      exact ⟨first, more, shape, fun barred => not_mem_marks_of_isDigit isDigit (bars barred)⟩
  | group arguments _ => exact ⟨'(', _, rfl, by decide⟩
  | call callee arguments ih _ =>
      obtain ⟨first, more, shape, allowed⟩ := ih nofun
      exact ⟨first, _, by rw [Phrase.text, shape, List.cons_append], allowed⟩
  | none => exact absurd rfl proper
  | some _ _ => exact absurd rfl proper
  | last _ ih => exact ih nofun
  | more item rest ih _ =>
      obtain ⟨first, more, shape, allowed⟩ := ih nofun
      exact ⟨first, _, by rw [Phrase.text, shape, List.cons_append], allowed⟩

/-! ### Production by production -/

def Comparable (phrase : Phrase category) : Prop :=
  ∀ (other : Phrase category) (rest rest' : List Char), Follows category.ends rest →
    Follows category.ends rest' → phrase.text ++ rest = other.text ++ rest' →
    Compared phrase other rest rest'

theorem Follows.weaken {allowed wider : List Char} (follows : Follows allowed rest)
    (included : allowed ⊆ wider) : Follows wider rest :=
  fun character member => included (follows character member)

namespace Comparable

theorem eq (comparable : Comparable phrase) {allowed : List Char}
    (follows : Follows allowed rest) (follows' : Follows allowed rest')
    (included : allowed ⊆ category.ends) (apart : allowed.any category.growth.contains = false)
    (same : phrase.text ++ rest = other.text ++ rest') : phrase = other ∧ rest = rest' :=
  (comparable other rest rest' (follows.weaken included) (follows'.weaken included) same).settle
    follows follows' apart

/-- It is enough to compare a phrase with those that continue no shorter one. -/
private theorem of_starts
    (told : ∀ {first : Phrase category} {rest rest' : List Char}, Starts first →
      Follows category.ends rest → Follows category.ends rest' →
      phrase.text ++ rest = first.text ++ rest' → phrase = first ∧ rest = rest') :
    Comparable phrase := by
  intro other rest rest' ends ends' same
  obtain ⟨first, text, grows, starts⟩ := exists_start other
  rw [grows.text_eq, List.append_assoc] at same
  obtain ⟨rfl, sameRest⟩ := told starts ends (grows.follows ends') same
  exact .inl ⟨text, grows, sameRest⟩

theorem sign_injective {left right : Operator} (same : sign left = sign right) :
    left = right := by
  cases left <;> cases right <;> first | rfl | cases same

/-- After the left operand there is one operator with one right operand. -/
private theorem eq_operand {operator operator' : Operator} (comparable : Comparable phrase)
    (ends : Follows category.ends rest) (ends' : Follows category.ends rest')
    (apart : category.ends.any category.growth.contains = false)
    (same : sign operator :: phrase.text ++ rest = sign operator' :: other.text ++ rest') :
    operator = operator' ∧ phrase = other ∧ rest = rest' := by
  obtain ⟨sameSign, sameText⟩ := List.cons.inj same
  exact ⟨sign_injective sameSign,
    comparable.eq ends ends' (List.Subset.refl _) apart sameText⟩

theorem ofTerm {term : Phrase .term} (comparable : Comparable term) :
    Comparable (.ofTerm term) := by
  apply of_starts
  intro first rest rest' starts ends ends' same
  cases first with
  | ofTerm term' =>
      obtain ⟨rfl, sameRest⟩ :=
        comparable.eq ends ends' (List.Subset.refl _) (by decide) same
      exact ⟨rfl, sameRest⟩
  | sum operator level lhs rhs => exact absurd .sum (starts lhs _)

theorem sum {operator : Operator} {level : operator.precedence = Operator.add.precedence}
    {lhs : Phrase .sum} {rhs : Phrase .term} (inLhs : Comparable lhs) (inRhs : Comparable rhs) :
    Comparable (.sum operator level lhs rhs) := by
  intro other rest rest' ends ends' same
  have follows : Follows (Category.ends .sum) (sign operator :: rhs.text ++ rest) := by
    apply follows_cons
    cases operator <;> first | decide | cases level
  rw [Phrase.text, List.append_assoc] at same
  apply (inLhs other _ _ follows ends' same).extend .sum ends'
  intro next first after extension endsAfter sameMore
  cases extension with
  | sum =>
      obtain ⟨rfl, rfl, sameRest⟩ := inRhs.eq_operand ends endsAfter (by decide) sameMore
      exact ⟨rfl, sameRest⟩

theorem ofProduct {factors : Phrase .product} (comparable : Comparable factors) :
    Comparable (.ofProduct factors) := by
  apply of_starts
  intro first rest rest' _ ends ends' same
  cases first with
  | ofProduct factors' =>
      obtain ⟨rfl, sameRest⟩ := comparable.eq ends ends' (by decide) (by decide) same
      exact ⟨rfl, sameRest⟩
  | negation operand =>
      obtain ⟨character, more, shape, allowed⟩ := exists_text_cons factors nofun
      rw [Phrase.text, shape] at same
      obtain ⟨rfl, _⟩ := List.cons.inj same
      exact absurd (by decide) allowed

theorem negation {operand : Phrase .product} (comparable : Comparable operand) :
    Comparable (.negation operand) := by
  apply of_starts
  intro first rest rest' _ ends ends' same
  cases first with
  | negation operand' =>
      obtain ⟨_, sameText⟩ := List.cons.inj same
      obtain ⟨rfl, sameRest⟩ := comparable.eq ends ends' (by decide) (by decide) sameText
      exact ⟨rfl, sameRest⟩
  | ofProduct factors =>
      obtain ⟨character, more, shape, allowed⟩ := exists_text_cons factors nofun
      change '-' :: (operand.text ++ rest) = factors.text ++ rest' at same
      rw [shape] at same
      obtain ⟨rfl, _⟩ := List.cons.inj same
      exact absurd (by decide) allowed

theorem ofPower {factor : Phrase .power} (comparable : Comparable factor) :
    Comparable (.ofPower factor) := by
  apply of_starts
  intro first rest rest' starts ends ends' same
  cases first with
  | ofPower factor' =>
      obtain ⟨rfl, sameRest⟩ :=
        comparable.eq ends ends' (List.Subset.refl _) (by decide) same
      exact ⟨rfl, sameRest⟩
  | product operator level lhs rhs => exact absurd .product (starts lhs _)

theorem product {operator : Operator} {level : operator.precedence = Operator.mul.precedence}
    {lhs : Phrase .product} {rhs : Phrase .power} (inLhs : Comparable lhs)
    (inRhs : Comparable rhs) : Comparable (.product operator level lhs rhs) := by
  intro other rest rest' ends ends' same
  have follows : Follows (Category.ends .product) (sign operator :: rhs.text ++ rest) := by
    apply follows_cons
    cases operator <;> first | decide | cases level
  rw [Phrase.text, List.append_assoc] at same
  apply (inLhs other _ _ follows ends' same).extend .product ends'
  intro next first after extension endsAfter sameMore
  cases extension with
  | product =>
      obtain ⟨rfl, rfl, sameRest⟩ := inRhs.eq_operand ends endsAfter (by decide) sameMore
      exact ⟨rfl, sameRest⟩

/-- An atom is followed by `^` or by what follows a power. -/
private theorem eq_base {atom atom' : Phrase .atom} (comparable : Comparable atom)
    (follows : Follows ('^' :: Category.ends .power) rest)
    (follows' : Follows ('^' :: Category.ends .power) rest')
    (same : atom.text ++ rest = atom'.text ++ rest') : atom = atom' ∧ rest = rest' :=
  comparable.eq follows follows' (by decide) (by decide) same

theorem ofAtom {atom : Phrase .atom} (comparable : Comparable atom) :
    Comparable (.ofAtom atom) := by
  apply of_starts
  intro first rest rest' _ ends ends' same
  have widened : Follows ('^' :: Category.ends .power) rest := ends.weaken (by decide)
  cases first with
  | ofAtom atom' =>
      obtain ⟨rfl, sameRest⟩ := comparable.eq_base widened (ends'.weaken (by decide)) same
      exact ⟨rfl, sameRest⟩
  | power lhs rhs =>
      rw [Phrase.text, Phrase.text, List.append_assoc] at same
      obtain ⟨rfl, rfl⟩ := comparable.eq_base widened (follows_cons List.mem_cons_self) same
      exact absurd (ends '^' rfl) (by decide)

theorem power {lhs : Phrase .atom} {rhs : Phrase .power} (inLhs : Comparable lhs)
    (inRhs : Comparable rhs) : Comparable (.power lhs rhs) := by
  apply of_starts
  intro first rest rest' _ ends ends' same
  rw [Phrase.text, List.append_assoc] at same
  cases first with
  | ofAtom atom =>
      obtain ⟨rfl, rfl⟩ := inLhs.eq_base (follows_cons List.mem_cons_self)
        (ends'.weaken (by decide)) same
      have barred := ends' '^' rfl
      exact absurd barred (by decide)
  | power lhs' rhs' =>
      rw [Phrase.text, List.append_assoc] at same
      obtain ⟨rfl, sameMore⟩ := inLhs.eq_base (follows_cons List.mem_cons_self)
        (follows_cons List.mem_cons_self) same
      obtain ⟨_, sameText⟩ := List.cons.inj sameMore
      obtain ⟨rfl, sameRest⟩ :=
        inRhs.eq ends ends' (List.Subset.refl _) (by decide) sameText
      exact ⟨rfl, sameRest⟩

/-! ### Atoms and lists -/

private theorem eq_of_brackets {arguments arguments' : Phrase .arguments}
    (comparable : Comparable arguments)
    (same : '(' :: (arguments.text ++ [')']) ++ rest =
      '(' :: (arguments'.text ++ [')']) ++ rest') :
    arguments = arguments' ∧ rest = rest' := by
  simp only [List.cons_append, List.append_assoc, List.cons.injEq, true_and,
    List.nil_append] at same
  obtain ⟨rfl, sameRest⟩ := comparable.eq (follows_cons List.mem_cons_self)
    (follows_cons List.mem_cons_self) (List.Subset.refl _) (by decide) same
  exact ⟨rfl, (List.cons.inj sameRest).2⟩

theorem call {callee : Phrase .atom} {arguments : Phrase .arguments}
    (inCallee : Comparable callee) (inArguments : Comparable arguments) :
    Comparable (.call callee arguments) := by
  intro other rest rest' ends ends' same
  have follows : Follows (Category.ends .atom) ('(' :: (arguments.text ++ [')']) ++ rest) :=
    follows_cons (by decide)
  rw [Phrase.text, List.append_assoc] at same
  apply (inCallee other _ _ follows ends' same).extend .call ends'
  intro next first after extension _ sameMore
  cases extension with
  | call =>
      obtain ⟨rfl, sameRest⟩ := inArguments.eq_of_brackets sameMore
      exact ⟨rfl, sameRest⟩

private theorem ends_mark (ends : Follows (Category.ends .atom) rest) : Follows marks rest :=
  ends.weaken (Category.ends_subset_marks .atom)

private theorem name_ne_integer (word : Name) (numeral : Numeral) :
    word.text.toList ++ rest ≠ numeral.text.toList ++ rest' := by
  intro same
  obtain ⟨first, more, shape, letter, _⟩ := word.exists_text_cons
  obtain ⟨first', more', shape', isDigit⟩ := numeral.exists_text_cons
  rw [shape, shape'] at same
  obtain ⟨rfl, _⟩ := List.cons.inj same
  rw [isDigit_of_isLetter letter] at isDigit
  cases isDigit

private theorem bracket_ne_name (word : Name) : '(' :: rest ≠ word.text.toList ++ rest' := by
  intro same
  obtain ⟨first, more, shape, letter, _⟩ := word.exists_text_cons
  rw [shape] at same
  obtain ⟨rfl, _⟩ := List.cons.inj same
  cases letter

private theorem bracket_ne_integer (numeral : Numeral) :
    '(' :: rest ≠ numeral.text.toList ++ rest' := by
  intro same
  obtain ⟨first, more, shape, isDigit⟩ := numeral.exists_text_cons
  rw [shape] at same
  obtain ⟨rfl, _⟩ := List.cons.inj same
  cases isDigit

theorem name (word : Name) : Comparable (.name word) := by
  apply of_starts
  intro first rest rest' starts ends ends' same
  cases first with
  | name word' =>
      obtain ⟨sameText, sameRest⟩ := append_inj_of_marks word.plain word'.plain
        (ends_mark ends) (ends_mark ends') same
      obtain rfl := Name.eq_of_text (String.toList_inj.mp sameText)
      exact ⟨rfl, sameRest⟩
  | integer numeral => exact absurd same (name_ne_integer word numeral)
  | group arguments => exact absurd same.symm (bracket_ne_name word)
  | call callee arguments => exact absurd .call (starts callee _)

theorem integer (numeral : Numeral) : Comparable (.integer numeral) := by
  apply of_starts
  intro first rest rest' starts ends ends' same
  cases first with
  | name word => exact absurd same.symm (name_ne_integer word numeral)
  | integer numeral' =>
      obtain ⟨sameText, sameRest⟩ := append_inj_of_marks numeral.plain numeral'.plain
        (ends_mark ends) (ends_mark ends') same
      obtain rfl := Numeral.eq_of_text (String.toList_inj.mp sameText)
      exact ⟨rfl, sameRest⟩
  | group arguments => exact absurd same.symm (bracket_ne_integer numeral)
  | call callee arguments => exact absurd .call (starts callee _)

theorem group {arguments : Phrase .arguments} (comparable : Comparable arguments) :
    Comparable (.group arguments) := by
  apply of_starts
  intro first rest rest' starts ends ends' same
  cases first with
  | name word => exact absurd same (bracket_ne_name word)
  | integer numeral => exact absurd same (bracket_ne_integer numeral)
  | group arguments' =>
      obtain ⟨rfl, sameRest⟩ := comparable.eq_of_brackets same
      exact ⟨rfl, sameRest⟩
  | call callee arguments => exact absurd .call (starts callee _)

/-- Items never start with what may follow them. -/
private theorem not_items {items : Phrase .items} {more : List Char}
    (ends : Follows (Category.ends .arguments) rest) (same : rest = items.text ++ more) : False := by
  obtain ⟨first, text, shape, allowed⟩ := exists_text_cons items nofun
  rw [shape] at same
  rw [same] at ends
  exact allowed (ends first rfl)

theorem none : Comparable .none := by
  apply of_starts
  intro first rest rest' _ ends ends' same
  cases first with
  | none => exact ⟨rfl, same⟩
  | some items => exact absurd same (not_items ends)

theorem some {items : Phrase .items} (comparable : Comparable items) :
    Comparable (.some items) := by
  apply of_starts
  intro first rest rest' _ ends ends' same
  cases first with
  | none => exact absurd same.symm (not_items ends')
  | some items' =>
      obtain ⟨rfl, sameRest⟩ :=
        comparable.eq ends ends' (List.Subset.refl _) (by decide) same
      exact ⟨rfl, sameRest⟩

/-- An item is followed by a comma or by a closing bracket. -/
private theorem eq_item {item item' : Phrase .sum} (comparable : Comparable item)
    (follows : Follows [')', ','] rest) (follows' : Follows [')', ','] rest')
    (same : item.text ++ rest = item'.text ++ rest') : item = item' ∧ rest = rest' :=
  comparable.eq follows follows' (by decide) (by decide) same

theorem last {item : Phrase .sum} (comparable : Comparable item) : Comparable (.last item) := by
  apply of_starts
  intro first rest rest' _ ends ends' same
  have widened : Follows [')', ','] rest := ends.weaken (by decide)
  cases first with
  | last item' =>
      obtain ⟨rfl, sameRest⟩ := comparable.eq_item widened (ends'.weaken (by decide)) same
      exact ⟨rfl, sameRest⟩
  | more item' later =>
      rw [Phrase.text, Phrase.text, List.append_assoc] at same
      obtain ⟨rfl, rfl⟩ := comparable.eq_item widened (follows_cons (by decide)) same
      exact absurd (ends ',' rfl) (by decide)

theorem more {item : Phrase .sum} {later : Phrase .items} (inItem : Comparable item)
    (inLater : Comparable later) : Comparable (.more item later) := by
  apply of_starts
  intro first rest rest' _ ends ends' same
  rw [Phrase.text, List.append_assoc] at same
  cases first with
  | last item' =>
      obtain ⟨rfl, rfl⟩ :=
        inItem.eq_item (follows_cons (by decide)) (ends'.weaken (by decide)) same
      have barred := ends' ',' rfl
      exact absurd barred (by decide)
  | more item' later' =>
      rw [Phrase.text, List.append_assoc] at same
      obtain ⟨rfl, sameMore⟩ :=
        inItem.eq_item (follows_cons (by decide)) (follows_cons (by decide)) same
      obtain ⟨_, sameText⟩ := List.cons.inj sameMore
      obtain ⟨rfl, sameRest⟩ :=
        inLater.eq ends ends' (List.Subset.refl _) (by decide) sameText
      exact ⟨rfl, sameRest⟩

end Comparable

theorem comparable (phrase : Phrase category) : Comparable phrase := by
  induction phrase with
  | ofTerm _ ih => exact ih.ofTerm
  | sum _ _ _ _ inLhs inRhs => exact inLhs.sum inRhs
  | ofProduct _ ih => exact ih.ofProduct
  | negation _ ih => exact ih.negation
  | ofPower _ ih => exact ih.ofPower
  | product _ _ _ _ inLhs inRhs => exact inLhs.product inRhs
  | ofAtom _ ih => exact ih.ofAtom
  | power _ _ inLhs inRhs => exact inLhs.power inRhs
  | name word => exact .name word
  | integer numeral => exact .integer numeral
  | group _ ih => exact ih.group
  | call _ _ inCallee inArguments => exact inCallee.call inArguments
  | none => exact .none
  | some _ ih => exact ih.some
  | last _ ih => exact ih.last
  | more _ _ inItem inLater => exact inItem.more inLater

/-- Two sums that are written alike are one and the same derivation. -/
theorem sum_eq_of_text_eq {phrase other : Phrase .sum} (same : phrase.text = other.text) :
    phrase = other := by
  have nothing : Follows [] ([] : List Char) := fun _ member => nomatch member
  apply ((comparable phrase).eq nothing nothing (List.nil_subset _) rfl _).1
  rw [same]

end Juxtaposition.Notation
