import Juxtaposition.Proofs.Text.Numeral

/-!
# Decimal fractions at the start of a text

The lenient reading of a decimal fraction takes the longest start of the text that has the form of
one.
-/

set_option autoImplicit false

namespace Juxtaposition.Text

/-- A sign or none, digits, and perhaps a point with digits after it. There may be no digits at
all. -/
structure DecimalNumeral where
  sign : List Char
  whole : List Char
  fraction : Option (List Char)
  isSign : sign = [] ∨ sign = ['+'] ∨ sign = ['-']
  areDigits : ∀ character ∈ whole, character.isDigit = true
  areFractionDigits : ∀ character ∈ fraction.getD [], character.isDigit = true

namespace DecimalNumeral

def pointed : Option (List Char) → List Char
  | none => []
  | some digits => '.' :: digits

def text (numeral : DecimalNumeral) : List Char :=
  numeral.sign ++ (numeral.whole ++ pointed numeral.fraction)

def digits (numeral : DecimalNumeral) : List Char :=
  numeral.whole ++ numeral.fraction.getD []

/-- The nearest binary number, and positive zero if there is no digit. -/
def value (numeral : DecimalNumeral) : Binary64 :=
  if numeral.digits = [] then Binary64.zero
  else
    let magnitude := Binary64.nearest (digitsValue numeral.digits)
      (tenTo (numeral.fraction.getD []).length)
    if numeral.sign = ['-'] then magnitude.negate else magnitude

/-- No start of the text that has the form of a decimal fraction is longer. -/
structure IsLongest (numeral : DecimalNumeral) (text : List Char) : Prop where
  starts : numeral.text <+: text
  longest : ∀ other : DecimalNumeral, other.text <+: text →
    other.text.length ≤ numeral.text.length

end DecimalNumeral

open DecimalNumeral

/-! ## Signs -/

def leadingSign : List Char → List Char
  | '-' :: _ => ['-']
  | '+' :: _ => ['+']
  | _ => []

theorem splitSign_cases (text : List Char) :
    (∃ rest, text = '-' :: rest ∧ splitSign text = (true, rest) ∧ leadingSign text = ['-']) ∨
      (∃ rest, text = '+' :: rest ∧ splitSign text = (false, rest) ∧ leadingSign text = ['+']) ∨
      splitSign text = (false, text) ∧ leadingSign text = [] := by
  unfold splitSign
  split
  case h_1 rest => exact .inl ⟨rest, rfl, rfl, rfl⟩
  case h_2 rest => exact .inr (.inl ⟨rest, rfl, rfl, rfl⟩)
  case h_3 noMinus noPlus =>
    refine .inr (.inr ⟨rfl, ?_⟩)
    unfold leadingSign
    split
    · exact (noMinus _ rfl).elim
    · exact (noPlus _ rfl).elim
    · rfl

theorem leadingSign_append (text : List Char) :
    leadingSign text ++ (splitSign text).2 = text := by
  rcases splitSign_cases text with ⟨rest, rfl, split, sign⟩ | ⟨rest, rfl, split, sign⟩ | ⟨split, sign⟩
  · rfl
  · rfl
  · rw [split, sign]
    rfl

theorem splitSign_negative (text : List Char) :
    (splitSign text).1 = decide (leadingSign text = ['-']) := by
  rcases splitSign_cases text with ⟨_, _, split, sign⟩ | ⟨_, _, split, sign⟩ | ⟨split, sign⟩ <;>
    rw [split, sign] <;> rfl

theorem leadingSign_cases (text : List Char) :
    leadingSign text = [] ∨ leadingSign text = ['+'] ∨ leadingSign text = ['-'] := by
  rcases splitSign_cases text with ⟨_, _, _, sign⟩ | ⟨_, _, _, sign⟩ | ⟨_, sign⟩
  · exact .inr (.inr sign)
  · exact .inr (.inl sign)
  · exact .inl sign

theorem leadingSign_of_isDigit {character : Char} {rest : List Char}
    (isDigit : character.isDigit = true) : leadingSign (character :: rest) = [] := by
  unfold leadingSign
  split
  · next same =>
    cases same
    cases isDigit
  · next same =>
    cases same
    cases isDigit
  · rfl

theorem leadingSign_of_extends {start text : List Char} (nonempty : start ≠ [])
    (starts : start <+: text) : leadingSign text = leadingSign start := by
  obtain ⟨rest, rfl⟩ := starts
  cases start with
  | nil => exact absurd rfl nonempty
  | cons first later =>
      rw [List.cons_append]
      unfold leadingSign
      split <;> simp_all

theorem DecimalNumeral.leadingSign_text (numeral : DecimalNumeral) :
    leadingSign numeral.text = numeral.sign := by
  obtain ⟨sign, whole, fraction, isSign, areDigits, _⟩ := numeral
  rcases isSign with rfl | rfl | rfl
  · cases whole with
    | nil => cases fraction <;> rfl
    | cons first later => exact leadingSign_of_isDigit (areDigits first List.mem_cons_self)
  · rfl
  · rfl

/-! ## What follows a sign -/

def fractionDigits? (text : List Char) : Option (List Char) :=
  match text.dropWhile Char.isDigit with
  | '.' :: rest => some (rest.takeWhile Char.isDigit)
  | _ => none

theorem fractionDigits?_of_point {text rest : List Char}
    (point : text.dropWhile Char.isDigit = '.' :: rest) :
    fractionDigits? text = some (rest.takeWhile Char.isDigit) := by
  rw [fractionDigits?, point]
  rfl

theorem fractionDigits?_eq_none {text : List Char}
    (noPoint : ∀ rest, text.dropWhile Char.isDigit = '.' :: rest → False) :
    fractionDigits? text = none := by
  unfold fractionDigits?
  split
  · next rest point => exact (noPoint rest point).elim
  · rfl

theorem splitFraction_eq (text : List Char) :
    splitFraction text = (text.takeWhile Char.isDigit, (fractionDigits? text).getD []) := by
  unfold splitFraction
  rw [List.span_eq_takeWhile_dropWhile]
  dsimp only
  split
  · next rest point =>
    rw [fractionDigits?_of_point point]
    rfl
  · next noPoint =>
    rw [fractionDigits?_eq_none noPoint]
    rfl

theorem unsigned_starts (text : List Char) :
    text.takeWhile Char.isDigit ++ pointed (fractionDigits? text) <+: text := by
  have parts : text.takeWhile Char.isDigit ++ text.dropWhile Char.isDigit = text :=
    List.takeWhile_append_dropWhile
  have later : pointed (fractionDigits? text) <+: text.dropWhile Char.isDigit := by
    unfold fractionDigits?
    split
    · next rest same =>
      rw [same]
      exact (List.prefix_cons_inj '.').mpr (List.takeWhile_prefix _)
    · exact List.nil_prefix
  have both := (List.prefix_append_right_inj (text.takeWhile Char.isDigit)).mpr later
  rwa [parts] at both

theorem unsigned_longest {whole text : List Char} {fraction : Option (List Char)}
    (areDigits : ∀ character ∈ whole, character.isDigit = true)
    (areFractionDigits : ∀ character ∈ fraction.getD [], character.isDigit = true)
    (starts : whole ++ pointed fraction <+: text) :
    (whole ++ pointed fraction).length ≤
      (text.takeWhile Char.isDigit ++ pointed (fractionDigits? text)).length := by
  obtain ⟨rest, rfl⟩ := starts
  cases fraction with
  | none =>
      rw [pointed, List.append_nil, List.takeWhile_append_of_pos areDigits]
      simp only [List.length_append]
      omega
  | some digits =>
      have point : (whole ++ '.' :: (digits ++ rest)).dropWhile Char.isDigit =
          '.' :: (digits ++ rest) := List.dropWhile_append_of_pos areDigits
      have before : (whole ++ '.' :: (digits ++ rest)).takeWhile Char.isDigit = whole :=
        (List.takeWhile_append_of_pos areDigits).trans (List.append_nil whole)
      have after : (digits ++ rest).takeWhile Char.isDigit = digits ++ rest.takeWhile Char.isDigit :=
        List.takeWhile_append_of_pos areFractionDigits
      rw [pointed, List.append_assoc, List.cons_append, before, fractionDigits?_of_point point,
        after, pointed]
      simp only [List.length_append, List.length_cons]
      omega

/-! ## The longest start -/

def decimalPrefix (text : List Char) : DecimalNumeral where
  sign := leadingSign text
  whole := (splitSign text).2.takeWhile Char.isDigit
  fraction := fractionDigits? (splitSign text).2
  isSign := leadingSign_cases text
  areDigits _ member := List.mem_takeWhile_imp member
  areFractionDigits character member := by
    unfold fractionDigits? at member
    split at member
    · exact List.mem_takeWhile_imp member
    · cases member

theorem decimalPrefix_isLongest (text : List Char) : (decimalPrefix text).IsLongest text := by
  have parts := leadingSign_append text
  constructor
  case starts =>
    have later := (List.prefix_append_right_inj (leadingSign text)).mpr
      (unsigned_starts (splitSign text).2)
    rwa [parts] at later
  case longest =>
    intro other starts
    by_cases nothing : other.text = []
    · rw [nothing]
      exact Nat.zero_le _
    · have sign : leadingSign text = other.sign :=
        (leadingSign_of_extends nothing starts).trans other.leadingSign_text
      have unsigned : other.whole ++ pointed other.fraction <+: (splitSign text).2 := by
        rw [← List.prefix_append_right_inj (leadingSign text), parts, sign]
        exact starts
      have shorter := unsigned_longest other.areDigits other.areFractionDigits unsigned
      have whole : other.text = leadingSign text ++ (other.whole ++ pointed other.fraction) := by
        rw [sign]
        rfl
      have longest : (decimalPrefix text).text = leadingSign text ++
          ((splitSign text).2.takeWhile Char.isDigit ++
            pointed (fractionDigits? (splitSign text).2)) := rfl
      rw [whole, longest, List.length_append]
      exact Nat.le_trans (Nat.add_le_add_left shorter _) (Nat.le_of_eq List.length_append.symm)

/-- The lenient reading of a decimal fraction reads the longest start that has its form. -/
theorem readDecimalStart_eq (text : String) :
    readDecimalStart text = (decimalPrefix text.toList).value := by
  have negative := splitSign_negative text.toList
  have split := splitFraction_eq (splitSign text.toList).2
  have digits : (decimalPrefix text.toList).digits =
      (splitSign text.toList).2.takeWhile Char.isDigit ++
        (fractionDigits? (splitSign text.toList).2).getD [] := rfl
  have fraction : (decimalPrefix text.toList).fraction =
      fractionDigits? (splitSign text.toList).2 := rfl
  have sign : (decimalPrefix text.toList).sign = leadingSign text.toList := rfl
  unfold readDecimalStart DecimalNumeral.value
  rw [digits, fraction, sign]
  generalize leadingSign text.toList = sign at negative
  generalize splitSign text.toList = parts at negative split
  obtain ⟨isNegative, rest⟩ := parts
  subst negative
  dsimp only at split ⊢
  rw [split]
  simp

end Juxtaposition.Text
