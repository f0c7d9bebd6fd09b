import Juxtaposition.Proofs.Text.Pieces
import Juxtaposition.Text.Numeral

/-!
# Oversized numerals

Reading a numeral fails exactly when its value is beyond the largest integer,
and the failure quotes the digits.
-/

set_option autoImplicit false

namespace Juxtaposition.Text

/-- No sixty-four bit integer is as large as the number with these digits. -/
def Oversize (digits : String) : Prop :=
  9223372036854775807 < digitsValue digits.toList

instance (digits : String) : Decidable (Oversize digits) :=
  inferInstanceAs (Decidable (_ < _))

theorem splitSign_of_isDigit {characters : List Char}
    (digits : ∀ character ∈ characters, character.isDigit = true) :
    splitSign characters = (false, characters) := by
  unfold splitSign
  split
  · have minus := digits '-' List.mem_cons_self
    cases minus
  · have plus := digits '+' List.mem_cons_self
    cases plus
  · rfl

theorem int64?_natCast (value : Nat) :
    int64? value = if 9223372036854775807 < value then none else some (Int64.ofInt value) := by
  have least : Int64.minValue.toInt = -9223372036854775808 := by decide
  have most : Int64.maxValue.toInt = 9223372036854775807 := by decide
  unfold int64?
  rw [least, most]
  by_cases beyond : 9223372036854775807 < value
  · rw [if_neg (by omega), if_pos beyond]
  · rw [if_pos (by omega), if_neg beyond]

theorem readInteger_of_numeral {digits : String} (numeral : isNumeral digits = true) :
    readInteger digits =
      if Oversize digits then .error ⟨digits⟩
      else .ok (Int64.ofInt (digitsValue digits.toList)) := by
  obtain ⟨nonempty, areDigits⟩ := isNumeral_iff.mp numeral
  have whole : (digits.toList.isEmpty || !digits.toList.all Char.isDigit) = false := by
    simpa [List.isEmpty_eq_false_iff, nonempty] using areDigits
  unfold readInteger integer?
  rw [splitSign_of_isDigit areDigits]
  simp only [whole, Bool.false_eq_true, if_false, int64?_natCast]
  unfold Oversize
  split
  · next unread => split at unread <;> simp_all
  · next missing => split at missing <;> simp_all

theorem readInteger_eq_error_iff {digits : String} (numeral : isNumeral digits = true)
    {number : Oversized} :
    readInteger digits = .error number ↔ Oversize digits ∧ number = ⟨digits⟩ := by
  rw [readInteger_of_numeral numeral]
  by_cases oversize : Oversize digits
  · simp [oversize, eq_comm]
  · simp [oversize]

theorem small_of_readInteger {digits : String} (numeral : isNumeral digits = true)
    {value : Int64} (read : readInteger digits = .ok value) : ¬ Oversize digits := by
  intro oversize
  rw [(readInteger_eq_error_iff numeral).mpr ⟨oversize, rfl⟩] at read
  cases read

def leadingDigits (text : String) : String :=
  String.ofList ((splitSign text.toList).2.takeWhile Char.isDigit)

theorem isNumeral_leadingDigits {text : String}
    (digits : ((splitSign text.toList).2.takeWhile Char.isDigit).isEmpty = false) :
    isNumeral (leadingDigits text) = true := by
  rw [isNumeral_iff, leadingDigits, String.toList_ofList]
  refine ⟨List.isEmpty_eq_false_iff.mp digits, fun character member => ?_⟩
  exact List.mem_takeWhile_imp member

theorem readIntegerStart_eq (text : String) :
    readIntegerStart text =
      if ((splitSign text.toList).2.takeWhile Char.isDigit).isEmpty then .ok 0
      else (readInteger (leadingDigits text)).map fun magnitude =>
        if (splitSign text.toList).1 then -magnitude else magnitude := by
  unfold readIntegerStart leadingDigits
  generalize splitSign text.toList = parts
  obtain ⟨negative, rest⟩ := parts
  dsimp only
  split
  · rfl
  · cases readInteger (String.ofList (rest.takeWhile Char.isDigit)) <;> rfl

theorem leadingDigits_eq_empty {text : String}
    (none : ((splitSign text.toList).2.takeWhile Char.isDigit).isEmpty = true) :
    leadingDigits text = "" := by
  rw [leadingDigits, List.isEmpty_iff.mp none]

theorem readIntegerStart_eq_error_iff {text : String} {number : Oversized} :
    readIntegerStart text = .error number ↔
      Oversize (leadingDigits text) ∧ number = ⟨leadingDigits text⟩ := by
  rw [readIntegerStart_eq]
  cases digits : ((splitSign text.toList).2.takeWhile Char.isDigit).isEmpty with
  | true =>
      rw [leadingDigits_eq_empty digits]
      have small : ¬ Oversize "" := by decide
      simp [small]
  | false =>
      rw [if_neg Bool.false_ne_true, ← readInteger_eq_error_iff (isNumeral_leadingDigits digits)]
      cases readInteger (leadingDigits text) <;> simp [Except.map]

theorem small_of_readIntegerStart {text : String} {value : Int64}
    (read : readIntegerStart text = .ok value) : ¬ Oversize (leadingDigits text) := by
  intro oversize
  rw [readIntegerStart_eq_error_iff.mpr ⟨oversize, rfl⟩] at read
  cases read

/-! ## How integers are written -/

theorem toList_toString_natCast (number : Nat) :
    (toString (number : Int)).toList = Nat.toDigits 10 number := by
  rw [show toString (number : Int) = String.ofList (Nat.toDigits 10 number) from rfl,
    String.toList_ofList]

theorem toList_toString_negSucc (number : Nat) :
    (toString (Int.negSucc number)).toList = '-' :: Nat.toDigits 10 (number + 1) := by
  have text : toString (Int.negSucc number) =
      "-" ++ String.ofList (Nat.toDigits 10 (number + 1)) := rfl
  rw [text, String.toList_append]
  exact congrArg (List.cons '-') String.toList_ofList

theorem digitsValue_toDigits (number : Nat) :
    digitsValue (Nat.toDigits 10 number) = number :=
  Nat.ofDigitChars_toDigits (by decide) (by decide)

theorem isDigit_of_mem_toDigits {number : Nat} {character : Char}
    (member : character ∈ Nat.toDigits 10 number) : character.isDigit = true :=
  Nat.isDigit_of_mem_toDigits (by decide) (by decide) member

end Juxtaposition.Text
