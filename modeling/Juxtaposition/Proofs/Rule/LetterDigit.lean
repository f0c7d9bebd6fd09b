import Juxtaposition.Proofs.Rule.Split

/-!
# A letter with a digit

The rule on a letter with a digit is a short cut: where it applies, the rule on
names that end in a number makes the same of the name.
-/

set_option autoImplicit false

namespace Juxtaposition

namespace Text

theorem isDigit_eq_false_of_isAlpha {character : Char} (letter : character.isAlpha = true) :
    character.isDigit = false := by
  have above : 'A'.val ≤ character.val := by
    have either : character.isUpper = true ∨ character.isLower = true :=
      (Bool.or_eq_true _ _).mp letter
    rcases either with upper | lower
    · exact (of_decide_eq_true upper).1
    · have bounds := (Bool.and_eq_true _ _).mp lower
      exact UInt32.le_trans (by decide) (of_decide_eq_true bounds.1)
  cases digit : character.isDigit with
  | false => rfl
  | true =>
      simp only [Char.isDigit, Bool.and_eq_true, decide_eq_true_eq] at digit
      exact absurd (UInt32.le_trans above digit.2) (by decide)

theorem letterDigit?_eq_some {text : String} {letter digit : Char}
    (found : letterDigit? text.toList = some (letter, digit)) :
    text = String.ofList [letter] ++ String.ofList [digit] ∧ letter.isDigit = false ∧
      digit.isDigit = true := by
  unfold letterDigit? at found
  split at found
  · next first second shape =>
    split at found
    · next both =>
      cases found
      rw [Bool.and_eq_true] at both
      refine ⟨?_, isDigit_eq_false_of_isAlpha both.1, both.2⟩
      rw [← String.ofList_append, List.singleton_append, ← shape, String.ofList_toList]
    · cases found
  · cases found

theorem isNumeral_digit {digit : Char} (isDigit : digit.isDigit = true) :
    isNumeral (String.ofList [digit]) = true := by
  rw [isNumeral_iff, String.toList_ofList]
  simpa using isDigit

theorem ofList_singleton_ne (letter : Char) : String.ofList [letter] ≠ "" := by
  intro empty
  have nothing := congrArg String.toList empty
  simp at nothing

theorem readInteger_digit {digit : Char} (isDigit : digit.isDigit = true) :
    readInteger (String.ofList [digit]) = .ok (Int64.ofNat (digitsValue [digit])) := by
  have small : ¬ Oversize (String.ofList [digit]) := by
    have atMost : digit.toNat ≤ 57 := by
      simp only [Char.isDigit, Bool.and_eq_true, decide_eq_true_eq] at isDigit
      exact UInt32.le_iff_toNat_le.mp isDigit.2
    unfold Oversize digitsValue
    rw [String.toList_ofList, Nat.ofDigitChars_cons, Nat.ofDigitChars_nil]
    omega
  rw [readInteger_of_numeral (isNumeral_digit isDigit), if_neg small, String.toList_ofList,
    Int64.ofInt_eq_ofNat]

end Text

namespace Options

variable {options : Options} {name : String} {letter digit : Char}

theorem length_pieces_of_letterDigit
    (found : Text.letterDigit? name.toList = some (letter, digit)) :
    (Text.pieces name).length < 2 := by
  obtain ⟨rfl, isLetter, isDigit⟩ := Text.letterDigit?_eq_some found
  exact length_pieces_letters_digits (Text.ofList_singleton_ne letter) (by simpa using isLetter)
    (Text.isNumeral_digit isDigit)

theorem splitEnd_of_letterDigit (lenient : options.strictSyntax = false)
    (found : Text.letterDigit? name.toList = some (letter, digit)) :
    options.splitEnd name =
      .trailing (String.ofList [letter]) (Int64.ofNat (Text.digitsValue [digit])) := by
  obtain ⟨rfl, isLetter, isDigit⟩ := Text.letterDigit?_eq_some found
  rw [splitEnd_letters_digits lenient (Text.ofList_singleton_ne letter) (by simpa using isLetter)
    (Text.isNumeral_digit isDigit), Text.readInteger_digit isDigit]

end Options

end Juxtaposition
