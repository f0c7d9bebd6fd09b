import Juxtaposition.Decimal.Notation
import Juxtaposition.Proofs.Text.Numeral

/-!
# Characters of printed numbers

A printed number consists of digits and of the few other characters of its notation.
-/

set_option autoImplicit false

namespace Juxtaposition.Decimal

def isNumeric (character : Char) : Bool :=
  character.isDigit || "-.einfaN".toList.contains character

def IsNumeric (text : String) : Prop :=
  text.toList.all isNumeric = true

instance (text : String) : Decidable (IsNumeric text) :=
  inferInstanceAs (Decidable (_ = true))

theorem isNumeric_of_isDigit {character : Char} (isDigit : character.isDigit = true) :
    isNumeric character = true := by
  rw [isNumeric, isDigit, Bool.true_or]

namespace IsNumeric

variable {text text' : String} {characters : List Char} {number : Nat}

theorem append (first : IsNumeric text) (second : IsNumeric text') :
    IsNumeric (text ++ text') := by
  rw [IsNumeric, String.toList_append, List.all_append, first, second]
  rfl

theorem ofDigits (digits : ∀ character ∈ characters, character.isDigit = true) :
    IsNumeric (String.ofList characters) := by
  rw [IsNumeric, String.toList_ofList, List.all_eq_true]
  intro character member
  exact isNumeric_of_isDigit (digits character member)

theorem ofInt (value : Int) : IsNumeric (toString value) := by
  have digits (number : Nat) : (Nat.toDigits 10 number).all isNumeric = true := by
    rw [List.all_eq_true]
    intro character member
    exact isNumeric_of_isDigit (Text.isDigit_of_mem_toDigits member)
  unfold IsNumeric
  cases value with
  | ofNat number => exact (Text.toList_toString_natCast number).symm ▸ digits number
  | negSucc number =>
      rw [Text.toList_toString_negSucc, List.all_cons, digits]
      rfl

theorem not_mem (numeric : IsNumeric text) {character : Char}
    (other : isNumeric character = false) : character ∉ text.toList := by
  intro member
  rw [List.all_eq_true.mp numeric character member] at other
  cases other

end IsNumeric

variable {digits : List Char} {exponent : Int}

theorem isNumeric_positional (areDigits : ∀ character ∈ digits, character.isDigit = true) :
    IsNumeric (positional digits exponent) := by
  have zero (count : Nat) : ∀ character ∈ List.replicate count '0', character.isDigit = true := by
    intro character member
    rw [(List.mem_replicate.mp member).2]
    decide
  have padded {left right : List Char} (first : ∀ character ∈ left, character.isDigit = true)
      (second : ∀ character ∈ right, character.isDigit = true) :
      ∀ character ∈ left ++ right, character.isDigit = true := by
    intro character member
    rcases List.mem_append.mp member with inLeft | inRight
    · exact first character inLeft
    · exact second character inRight
  have point : IsNumeric "." := by decide
  have before : IsNumeric "0." := by decide
  have after : IsNumeric ".0" := by decide
  unfold positional
  dsimp only
  split
  · exact before.append (.ofDigits (padded (zero _) areDigits))
  · split
    · exact (IsNumeric.ofDigits (padded areDigits (zero _))).append after
    · refine .append (.append (.ofDigits ?_) point) (.ofDigits ?_)
      · exact fun character member => areDigits character (List.mem_of_mem_take member)
      · exact fun character member => areDigits character (List.mem_of_mem_drop member)

theorem isNumeric_scientific (areDigits : ∀ character ∈ digits, character.isDigit = true) :
    IsNumeric (scientific digits exponent) := by
  have kept : ∀ character ∈ digits.drop 1, character.isDigit = true :=
    fun character member => areDigits character (List.mem_of_mem_drop member)
  have point : IsNumeric "." := by decide
  have mark : IsNumeric "e" := by decide
  unfold scientific
  refine .append (.append (.append (.ofDigits ?_) ?_) mark) (.ofInt _)
  · exact fun character member => areDigits character (List.mem_of_mem_take member)
  · split
    · decide
    · exact point.append (.ofDigits kept)

theorem isNumeric_text (decimal : Decimal) : IsNumeric decimal.text := by
  have kept : ∀ character ∈
      ((Nat.toDigits 10 decimal.digits).reverse.dropWhile (· == '0')).reverse,
      character.isDigit = true := by
    intro character member
    have inDigits := (List.dropWhile_sublist _).mem (List.mem_reverse.mp member)
    exact Text.isDigit_of_mem_toDigits (List.mem_reverse.mp inDigits)
  unfold text
  dsimp only
  split
  · exact isNumeric_positional kept
  · exact isNumeric_scientific kept

end Juxtaposition.Decimal

namespace Juxtaposition

open Decimal in
theorem Binary64.isNumeric_text (number : Binary64) : IsNumeric number.text := by
  unfold Binary64.text
  split
  · decide
  · split <;> decide
  · refine .append ?_ ?_
    · split <;> decide
    · split
      · decide
      · exact Decimal.isNumeric_text _

end Juxtaposition
