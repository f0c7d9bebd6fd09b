import Juxtaposition.Decimal.Binary64
import Juxtaposition.Proofs.Text.Numeral

/-!
# Words

What a text says when juxtaposition is not counted: its numbers and its runs of
other characters, in order. Cutting a text into pieces keeps its words.
-/

set_option autoImplicit false

namespace Juxtaposition

/-- A word of an answer: a number, a run of characters that are no digits, or a
number in decimal notation as it stands. -/
inductive Word where
  | number (value : Int)
  | letters (text : String)
  | decimal (value : Binary64) (literal : Option String)
deriving DecidableEq

namespace Text

def alike (left right : Char) : Bool :=
  left.isDigit == right.isDigit

def runWord (run : List Char) : Word :=
  if run.all Char.isDigit then .number (digitsValue run) else .letters (String.ofList run)

/-- The longest runs of digits and of other characters, from left to right. -/
def words (text : String) : List Word :=
  (text.toList.splitBy alike).map runWord

/-! ## Runs -/

/-- Where a text is cut into pieces its runs end too. -/
private theorem splitBy_alike_flatten {runs : List (List Char)} (nonempty : [] ∉ runs)
    (chain : runs.IsChain fun left right =>
      ∃ ha hb, joined (left.getLast ha) (right.head hb) = false) :
    runs.flatten.splitBy alike = runs.flatMap (List.splitBy alike) := by
  induction runs with
  | nil => rfl
  | cons first rest ih =>
      rw [List.mem_cons, not_or] at nonempty
      rw [List.flatten_cons, List.flatMap_cons, ← ih nonempty.2 chain.tail]
      refine List.splitBy_append fun left last right head => ?_
      cases rest with
      | nil => simp at head
      | cons second rest =>
          obtain ⟨⟨_, some, apart⟩, _⟩ := List.isChain_cons_cons.mp chain
          obtain ⟨letter, following, rfl⟩ := List.exists_cons_of_ne_nil some
          rw [List.flatten_cons, List.cons_append, List.head?_cons] at head
          cases head
          rw [List.head_cons, List.getLast_of_mem_getLast? last, joined, Bool.or_eq_false_iff,
            Bool.not_eq_false'] at apart
          rw [alike, apart.1, apart.2]
          rfl

theorem words_eq_flatMap_pieces (text : String) : words text = (pieces text).flatMap words := by
  have cut := splitBy_alike_flatten (List.nil_notMem_splitBy joined text.toList)
    (List.isChain_getLast_head_splitBy joined text.toList)
  rw [List.flatten_splitBy] at cut
  rw [words, cut, pieces, List.flatMap_map, List.map_flatMap]
  simp only [words, String.toList_ofList]

theorem words_of_run {run : List Char} (nonempty : run ≠ []) {isDigit : Bool}
    (uniform : ∀ character ∈ run, character.isDigit = isDigit) :
    words (String.ofList run) = [runWord run] := by
  have chain : run.IsChain fun left right => alike left right = true := by
    refine (List.pairwise_of_forall_mem_list fun left inLeft right inRight => ?_).isChain
    rw [alike, uniform left inLeft, uniform right inRight, BEq.rfl]
  rw [words, String.toList_ofList, List.splitBy_of_isChain nonempty chain, List.map_singleton]

theorem words_of_numeral {digits : String} (numeral : isNumeral digits = true) :
    words digits = [.number (digitsValue digits.toList)] := by
  obtain ⟨nonempty, areDigits⟩ := isNumeral_iff.mp numeral
  have single := words_of_run nonempty areDigits
  rwa [String.ofList_toList, runWord, if_pos (List.all_eq_true.mpr areDigits)] at single

theorem words_of_letters {letters : String} (nonempty : letters ≠ "")
    (areLetters : ∀ character ∈ letters.toList, character.isDigit = false) :
    words letters = [.letters letters] := by
  have some : letters.toList ≠ [] := fun none => nonempty (String.toList_inj.mp none)
  have mixed : letters.toList.all Char.isDigit ≠ true := by
    obtain ⟨first, rest, shape⟩ := List.exists_cons_of_ne_nil some
    have isLetter := areLetters first (by rw [shape]; exact List.mem_cons_self)
    simp [shape, isLetter]
  have single := words_of_run some areLetters
  rwa [String.ofList_toList, runWord, if_neg mixed, String.ofList_toList] at single

theorem words_letters_digits {letters digits : String} (nonempty : letters ≠ "")
    (areLetters : ∀ character ∈ letters.toList, character.isDigit = false)
    (numeral : isNumeral digits = true) :
    words (letters ++ digits) = [.letters letters, .number (digitsValue digits.toList)] := by
  have cut : words (letters ++ digits) = words letters ++ words digits := by
    rw [words, String.toList_append, List.splitBy_append, List.map_append, words, words]
    intro left last right head
    rw [alike, areLetters left (List.mem_of_mem_getLast? last),
      (isNumeral_iff.mp numeral).2 right (List.mem_of_mem_head? head)]
    rfl
  rw [cut, words_of_letters nonempty areLetters, words_of_numeral numeral, List.singleton_append]

/-! ## Numbers read from digits -/

theorem toInt_of_readInteger {digits : String} (numeral : isNumeral digits = true)
    {value : Int64} (read : readInteger digits = .ok value) :
    value.toInt = digitsValue digits.toList := by
  rw [readInteger_of_numeral numeral] at read
  split at read
  · cases read
  · next small =>
    cases read
    rw [Oversize] at small
    exact Int64.toInt_ofInt_of_le (by omega) (by omega)

def decimalStart (text : String) : Int :=
  if (splitSign text.toList).1 then -digitsValue (leadingDigits text).toList
  else digitsValue (leadingDigits text).toList

theorem natAbs_decimalStart (text : String) :
    (decimalStart text).natAbs = digitsValue (leadingDigits text).toList := by
  unfold decimalStart
  split <;> omega

/-- A number that is small enough keeps its value when it gets a sign. -/
theorem toInt_of_readIntegerStart {text : String} {value : Int64}
    (read : readIntegerStart text = .ok value) : value.toInt = decimalStart text := by
  rw [readIntegerStart_eq] at read
  cases digits : ((splitSign text.toList).2.takeWhile Char.isDigit).isEmpty with
  | true =>
      rw [digits, if_pos rfl] at read
      cases read
      rw [decimalStart, leadingDigits_eq_empty digits]
      split <;> rfl
  | false =>
      have numeral := isNumeral_leadingDigits digits
      rw [digits, if_neg Bool.false_ne_true] at read
      cases magnitude : readInteger (leadingDigits text) with
      | error number => rw [magnitude] at read; cases read
      | ok found =>
          rw [magnitude] at read
          cases read
          have exact := toInt_of_readInteger numeral magnitude
          have small := small_of_readInteger numeral magnitude
          rw [Oversize] at small
          unfold decimalStart
          split
          · rw [Int64.toInt_neg, exact, Int.bmod_eq_of_le (by omega) (by omega)]
          · exact exact

theorem toInt_abs_of_readIntegerStart {text : String} {value : Int64}
    (read : readIntegerStart text = .ok value) :
    value.abs.toInt = digitsValue (leadingDigits text).toList := by
  have exact := toInt_of_readIntegerStart read
  have small := small_of_readIntegerStart read
  rw [Oversize] at small
  have bounded : value.toBitVec ≠ BitVec.intMin 64 := by
    intro least
    have lowest : value.toInt = (BitVec.intMin 64).toInt := congrArg BitVec.toInt least
    rw [BitVec.toInt_intMin_of_pos (by decide)] at lowest
    have magnitude := natAbs_decimalStart text
    omega
  rw [← natAbs_decimalStart, ← exact]
  exact BitVec.toInt_abs_eq_natAbs_of_ne_intMin bounded

end Text

end Juxtaposition
