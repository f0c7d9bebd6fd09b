import Juxtaposition.Text.Pieces
import Mathlib.Data.List.DropRight
import Mathlib.Data.List.SplitBy
import Mathlib.Data.List.TakeDrop
import Mathlib.Data.List.TakeWhile

/-!
# The cut of a name

Where a name is cut, and what cannot be cut again. All but the first piece begin
with a letter, so only the first can be a numeral.
-/

set_option autoImplicit false

namespace Juxtaposition.Text

/-! ## Bytes -/

theorem length_le_utf8ByteSize (text : String) : text.toList.length ≤ text.utf8ByteSize := by
  rw [← String.ofList_toList (s := text)]
  generalize text.toList = characters
  induction characters with
  | nil => simp
  | cons first rest ih =>
      have split : String.ofList (first :: rest) = String.ofList [first] ++ String.ofList rest := by
        rw [← String.ofList_append]
        rfl
      have positive : 0 < (String.ofList [first]).utf8ByteSize := by
        refine Nat.pos_of_ne_zero fun zero => ?_
        have empty := congrArg String.toList (String.utf8ByteSize_eq_zero_iff.mp zero)
        simp at empty
      rw [String.toList_ofList] at ih ⊢
      rw [split, String.utf8ByteSize_append, List.length_cons]
      omega

/-! ## Pieces -/

variable {text piece : String}

/-- A piece is not cut again. -/
theorem pieces_of_mem (member : piece ∈ pieces text) : pieces piece = [piece] := by
  obtain ⟨run, inside, rfl⟩ := List.mem_map.mp member
  unfold pieces
  rw [String.toList_ofList, List.splitBy_of_isChain (List.ne_nil_of_mem_splitBy inside)
    (List.isChain_of_mem_splitBy inside)]
  rfl

private theorem length_le_flatten {runs : List (List Char)} (nonempty : [] ∉ runs) :
    runs.length ≤ runs.flatten.length := by
  induction runs with
  | nil => exact Nat.le_refl _
  | cons first rest ih =>
      rw [List.mem_cons, not_or] at nonempty
      have positive : 0 < first.length := List.length_pos_iff.mpr (Ne.symm nonempty.1)
      have tail := ih nonempty.2
      rw [List.length_cons, List.flatten_cons, List.length_append]
      omega

theorem length_pieces_le (text : String) : (pieces text).length ≤ text.utf8ByteSize := by
  have runs := length_le_flatten (List.nil_notMem_splitBy joined text.toList)
  rw [List.flatten_splitBy] at runs
  unfold pieces
  rw [List.length_map]
  exact runs.trans (length_le_utf8ByteSize text)

private theorem isChain_forall_tail {runs : List (List Char)} {first : List Char}
    (chain : (first :: runs).IsChain fun left right =>
      ∃ ha hb, joined (left.getLast ha) (right.head hb) = false) :
    ∀ run ∈ runs, ∃ letter following, run = letter :: following ∧ letter.isDigit = false := by
  induction runs generalizing first with
  | nil => simp
  | cons second rest ih =>
      obtain ⟨⟨_, nonempty, apart⟩, later⟩ := List.isChain_cons_cons.mp chain
      intro run member
      rcases List.mem_cons.mp member with rfl | deeper
      · cases run with
        | nil => exact absurd rfl nonempty
        | cons letter following =>
            refine ⟨letter, following, rfl, ?_⟩
            simp only [joined, List.head_cons, Bool.or_eq_false_iff] at apart
            exact apart.2
      · exact ih later run deeper

theorem exists_letter_of_mem_tail (member : piece ∈ (pieces text).tail) :
    ∃ letter following, piece.toList = letter :: following ∧ letter.isDigit = false := by
  have chain := List.isChain_getLast_head_splitBy joined text.toList
  unfold pieces at member
  rw [← List.map_tail] at member
  obtain ⟨run, inside, rfl⟩ := List.mem_map.mp member
  rw [String.toList_ofList]
  cases runs : text.toList.splitBy joined with
  | nil => simp [runs] at inside
  | cons first rest =>
      rw [runs] at chain inside
      exact isChain_forall_tail chain run inside

theorem isNumeral_eq_false_of_mem_tail (member : piece ∈ (pieces text).tail) :
    isNumeral piece = false := by
  obtain ⟨letter, following, shape, isLetter⟩ := exists_letter_of_mem_tail member
  simp [isNumeral, shape, isLetter]

/-! ## Letters before digits -/

theorem isNumeral_iff : isNumeral text = true ↔
    text.toList ≠ [] ∧ ∀ character ∈ text.toList, character.isDigit = true := by
  simp [isNumeral]

theorem splitAtDigit_eq (text : String) :
    splitAtDigit text =
      (String.ofList (text.toList.takeWhile fun character => !character.isDigit),
        String.ofList (text.toList.dropWhile fun character => !character.isDigit)) := by
  unfold splitAtDigit
  rw [List.span_eq_takeWhile_dropWhile]

theorem splitAtDigit_append (text : String) :
    (splitAtDigit text).1 ++ (splitAtDigit text).2 = text := by
  rw [splitAtDigit_eq, ← String.ofList_append, List.takeWhile_append_dropWhile,
    String.ofList_toList]

theorem isDigit_of_mem_letters {character : Char}
    (member : character ∈ (splitAtDigit text).1.toList) : character.isDigit = false := by
  rw [splitAtDigit_eq, String.toList_ofList] at member
  simpa using List.mem_takeWhile_imp member

theorem splitAtDigit_of_letters
    (letters : ∀ character ∈ text.toList, character.isDigit = false) :
    splitAtDigit text = (text, "") := by
  have all : ∀ character ∈ text.toList, (!character.isDigit) = true := fun character member => by
    simp [letters character member]
  rw [splitAtDigit_eq, List.takeWhile_eq_self_iff.mpr all, List.dropWhile_eq_nil_iff.mpr all,
    String.ofList_toList]

theorem splitAtDigit_of_numeral {letters digits : String}
    (beforeDigits : ∀ character ∈ letters.toList, character.isDigit = false)
    (numeral : isNumeral digits = true) :
    splitAtDigit (letters ++ digits) = (letters, digits) := by
  have all : ∀ character ∈ letters.toList, (!character.isDigit) = true :=
    fun character member => by simp [beforeDigits character member]
  obtain ⟨nonempty, areDigits⟩ := isNumeral_iff.mp numeral
  rw [splitAtDigit_eq, String.toList_append, List.takeWhile_append_of_pos all,
    List.dropWhile_append_of_pos all]
  cases shape : digits.toList with
  | nil => exact absurd shape nonempty
  | cons first rest =>
      have isDigit := areDigits first (by simp [shape])
      rw [List.takeWhile_cons_of_neg (by simp [isDigit]),
        List.dropWhile_cons_of_neg (by simp [isDigit]), ← shape, List.append_nil,
        String.ofList_toList, String.ofList_toList]

theorem pieces_of_letters_digits (letters digits : List Char) (nonempty : letters ++ digits ≠ [])
    (areLetters : ∀ character ∈ letters, character.isDigit = false)
    (areDigits : ∀ character ∈ digits, character.isDigit = true) :
    pieces (String.ofList (letters ++ digits)) = [String.ofList (letters ++ digits)] := by
  have pairs : (letters ++ digits).Pairwise fun left right => joined left right = true := by
    refine List.pairwise_append.mpr ⟨?_, ?_, ?_⟩
    · refine List.pairwise_of_forall_mem_list fun left inLetters _ _ => ?_
      simp [joined, areLetters left inLetters]
    · refine List.pairwise_of_forall_mem_list fun _ _ right inDigits => ?_
      simp [joined, areDigits right inDigits]
    · intro left inLetters right _
      simp [joined, areLetters left inLetters]
  unfold pieces
  rw [String.toList_ofList, List.splitBy_of_isChain nonempty pairs.isChain]
  rfl

/-! ## Digits at the end -/

def startsInDigit (text : String) : Bool :=
  text.toList.head?.any Char.isDigit

def trailingDigits (text : String) : String :=
  String.ofList (text.toList.rtakeWhile Char.isDigit)

theorem pieces_eq_nil_iff : pieces text = [] ↔ text = "" := by
  rw [pieces, List.map_eq_nil_iff, List.splitBy_eq_nil, String.toList_eq_nil_iff]

/-- A single piece is the whole text. -/
theorem eq_of_pieces_eq_singleton (single : pieces text = [piece]) : piece = text := by
  obtain ⟨run, runs, rfl⟩ := List.map_eq_singleton_iff.mp single
  have whole := List.flatten_splitBy joined text.toList
  rw [runs, List.flatten_singleton] at whole
  rw [whole, String.ofList_toList]

private theorem isDigit_of_isChain {first : Char} {rest : List Char}
    (chain : (first :: rest).IsChain fun left right => joined left right = true)
    (isDigit : first.isDigit = true) : ∀ character ∈ first :: rest, character.isDigit = true := by
  induction rest generalizing first with
  | nil => simpa using isDigit
  | cons second rest ih =>
      obtain ⟨together, later⟩ := List.isChain_cons_cons.mp chain
      rw [joined, isDigit, Bool.not_true, Bool.false_or] at together
      intro character member
      rcases List.mem_cons.mp member with rfl | deeper
      · exact isDigit
      · exact ih later together character deeper

theorem trailingDigits_append {letters digits : List Char}
    (areLetters : ∀ character ∈ letters, character.isDigit = false)
    (areDigits : ∀ character ∈ digits, character.isDigit = true) :
    trailingDigits (String.ofList (letters ++ digits)) = String.ofList digits := by
  have stops : letters.reverse.takeWhile Char.isDigit = [] := by
    cases shape : letters.reverse with
    | nil => rfl
    | cons last rest =>
        have member : last ∈ letters := List.mem_reverse.mp (by rw [shape]; exact List.mem_cons_self)
        rw [List.takeWhile_cons_of_neg (by simp [areLetters last member])]
  rw [trailingDigits, String.toList_ofList, List.rtakeWhile, List.reverse_append,
    List.takeWhile_append_of_pos (by simpa using areDigits), stops, List.append_nil,
    List.reverse_reverse]

/-- In a piece, what follows the letters are the digits at its end. -/
theorem splitAtDigit_of_mem_pieces (member : piece ∈ pieces text) :
    (splitAtDigit piece).2 = trailingDigits piece ∧
      ((splitAtDigit piece).1 = "" ↔ startsInDigit piece = true) := by
  obtain ⟨run, inside, rfl⟩ := List.mem_map.mp member
  have chain := List.isChain_of_mem_splitBy inside
  have nonempty := List.ne_nil_of_mem_splitBy inside
  have cut := List.takeWhile_append_dropWhile (p := fun character => !character.isDigit) (l := run)
  rw [splitAtDigit_eq, String.toList_ofList]
  constructor
  · have areDigits : ∀ character ∈ run.dropWhile fun character => !character.isDigit,
        character.isDigit = true := by
      cases shape : run.dropWhile fun character => !character.isDigit with
      | nil => simp
      | cons first rest =>
          have isDigit := List.head?_dropWhile_not (fun character => !character.isDigit) run
          rw [shape, List.head?_cons] at isDigit
          refine isDigit_of_isChain ?_ (by simpa using isDigit)
          rw [← shape]
          exact chain.suffix (List.dropWhile_suffix _)
    have areLetters : ∀ character ∈ run.takeWhile fun character => !character.isDigit,
        character.isDigit = false := by
      intro character inLetters
      simpa using List.mem_takeWhile_imp inLetters
    have ends := trailingDigits_append areLetters areDigits
    rwa [cut, eq_comm] at ends
  · obtain ⟨first, rest, rfl⟩ := List.exists_cons_of_ne_nil nonempty
    cases isDigit : first.isDigit <;>
      simp [startsInDigit, isDigit, ← String.toList_eq_nil_iff]

end Juxtaposition.Text
