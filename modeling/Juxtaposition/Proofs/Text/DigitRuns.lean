import Juxtaposition.Proofs.Text.Pieces

/-!
# Digit runs

What the pieces of a text are, without a word about how they are found. There is one way to take a
text apart so that every run of digits ends its part, and that is the cut into pieces.
-/

set_option autoImplicit false

namespace Juxtaposition.Text

/-- A text taken apart after every run of digits. No letter comes after a digit within a part, and
between two parts a letter follows a digit. -/
structure DigitRuns (text : String) (parts : List String) : Prop where
  nonempty : "" ∉ parts
  join : String.join parts = text
  within : ∀ part ∈ parts, part.toList.Pairwise fun earlier later =>
    earlier.isDigit = true → later.isDigit = true
  between : parts.IsChain fun left right =>
    ∃ digit ∈ left.toList.getLast?, ∃ letter ∈ right.toList.head?,
      digit.isDigit = true ∧ letter.isDigit = false

def cuts (characters : List Char) : Nat :=
  (characters.zip characters.tail).countP fun (left, right) => left.isDigit && !right.isDigit

/-- The parts found on one walk over a text that remembers of what it has passed only whether it
is among digits. The part that has begun goes on until a letter ends its digits. -/
def walk (inDigits : Bool) (begun : List Char) : List Char → List (List Char)
  | [] => [begun]
  | character :: rest =>
      if inDigits && !character.isDigit then begun :: walk false [character] rest
      else walk (inDigits || character.isDigit) (begun ++ [character]) rest

variable {text : String} {parts : List String}

/-! ## The only way to take a text apart -/

theorem pairwise_iff_isChain_joined {run : List Char} :
    (run.Pairwise fun earlier later => earlier.isDigit = true → later.isDigit = true) ↔
      run.IsChain fun left right => joined left right = true := by
  have follows (left right : Char) :
      joined left right = true ↔ (left.isDigit = true → right.isDigit = true) := by
    unfold joined
    cases left.isDigit <;> simp
  simp only [follows]
  let _ : Trans (fun left right : Char => left.isDigit = true → right.isDigit = true)
      (fun left right : Char => left.isDigit = true → right.isDigit = true)
      (fun left right : Char => left.isDigit = true → right.isDigit = true) :=
    ⟨fun first second digit => second (first digit)⟩
  exact List.isChain_iff_pairwise.symm

theorem apart_iff {left right : List Char} :
    (∃ digit ∈ left.getLast?, ∃ letter ∈ right.head?,
        digit.isDigit = true ∧ letter.isDigit = false) ↔
      ∃ someLeft someRight, joined (left.getLast someLeft) (right.head someRight) = false := by
  constructor
  · rintro ⟨digit, last, letter, head, isDigit, isLetter⟩
    refine ⟨List.ne_nil_of_mem (List.mem_of_mem_getLast? last),
      List.ne_nil_of_mem (List.mem_of_mem_head? head), ?_⟩
    rw [List.getLast_of_mem_getLast? last, List.head_of_mem_head? head, joined, isDigit, isLetter]
    rfl
  · rintro ⟨someLeft, someRight, apart⟩
    rw [joined, Bool.or_eq_false_iff, Bool.not_eq_false'] at apart
    exact ⟨_, List.getLast_mem_getLast? someLeft, _, List.head_mem_head? someRight, apart⟩

theorem eq_pieces_iff :
    parts = pieces text ↔ text.toList.splitBy joined = parts.map String.toList := by
  unfold pieces
  constructor
  · rintro rfl
    simp [Function.comp_def]
  · intro runs
    simp [runs, Function.comp_def]

theorem digitRuns_iff : DigitRuns text parts ↔ parts = pieces text := by
  have joined_iff : String.join parts = text ↔ text.toList = (parts.map String.toList).flatten := by
    rw [← String.toList_inj, String.toList_join, List.flatMap_def, eq_comm]
  have nonempty_iff : "" ∉ parts ↔ [] ∉ parts.map String.toList := by
    simp only [List.mem_map, String.toList_eq_nil_iff, exists_eq_right]
  rw [eq_pieces_iff, List.splitBy_eq_iff, List.forall_mem_map, List.isChain_map, ← nonempty_iff,
    ← joined_iff]
  simp only [← pairwise_iff_isChain_joined, ← apart_iff]
  exact ⟨fun runs => ⟨runs.join, runs.nonempty, runs.within, runs.between⟩,
    fun ⟨join, nonempty, within, between⟩ => ⟨nonempty, join, within, between⟩⟩

/-! ## The number of parts -/

theorem cuts_cons_cons (first second : Char) (rest : List Char) :
    cuts (first :: second :: rest) =
      cuts (second :: rest) + if first.isDigit && !second.isDigit then 1 else 0 := by
  simp only [cuts, List.tail_cons, List.zip_cons_cons, List.countP_cons]

theorem cuts_eq_zero {run : List Char} (within : run.Pairwise fun earlier later =>
    earlier.isDigit = true → later.isDigit = true) : cuts run = 0 := by
  induction run with
  | nil => rfl
  | cons first rest ih =>
      obtain ⟨here, later⟩ := List.pairwise_cons.mp within
      cases rest with
      | nil => rfl
      | cons second rest =>
          have together := here second List.mem_cons_self
          rw [cuts_cons_cons, ih later]
          cases isDigit : first.isDigit with
          | false => rfl
          | true => rw [together isDigit]; rfl

theorem cuts_append {left right : List Char} {digit letter : Char} (last : digit ∈ left.getLast?)
    (head : letter ∈ right.head?) (isDigit : digit.isDigit = true)
    (isLetter : letter.isDigit = false) : cuts (left ++ right) = cuts left + 1 + cuts right := by
  obtain ⟨following, rfl⟩ := List.head?_eq_some_iff.mp head
  induction left with
  | nil => cases last
  | cons first rest ih =>
      cases rest with
      | nil =>
          obtain rfl : first = digit := Option.some.inj last
          rw [List.singleton_append, cuts_cons_cons, isDigit, isLetter]
          exact Nat.add_comm _ _
      | cons second rest =>
          rw [List.getLast?_cons_cons] at last
          rw [List.cons_append, List.cons_append, cuts_cons_cons, cuts_cons_cons,
            ← List.cons_append, ih last]
          omega

namespace DigitRuns

variable {first : String} {rest : List String}

theorem tail (runs : DigitRuns text (first :: rest)) : DigitRuns (String.join rest) rest where
  nonempty member := runs.nonempty (List.mem_cons_of_mem _ member)
  join := rfl
  within part member := runs.within part (List.mem_cons_of_mem _ member)
  between := runs.between.tail

/-- There is one part for the start of the text and one for each place where it is cut. -/
theorem length_eq (runs : DigitRuns text (first :: rest)) :
    (first :: rest).length = 1 + cuts text.toList := by
  induction rest generalizing text first with
  | nil =>
      obtain rfl := runs.join
      have uncut := cuts_eq_zero (runs.within first List.mem_cons_self)
      simp [uncut]
  | cons second rest ih =>
      have later := ih runs.tail
      obtain ⟨⟨digit, last, letter, head, isDigit, isLetter⟩, _⟩ :=
        List.isChain_cons_cons.mp runs.between
      have start : letter ∈ (String.join (second :: rest)).toList.head? := by
        obtain ⟨following, shape⟩ := List.head?_eq_some_iff.mp head
        simp [shape]
      have uncut := cuts_eq_zero (runs.within first List.mem_cons_self)
      have cut := cuts_append last start isDigit isLetter
      rw [← runs.join, String.join_cons, String.toList_append, cut, uncut, List.length_cons, later]
      omega

end DigitRuns

theorem length_pieces (some : text ≠ "") : (pieces text).length = 1 + cuts text.toList := by
  have runs : DigitRuns text (pieces text) := digitRuns_iff.mpr rfl
  cases shape : pieces text with
  | nil => exact absurd (pieces_eq_nil_iff.mp shape) some
  | cons first rest =>
      rw [shape] at runs
      exact runs.length_eq

/-! ## One walk -/

/-- On the walk the flag is the class of the last character, so it is known where a part ends. -/
theorem walk_eq_splitBy (front : List Char) (last : Char) (rest : List Char)
    (within : (front ++ [last]).IsChain fun left right => joined left right = true) :
    walk last.isDigit (front ++ [last]) rest = (front ++ last :: rest).splitBy joined := by
  induction rest generalizing front last with
  | nil =>
      rw [List.splitBy_of_isChain (by simp) within]
      rfl
  | cons character rest ih =>
      have split : front ++ last :: character :: rest = front ++ [last] ++ character :: rest := by
        simp
      unfold walk
      cases isDigit : last.isDigit <;> cases follows : character.isDigit
      case true.false =>
        have started := ih [] character (List.isChain_singleton _)
        rw [List.nil_append, List.nil_append, follows] at started
        have apart : ∀ left ∈ (front ++ [last]).getLast?, joined left character = false := by
          simp [joined, isDigit, follows]
        rw [split, List.splitBy_append_cons rest apart, List.splitBy_of_isChain (by simp) within,
          ← started]
        rfl
      all_goals
        have onward : (front ++ [last] ++ [character]).IsChain
            fun left right => joined left right = true := by
          rw [List.isChain_append]
          refine ⟨within, List.isChain_singleton _, ?_⟩
          simp [joined, isDigit, follows]
        have later := ih (front ++ [last]) character onward
        rw [follows] at later
        rw [split]
        exact later

theorem pieces_eq_walk {first : Char} {rest : List Char} (shape : text.toList = first :: rest) :
    pieces text = (walk first.isDigit [first] rest).map String.ofList := by
  have walked := walk_eq_splitBy [] first rest (List.isChain_singleton first)
  rw [pieces, shape]
  exact congrArg _ walked.symm

end Juxtaposition.Text
