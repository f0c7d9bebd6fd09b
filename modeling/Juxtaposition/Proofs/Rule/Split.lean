import Juxtaposition.Proofs.Text.Numeral
import Juxtaposition.Rule.CallShape
import Juxtaposition.Rule.NameSplit

/-!
# How a name comes apart

The three rules on names read together. Where a name stands matters only through
the names that are exempt there.
-/

set_option autoImplicit false

namespace Juxtaposition

/-- What the rules make of a name: it is kept, it has a number too large to split
off, it is cut into pieces, or a number is split off its end. -/
inductive Split where
  | whole
  | oversized (number : Oversized)
  | pieces (first second : NamePiece) (rest : List NamePiece)
  | trailing (letters : String) (value : Int64)

def Split.isKept : Split → Bool
  | whole | oversized _ => true
  | pieces _ _ _ | trailing _ _ => false

theorem Split.isKept_iff {split : Split} :
    split.isKept = true ↔ split = .whole ∨ ∃ number, split = .oversized number := by
  cases split <;> simp [isKept]

/-! ## Pieces as factors -/

theorem NamePiece.ofText_eq_name {text letters : String}
    (read : ofText text = .ok (name letters)) : letters = text := by
  unfold ofText at read
  split at read
  · cases value : Text.readInteger text <;> rw [value] at read <;> cases read
  · cases read
    rfl

theorem NamePiece.ofText_eq_number {text : String} {value : Int64}
    (read : ofText text = .ok (number value)) :
    Text.isNumeral text = true ∧ Text.readInteger text = .ok value := by
  unfold ofText at read
  split at read
  · next numeral =>
    cases found : Text.readInteger text with
    | error number => rw [found] at read; cases read
    | ok other =>
        rw [found] at read
        cases read
        exact ⟨numeral, rfl⟩
  · cases read

theorem NamePiece.ofText_eq_error {text : String} {number : Oversized}
    (read : ofText text = .error number) :
    Text.isNumeral text = true ∧ Text.Oversize text ∧ number = ⟨text⟩ := by
  unfold ofText at read
  split at read
  · next numeral =>
    cases value : Text.readInteger text with
    | ok _ => rw [value] at read; cases read
    | error found =>
        rw [value] at read
        cases read
        exact ⟨numeral, (Text.readInteger_eq_error_iff numeral).mp value⟩
  · cases read

theorem NamePiece.mapM_cons_eq_ok {text : String} {texts : List String}
    {factors : List NamePiece} (read : (text :: texts).mapM ofText = .ok factors) :
    ∃ first rest, ofText text = .ok first ∧ texts.mapM ofText = .ok rest ∧
      factors = first :: rest := by
  rw [List.mapM_cons] at read
  cases head : ofText text with
  | error _ => rw [head] at read; cases read
  | ok first =>
      cases tail : texts.mapM ofText with
      | error _ => rw [head, tail] at read; cases read
      | ok rest =>
          rw [head, tail] at read
          cases read
          exact ⟨first, rest, rfl, rfl, rfl⟩

theorem NamePiece.exists_of_mem_mapM {texts : List String} {factors : List NamePiece}
    {factor : NamePiece} (read : texts.mapM ofText = .ok factors) (member : factor ∈ factors) :
    ∃ text ∈ texts, ofText text = .ok factor := by
  induction texts generalizing factors with
  | nil =>
      cases read
      cases member
  | cons text texts ih =>
      obtain ⟨first, rest, head, tail, rfl⟩ := mapM_cons_eq_ok read
      rcases List.mem_cons.mp member with rfl | later
      · exact ⟨text, List.mem_cons_self, head⟩
      · obtain ⟨source, inside, found⟩ := ih tail later
        exact ⟨source, List.mem_cons_of_mem _ inside, found⟩

theorem NamePiece.length_of_mapM {texts : List String} {factors : List NamePiece}
    (read : texts.mapM ofText = .ok factors) : factors.length = texts.length := by
  induction texts generalizing factors with
  | nil =>
      cases read
      rfl
  | cons text texts ih =>
      obtain ⟨first, rest, _, tail, rfl⟩ := mapM_cons_eq_ok read
      rw [List.length_cons, List.length_cons, ih tail]

theorem NamePiece.mapM_ofText_eq_ok {texts : List String} {factors : List NamePiece}
    (read : texts.mapM ofText = .ok factors) :
    factors.length = texts.length ∧ ∀ text, name text ∈ factors → text ∈ texts := by
  refine ⟨length_of_mapM read, fun text member => ?_⟩
  obtain ⟨source, inside, same⟩ := exists_of_mem_mapM read member
  rwa [ofText_eq_name same]

theorem NamePiece.mapM_ofText_eq_error {texts : List String} {number : Oversized}
    (read : texts.mapM ofText = .error number) :
    ∃ text ∈ texts, Text.isNumeral text = true ∧ Text.Oversize text ∧ number = ⟨text⟩ := by
  induction texts with
  | nil => cases read
  | cons first rest ih =>
      rw [List.mapM_cons] at read
      cases head : ofText first with
      | error found =>
          rw [head] at read
          cases read
          exact ⟨first, List.mem_cons_self, ofText_eq_error head⟩
      | ok _ =>
          cases tail : rest.mapM ofText with
          | ok _ => rw [head, tail] at read; cases read
          | error found =>
              rw [head, tail] at read
              cases read
              obtain ⟨text, member, facts⟩ := ih tail
              exact ⟨text, List.mem_cons_of_mem _ member, facts⟩

/-- A name is taken apart when it has several pieces and all their numbers can be read. -/
theorem Rule.splitDigitRuns_eq_some {options : Options} {tree : Tree} {id : NodeId} {name : String}
    {proposal : Proposal} (found : splitDigitRuns options tree id name = .ok (some proposal)) :
    2 ≤ (Text.pieces name).length ∧ ∃ first rest,
      (Text.pieces name).mapM NamePiece.ofText = .ok (first :: rest) ∧
      proposal = .forName tree id (fun arguments => NamePiece.chain arguments first rest)
        ("split into " ++ toString (Text.pieces name).length ++ " factors") := by
  unfold splitDigitRuns at found
  split at found
  · cases found
  · cases found
  · next notNone notOne =>
    cases read : (Text.pieces name).mapM NamePiece.ofText with
    | error number => rw [read] at found; cases found
    | ok factors =>
        rw [read] at found
        cases factors with
        | nil => cases found
        | cons first rest =>
            cases found
            refine ⟨?_, first, rest, rfl, rfl⟩
            rcases shape : Text.pieces name with _ | ⟨piece, _ | ⟨second, others⟩⟩
            · exact absurd shape notNone
            · exact absurd shape (notOne piece)
            · exact Nat.le_add_left 2 others.length

namespace Options

def splitEnd (options : Options) (name : String) : Split :=
  let (letters, digits) := Text.splitAtDigit name
  if options.strictSyntax || letters.isEmpty || !Text.isNumeral digits then .whole
  else
    match Text.readInteger digits with
    | .ok value => .trailing letters value
    | .error number => .oversized number

def split (options : Options) (isCallee : Bool) (name : String) : Split :=
  if options.exemptsName isCallee name then .whole
  else if (Text.pieces name).length < 2 then options.splitEnd name
  else
    match (Text.pieces name).mapM NamePiece.ofText with
    | .ok (first :: second :: rest) => .pieces first second rest
    | .ok _ => .whole
    | .error number => .oversized number

variable {options : Options} {isCallee : Bool} {name text : String}

/-! ## Positions -/

theorem exemptsName_value_le (exempt : options.exemptsName false name = true) :
    options.exemptsName true name = true := by
  simp only [exemptsName, Bool.false_and, Bool.or_false] at exempt
  simp [exemptsName, exempt]

theorem split_value_eq_of_not_exempt (free : options.exemptsName true name = false) :
    options.split false name = options.split true name := by
  have freeValue : options.exemptsName false name = false := by
    cases exempt : options.exemptsName false name with
    | false => rfl
    | true => rw [exemptsName_value_le exempt] at free; cases free
  simp only [split, free, freeValue]

theorem not_exempt_of_split_ne_whole (split : options.split isCallee name ≠ .whole) :
    options.exemptsName isCallee name = false := by
  cases exempt : options.exemptsName isCallee name with
  | false => rfl
  | true => exact absurd (by simp [Options.split, exempt]) split

theorem split_value_oversized {number : Oversized}
    (split : options.split true name = .oversized number) :
    options.split false name = .oversized number := by
  rw [split_value_eq_of_not_exempt (not_exempt_of_split_ne_whole (by simp [split])), split]

theorem split_value_eq_of_nonFunction {reason : String}
    (found : options.nonFunction? name = some reason) :
    options.split false name = options.split true name := by
  have free : options.exemptsCallee name = false := by
    cases exempt : options.exemptsCallee name with
    | false => rfl
    | true => simp [nonFunction?, exempt] at found
  simp only [exemptsCallee, Bool.or_eq_false_iff] at free
  simp [Options.split, exemptsName, free.2]

/-! ## Pieces and ends -/

theorem splitEnd_ne_pieces {first second : NamePiece} {rest : List NamePiece} :
    options.splitEnd name ≠ .pieces first second rest := by
  unfold splitEnd
  dsimp only
  split
  · exact nofun
  · split <;> exact nofun

theorem split_of_mem_pieces (member : text ∈ Text.pieces name) :
    options.split isCallee text =
      if options.exemptsName isCallee text then .whole else options.splitEnd text := by
  unfold split
  rw [Text.pieces_of_mem member]
  rfl

theorem split_of_letters (letters : ∀ character ∈ text.toList, character.isDigit = false) :
    options.split isCallee text = .whole := by
  have uncut : (Text.pieces text).length < 2 := by
    by_cases empty : text.toList = []
    · simp [Text.pieces, empty]
    · have single :=
        Text.pieces_of_letters_digits text.toList [] (by simpa using empty) letters (by simp)
      rw [List.append_nil, String.ofList_toList] at single
      simp [single]
  have kept : options.splitEnd text = .whole := by
    unfold splitEnd
    rw [Text.splitAtDigit_of_letters letters]
    simp [Text.isNumeral]
  unfold split
  rw [if_pos uncut, kept, ite_self]

section LettersDigits

variable {letters digits : String}

theorem length_pieces_letters_digits (nonempty : letters ≠ "")
    (areLetters : ∀ character ∈ letters.toList, character.isDigit = false)
    (numeral : Text.isNumeral digits = true) : (Text.pieces (letters ++ digits)).length < 2 := by
  have some : letters.toList ++ digits.toList ≠ [] := by
    intro none
    exact nonempty (String.toList_inj.mp (List.append_eq_nil_iff.mp none).1)
  have one := Text.pieces_of_letters_digits letters.toList digits.toList some areLetters
    (Text.isNumeral_iff.mp numeral).2
  rw [← String.toList_append, String.ofList_toList] at one
  rw [one]
  exact Nat.le_refl 2

/-- Outside strict syntax, digits after letters are split off unless they are too
many. -/
theorem splitEnd_letters_digits (lenient : options.strictSyntax = false) (nonempty : letters ≠ "")
    (areLetters : ∀ character ∈ letters.toList, character.isDigit = false)
    (numeral : Text.isNumeral digits = true) :
    options.splitEnd (letters ++ digits) =
      match Text.readInteger digits with
      | .ok value => .trailing letters value
      | .error number => .oversized number := by
  have some : letters.isEmpty = false := by
    rw [String.isEmpty_eq_false_iff]
    exact nonempty
  unfold splitEnd
  rw [Text.splitAtDigit_of_numeral areLetters numeral]
  simp only [lenient, some, numeral, Bool.not_true, Bool.or_self, Bool.false_eq_true, if_false]

theorem oversize_of_isKept (isKept : (options.split isCallee (letters ++ digits)).isKept = true)
    (free : options.exemptsName isCallee (letters ++ digits) = false)
    (lenient : options.strictSyntax = false) (nonempty : letters ≠ "")
    (areLetters : ∀ character ∈ letters.toList, character.isDigit = false)
    (numeral : Text.isNumeral digits = true) : Text.Oversize digits := by
  unfold split at isKept
  rw [free, if_neg Bool.false_ne_true,
    if_pos (length_pieces_letters_digits nonempty areLetters numeral),
    splitEnd_letters_digits lenient nonempty areLetters numeral] at isKept
  cases read : Text.readInteger digits with
  | ok value => rw [read] at isKept; cases isKept
  | error number => exact ((Text.readInteger_eq_error_iff numeral).mp read).1

end LettersDigits

theorem splitEnd_eq_trailing {letters : String} {value : Int64}
    (split : options.splitEnd name = .trailing letters value) :
    ∃ digits, name = letters ++ digits ∧ letters ≠ "" ∧
      (∀ character ∈ letters.toList, character.isDigit = false) ∧
      Text.isNumeral digits = true ∧ Text.readInteger digits = .ok value := by
  unfold splitEnd at split
  dsimp only at split
  split at split
  · cases split
  · next guarded =>
    simp only [Bool.or_eq_true, Bool.not_eq_true', not_or, Bool.not_eq_true,
      Bool.not_eq_false] at guarded
    obtain ⟨⟨_, someLetters⟩, numeral⟩ := guarded
    split at split
    · next read =>
      cases split
      refine ⟨_, (Text.splitAtDigit_append name).symm, ?_,
        fun _ => Text.isDigit_of_mem_letters, numeral, read⟩
      exact String.isEmpty_eq_false_iff.mp someLetters
    · cases split

theorem split_eq_trailing {letters : String} {value : Int64}
    (split : options.split isCallee name = .trailing letters value) :
    options.splitEnd name = .trailing letters value := by
  unfold Options.split at split
  split at split
  · cases split
  · split at split
    · exact split
    · split at split <;> cases split

theorem split_trailing_letters {other : Bool} {letters : String} {value : Int64}
    (split : options.split isCallee name = .trailing letters value) :
    options.split other letters = .whole := by
  obtain ⟨_, _, _, areLetters, _⟩ := splitEnd_eq_trailing (split_eq_trailing split)
  exact split_of_letters areLetters

theorem split_eq_pieces {first second : NamePiece} {rest : List NamePiece}
    (split : options.split isCallee name = .pieces first second rest) :
    options.exemptsName isCallee name = false ∧ 2 ≤ (Text.pieces name).length ∧
      (Text.pieces name).mapM NamePiece.ofText = .ok (first :: second :: rest) := by
  refine ⟨not_exempt_of_split_ne_whole (by simp [split]), ?_⟩
  unfold Options.split at split
  split at split
  · cases split
  · split at split
    · exact absurd split splitEnd_ne_pieces
    · next cut =>
      refine ⟨by omega, ?_⟩
      split at split
      · next read => cases split; exact read
      · cases split
      · cases split

theorem split_ne_whole (free : options.exemptsName isCallee name = false)
    (cut : 2 ≤ (Text.pieces name).length) : options.split isCallee name ≠ .whole := by
  unfold Options.split
  rw [free, if_neg Bool.false_ne_true, if_neg (Nat.not_lt_of_le cut)]
  cases read : (Text.pieces name).mapM NamePiece.ofText with
  | error number => exact nofun
  | ok factors =>
      have length := (NamePiece.mapM_ofText_eq_ok read).1
      rcases factors with _ | ⟨first, _ | ⟨second, rest⟩⟩
      · rw [List.length_nil] at length
        omega
      · rw [List.length_singleton] at length
        omega
      · exact nofun

theorem split_eq_oversized {number : Oversized}
    (split : options.split isCallee name = .oversized number) :
    Text.Oversize number.digits ∧ Text.isNumeral number.digits = true ∧
      ((∃ rest, Text.pieces name = number.digits :: rest ∧ rest ≠ []) ∨
        ((Text.pieces name).length < 2 ∧ options.strictSyntax = false ∧
          ∃ letters, Text.splitAtDigit name = (letters, number.digits) ∧ letters ≠ "")) := by
  unfold Options.split at split
  split at split
  · cases split
  · split at split
    · next uncut =>
      unfold splitEnd at split
      cases ends : Text.splitAtDigit name with
      | mk letters digits =>
          rw [ends] at split
          dsimp only at split
          split at split
          · cases split
          · next guarded =>
            simp only [Bool.or_eq_true, Bool.not_eq_true', not_or, Bool.not_eq_true,
              Bool.not_eq_false] at guarded
            obtain ⟨⟨lenient, someLetters⟩, numeral⟩ := guarded
            split at split
            · cases split
            · next read =>
              cases split
              obtain ⟨oversize, rfl⟩ := (Text.readInteger_eq_error_iff numeral).mp read
              refine ⟨oversize, numeral, .inr ⟨uncut, lenient, letters, rfl, ?_⟩⟩
              rintro rfl
              cases someLetters
    · next cut =>
      split at split
      · cases split
      · cases split
      · next read =>
        cases split
        obtain ⟨text, member, numeral, oversize, rfl⟩ := NamePiece.mapM_ofText_eq_error read
        refine ⟨oversize, numeral, .inl ?_⟩
        cases shape : Text.pieces name with
        | nil => rw [shape] at member; cases member
        | cons first rest =>
            rw [shape] at member
            rcases List.mem_cons.mp member with rfl | later
            · refine ⟨rest, rfl, ?_⟩
              rintro rfl
              simp [shape] at cut
            · have inTail : text ∈ (Text.pieces name).tail := by rwa [shape]
              rw [Text.isNumeral_eq_false_of_mem_tail inTail] at numeral
              cases numeral

theorem pieces_of_isKept (isKept : (options.split isCallee name).isKept = true)
    (free : options.exemptsName isCallee name = false) :
    (Text.pieces name).length ≤ 1 ∨
      ∃ digits rest, Text.pieces name = digits :: rest ∧ Text.isNumeral digits = true ∧
        Text.Oversize digits := by
  rcases Nat.lt_or_ge (Text.pieces name).length 2 with short | long
  · exact .inl (Nat.le_of_lt_succ short)
  · right
    rcases Split.isKept_iff.mp isKept with whole | ⟨number, oversized⟩
    · exact absurd whole (split_ne_whole free long)
    · obtain ⟨oversize, numeral, ⟨rest, shape, _⟩ | ⟨short, _⟩⟩ := split_eq_oversized oversized
      · exact ⟨number.digits, rest, shape, numeral, oversize⟩
      · omega

end Options

end Juxtaposition
