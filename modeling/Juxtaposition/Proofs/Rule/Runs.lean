import Juxtaposition.Proofs.Rule.Split
import Juxtaposition.Proofs.Rule.Marker

/-!
# Oversized runs

The runs of digits in a name or a literal that are too large for an integer, said without the
rules that come upon them. Each of them belongs to the text that it keeps whole.
-/

set_option autoImplicit false

namespace Juxtaposition

/-- Digits that are too large, and the name or literal that is kept for them. -/
structure OversizedRun where
  text : String
  digits : String
deriving DecidableEq

/-! ## Names -/

namespace Text

def oversizedLead? (name : String) : Option String :=
  match pieces name with
  | leading :: _ :: _ =>
      if isNumeral leading = true ∧ Oversize leading then some leading else none
  | _ => none

end Text

namespace Options

/-- The digits at the end of a piece that begins with a letter. Strict syntax does not read
them, and neither does anyone in a piece that is exempt where it stands. -/
def trailingRuns (options : Options) (isCallee : Bool) (piece : String) : List OversizedRun :=
  if options.strictSyntax || options.exemptsName isCallee piece || Text.startsInDigit piece then []
  else if Text.Oversize (Text.trailingDigits piece) then [⟨piece, Text.trailingDigits piece⟩]
  else []

def pieceRuns (options : Options) (isCallee : Bool) : List String → List OversizedRun
  | [] => []
  | [last] => options.trailingRuns isCallee last
  | piece :: rest => options.trailingRuns false piece ++ options.pieceRuns isCallee rest

/-- The oversized runs of a name. One at its start keeps the whole name, and nothing else of
it counts. -/
def nameRuns (options : Options) (isCallee : Bool) (name : String) : List OversizedRun :=
  if options.exemptsName isCallee name then []
  else
    match Text.oversizedLead? name with
    | some leading => [⟨name, leading⟩]
    | none => options.pieceRuns isCallee (Text.pieces name)

end Options

def Split.run? (name : String) : Split → Option OversizedRun
  | oversized number => some ⟨name, number.digits⟩
  | whole | pieces _ _ _ | trailing _ _ => none

namespace Text

variable {name text : String}

theorem oversizedLead?_of_short (short : (pieces name).length < 2) :
    oversizedLead? name = none := by
  unfold oversizedLead?
  split
  · next shape =>
    simp only [shape, List.length_cons] at short
    omega
  · rfl

theorem oversizedLead?_eq_some {leading : String} {rest : List String}
    (shape : pieces name = leading :: rest) (several : rest ≠ [])
    (numeral : isNumeral leading = true) (oversize : Oversize leading) :
    oversizedLead? name = some leading := by
  obtain ⟨second, later, rfl⟩ := List.exists_cons_of_ne_nil several
  simp [oversizedLead?, shape, numeral, oversize]

theorem oversizedLead?_of_read {factors : List NamePiece}
    (read : (pieces name).mapM NamePiece.ofText = .ok factors) : oversizedLead? name = none := by
  unfold oversizedLead?
  split
  · next leading second rest shape =>
    rw [if_neg]
    rintro ⟨numeral, oversize⟩
    rw [shape, List.mapM_cons, NamePiece.ofText, if_pos numeral,
      (readInteger_eq_error_iff numeral).mpr ⟨oversize, rfl⟩] at read
    cases read
  · rfl

theorem isNumeral_trailingDigits (oversize : Oversize (trailingDigits text)) :
    isNumeral (trailingDigits text) = true := by
  rw [isNumeral_iff]
  constructor
  · intro none
    rw [Oversize, none] at oversize
    cases oversize
  · intro character member
    rw [trailingDigits, String.toList_ofList] at member
    exact List.mem_rtakeWhile_imp member

end Text

namespace Options

variable {options : Options} {isCallee : Bool} {name piece : String}

theorem trailingRuns_of_mem_pieces (member : piece ∈ Text.pieces name) :
    options.trailingRuns isCallee piece = ((options.split isCallee piece).run? piece).toList := by
  obtain ⟨ends, letters⟩ := Text.splitAtDigit_of_mem_pieces member
  rw [split_of_mem_pieces member, trailingRuns]
  cases options.exemptsName isCallee piece with
  | true => simp [Split.run?]
  | false =>
      unfold splitEnd
      cases cut : Text.splitAtDigit piece with
      | mk front digits =>
          rw [cut] at ends letters
          dsimp only at ends letters ⊢
          subst ends
          have empty : front.isEmpty = Text.startsInDigit piece := by
            rw [Bool.eq_iff_iff, String.isEmpty_iff, letters]
          rw [empty, Bool.or_false, if_neg Bool.false_ne_true]
          cases options.strictSyntax || Text.startsInDigit piece with
          | true => simp [Split.run?]
          | false =>
              by_cases oversize : Text.Oversize (Text.trailingDigits piece)
              · have numeral := Text.isNumeral_trailingDigits oversize
                simp [numeral, oversize, Text.readInteger_of_numeral numeral, Split.run?]
              · rw [if_neg Bool.false_ne_true, if_neg oversize, Bool.false_or]
                cases numeral : Text.isNumeral (Text.trailingDigits piece) with
                | true => simp [Text.readInteger_of_numeral numeral, oversize, Split.run?]
                | false => simp [Split.run?]

/-- A name that is cut has the runs of its pieces. -/
theorem nameRuns_of_pieces {first second : NamePiece} {rest : List NamePiece}
    (split : options.split isCallee name = .pieces first second rest) :
    options.nameRuns isCallee name = options.pieceRuns isCallee (Text.pieces name) := by
  obtain ⟨free, _, read⟩ := split_eq_pieces split
  rw [nameRuns, free, if_neg Bool.false_ne_true, Text.oversizedLead?_of_read read]

private theorem nameRuns_of_short (free : options.exemptsName isCallee name = false)
    (short : (Text.pieces name).length < 2) :
    options.nameRuns isCallee name = ((options.split isCallee name).run? name).toList := by
  rw [nameRuns, free, if_neg Bool.false_ne_true, Text.oversizedLead?_of_short short]
  dsimp only
  cases shape : Text.pieces name with
  | nil =>
      have none := Text.pieces_eq_nil_iff.mp shape
      have whole : options.split isCallee name = .whole :=
        split_of_letters (by rw [none]; exact nofun)
      rw [whole]
      rfl
  | cons only rest =>
      rw [shape, List.length_cons] at short
      obtain rfl := List.length_eq_zero_iff.mp (show rest.length = 0 by omega)
      obtain rfl := Text.eq_of_pieces_eq_singleton shape
      exact trailingRuns_of_mem_pieces (by rw [shape]; exact List.mem_singleton_self _)

private theorem nameRuns_of_lead {leading : String} {rest : List String}
    (free : options.exemptsName isCallee name = false)
    (shape : Text.pieces name = leading :: rest) (several : rest ≠ [])
    (numeral : Text.isNumeral leading = true) (oversize : Text.Oversize leading) :
    options.nameRuns isCallee name = [⟨name, leading⟩] := by
  rw [nameRuns, free, if_neg Bool.false_ne_true,
    Text.oversizedLead?_eq_some shape several numeral oversize]

/-- A name that is not cut has the run that it is reported for. -/
theorem nameRuns_of_uncut
    (uncut : ∀ first second rest, options.split isCallee name ≠ .pieces first second rest) :
    options.nameRuns isCallee name = ((options.split isCallee name).run? name).toList := by
  cases exempt : options.exemptsName isCallee name with
  | true => simp [nameRuns, Options.split, exempt, Split.run?]
  | false =>
      rcases Nat.lt_or_ge (Text.pieces name).length 2 with short | long
      · exact nameRuns_of_short exempt short
      · cases split : options.split isCallee name with
        | whole => exact absurd split (split_ne_whole exempt long)
        | pieces first second rest => exact absurd split (uncut first second rest)
        | trailing letters value =>
            obtain ⟨digits, rfl, some, areLetters, numeral, _⟩ :=
              splitEnd_eq_trailing (split_eq_trailing split)
            have short := length_pieces_letters_digits some areLetters numeral
            omega
        | oversized number =>
            obtain ⟨oversize, numeral, ⟨rest, shape, several⟩ | ⟨short, _⟩⟩ :=
              split_eq_oversized split
            · exact nameRuns_of_lead exempt shape several numeral oversize
            · omega

theorem nameRuns_of_isKept (isKept : (options.split isCallee name).isKept = true) :
    options.nameRuns isCallee name = ((options.split isCallee name).run? name).toList := by
  apply nameRuns_of_uncut
  intro first second rest cut
  rw [cut] at isKept
  cases isKept

theorem nameRuns_of_whole (whole : options.split isCallee name = .whole) :
    options.nameRuns isCallee name = [] := by
  rw [nameRuns_of_isKept (by rw [whole]; rfl), whole]
  rfl

theorem nameRuns_of_trailing {letters : String} {value : Int64}
    (split : options.split isCallee name = .trailing letters value) :
    options.nameRuns isCallee name = [] := by
  rw [nameRuns_of_uncut (by simp [split]), split]
  rfl

theorem nameRuns_of_mem_pieces (member : piece ∈ Text.pieces name) :
    options.nameRuns isCallee piece = options.trailingRuns isCallee piece := by
  rw [trailingRuns_of_mem_pieces member]
  apply nameRuns_of_uncut
  intro first second rest cut
  obtain ⟨_, long, _⟩ := split_eq_pieces cut
  rw [Text.pieces_of_mem member, List.length_singleton] at long
  omega

end Options

/-! ## Literals -/

namespace ExponentLiteral

/-- The digits in a literal that are too large. Those of the exponent come before those of the
mantissa, which are read as an integer only where there is no decimal point. -/
def oversizedDigits? (literal : ExponentLiteral) : Option String :=
  if Text.Oversize (Text.leadingDigits literal.exponent) then
    some (Text.leadingDigits literal.exponent)
  else if literal.mantissa.toList.contains '.' then none
  else if Text.Oversize (Text.leadingDigits literal.mantissa) then
    some (Text.leadingDigits literal.mantissa)
  else none

end ExponentLiteral

def Options.literalRuns (options : Options) : (literal : Option String) → List OversizedRun
  | none => []
  | some text =>
      if options.strictSyntax then []
      else
        match ExponentLiteral.ofText? text with
        | some literal => (literal.oversizedDigits?.map (OversizedRun.mk text)).toList
        | none => []

theorem Options.literalRuns_of_kept {options : Options} {text : String}
    (keeps : options.strictSyntax = true ∨ 'e' ∉ text.toList ∧ 'E' ∉ text.toList) :
    options.literalRuns (some text) = [] := by
  rcases keeps with strict | unmarked
  · simp [literalRuns, strict]
  · simp [literalRuns, ExponentLiteral.ofText?_eq_none_iff.mpr unmarked]

theorem Options.literalRuns_of_splits {options : Options} {text : String}
    {literal : ExponentLiteral} (lenient : options.strictSyntax = false)
    (splits : literal.Splits text) :
    options.literalRuns (some text) =
      (literal.oversizedDigits?.map (OversizedRun.mk text)).toList := by
  simp [literalRuns, lenient, ExponentLiteral.ofText?_eq_some_iff.mpr splits]

namespace ExponentLiteral

variable {literal : ExponentLiteral}

theorem oversizedDigits?_of_draft_ok {draft : Draft} (drafted : literal.draft = .ok draft) :
    literal.oversizedDigits? = none := by
  unfold ExponentLiteral.draft at drafted
  cases exponent : Text.readIntegerStart literal.exponent with
  | error number => rw [exponent] at drafted; cases drafted
  | ok value =>
      rw [oversizedDigits?, if_neg (Text.small_of_readIntegerStart exponent)]
      split
      · rfl
      · next integral =>
        cases mantissa : Text.readIntegerStart literal.mantissa with
        | ok factor => rw [if_neg (Text.small_of_readIntegerStart mantissa)]
        | error number =>
            rw [exponent, mantissaDraft, if_neg integral, mantissa] at drafted
            cases drafted

theorem oversizedDigits?_of_draft_error {number : Oversized}
    (failed : literal.draft = .error number) :
    literal.oversizedDigits? = some number.digits := by
  unfold ExponentLiteral.draft at failed
  cases exponent : Text.readIntegerStart literal.exponent with
  | error _ =>
      rw [exponent] at failed
      cases failed
      obtain ⟨oversize, rfl⟩ := Text.readIntegerStart_eq_error_iff.mp exponent
      rw [oversizedDigits?, if_pos oversize]
  | ok value =>
      rw [oversizedDigits?, if_neg (Text.small_of_readIntegerStart exponent)]
      cases mantissa : literal.mantissaDraft with
      | ok factor =>
          rw [exponent, mantissa] at failed
          simp only [bind, Except.bind] at failed
          cases sign : literal.sign? <;> rw [sign] at failed <;> cases failed
      | error _ =>
          rw [exponent, mantissa] at failed
          cases failed
          unfold mantissaDraft at mantissa
          split at mantissa
          · cases mantissa
          · next integral =>
            rw [if_neg integral]
            cases read : Text.readIntegerStart literal.mantissa with
            | ok factor => rw [read] at mantissa; cases mantissa
            | error _ =>
                rw [read] at mantissa
                cases mantissa
                obtain ⟨oversize, rfl⟩ := Text.readIntegerStart_eq_error_iff.mp read
                rw [if_pos oversize]

end ExponentLiteral

end Juxtaposition
