import Juxtaposition.Proofs.Rule.Split
import Juxtaposition.Proofs.Text.DigitRuns

/-!
# Called names in pieces

Only the piece at the start of a name can be a numeral. When a called name is taken apart, its
arguments therefore always go to a name.
-/

set_option autoImplicit false

namespace Juxtaposition

namespace NamePiece

variable {text : String} {first : NamePiece} {rest : List NamePiece}

/-- All factors but the first are names. -/
theorem exists_name_of_mem_rest
    (read : (Text.pieces text).mapM ofText = .ok (first :: rest)) {factor : NamePiece}
    (member : factor ∈ rest) : ∃ letters, factor = name letters := by
  cases shape : Text.pieces text with
  | nil => rw [shape] at read; cases read
  | cons piece others =>
      rw [shape] at read
      obtain ⟨_, _, _, readOthers, same⟩ := mapM_cons_eq_ok read
      cases same
      obtain ⟨source, inside, found⟩ := exists_of_mem_mapM readOthers member
      have inTail : source ∈ (Text.pieces text).tail := by rwa [shape]
      cases factor with
      | name letters => exact ⟨letters, rfl⟩
      | number value =>
          have numeral := (ofText_eq_number found).1
          rw [Text.isNumeral_eq_false_of_mem_tail inTail] at numeral
          cases numeral

/-- The factors of a chain stand in front of the last one, which takes the arguments. -/
theorem chain_eq_foldr {arguments : Option (List NodeId)} {front : List NamePiece}
    {last : NamePiece} (shape : first :: rest = front ++ [last]) :
    chain arguments first rest =
      front.foldr (fun piece following => .factor piece.draft following)
        (last.draftWith arguments) := by
  induction rest generalizing first front with
  | nil =>
      obtain ⟨rfl, same⟩ := List.append_eq_singleton_iff.mp shape.symm |>.resolve_right (by simp)
      cases same
      rfl
  | cons second rest ih =>
      cases front with
      | nil => cases shape
      | cons piece front =>
          obtain ⟨rfl, later⟩ := List.cons.inj shape
          rw [chain, ih later, List.foldr_cons]

end NamePiece

/-- The pieces of a text are its only digit runs, and one walk with a flag finds them. Only the
first of them can be a numeral, so a called name leaves its arguments to a name. -/
structure Text.CutsUniquely (text : String) : Prop where
  digitRuns : DigitRuns text (pieces text)
  unique : ∀ parts, DigitRuns text parts → parts = pieces text
  walked : ∀ first rest, text.toList = first :: rest →
    pieces text = (walk first.isDigit [first] rest).map String.ofList
  none : text = "" → pieces text = []
  counted : text ≠ "" → (pieces text).length = 1 + cuts text.toList
  letterFirst : ∀ piece ∈ (pieces text).tail,
    ∃ letter following, piece.toList = letter :: following ∧ letter.isDigit = false
  numeralFirst : ∀ piece ∈ (pieces text).tail, isNumeral piece = false
  uncut : ∀ piece ∈ pieces text, pieces piece = [piece]
  called : ∀ options tree id proposal call arguments,
    Rule.splitDigitRuns options tree id text = .ok (some proposal) →
    tree.callHeadedBy? id = some (call, arguments) →
    ∃ front letters, (pieces text).mapM NamePiece.ofText = .ok (front ++ [.name letters]) ∧
      proposal.target = call ∧
      proposal.draft =
        front.foldr (fun piece following => .factor piece.draft following)
          (.call letters arguments)

/-- The last piece of a called name is called in its place. -/
theorem Rule.splitDigitRuns_called {options : Options} {tree : Tree} {id : NodeId} {name : String}
    {proposal : Proposal} (found : splitDigitRuns options tree id name = .ok (some proposal))
    {call : NodeId} {arguments : List NodeId}
    (headed : tree.callHeadedBy? id = some (call, arguments)) :
    ∃ front letters, (Text.pieces name).mapM NamePiece.ofText = .ok (front ++ [.name letters]) ∧
      proposal.target = call ∧
      proposal.draft =
        front.foldr (fun piece following => .factor piece.draft following)
          (.call letters arguments) := by
  obtain ⟨several, first, rest, read, rfl⟩ := splitDigitRuns_eq_some found
  have length := NamePiece.length_of_mapM read
  have more : rest ≠ [] := by
    rintro rfl
    rw [List.length_singleton] at length
    omega
  obtain ⟨letters, last⟩ := NamePiece.exists_name_of_mem_rest read (List.getLast_mem more)
  have shape : first :: rest = (first :: rest.dropLast) ++ [.name letters] := by
    rw [← last, List.cons_append, List.dropLast_append_getLast more]
  refine ⟨first :: rest.dropLast, letters, ?_, ?_, ?_⟩
  · rw [read, shape]
  · rw [Proposal.forName, headed]
  · rw [Proposal.forName, headed]
    exact NamePiece.chain_eq_foldr shape

namespace Text

theorem pieces_cutsUniquely (text : String) : CutsUniquely text where
  digitRuns := digitRuns_iff.mpr rfl
  unique _ runs := digitRuns_iff.mp runs
  walked _ _ shape := pieces_eq_walk shape
  none := pieces_eq_nil_iff.mpr
  counted := length_pieces
  letterFirst _ := exists_letter_of_mem_tail
  numeralFirst _ := isNumeral_eq_false_of_mem_tail
  uncut _ := pieces_of_mem
  called _ _ _ _ _ _ found headed := Rule.splitDigitRuns_called found headed

end Text

end Juxtaposition
