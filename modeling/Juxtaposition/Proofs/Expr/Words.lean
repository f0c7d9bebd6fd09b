import Juxtaposition.Proofs.Expr.PlacedLeaves
import Juxtaposition.Proofs.Text.Words

/-!
# Words of an expression

What a student wrote, with all juxtaposition and all operators left out. The standard
rules only put operators between words, so they neither lose nor reorder any. The
exception are literals whose exponent marker is read as a variable.
-/

set_option autoImplicit false

namespace Juxtaposition

def Leaf.words : Leaf → List Word
  | name text => Text.words text
  | integer value => [.number value.toInt]
  | float value literal => [.decimal value literal]

namespace Text

theorem mem_words {text : String} {word : Word} (member : word ∈ words text) :
    (∃ value, word = .number value) ∨ ∃ letters, word = .letters letters := by
  obtain ⟨run, _, rfl⟩ := List.mem_map.mp member
  unfold runWord
  split
  · exact .inl ⟨_, rfl⟩
  · exact .inr ⟨_, rfl⟩

end Text

theorem NamePiece.words_ofText {text : String} {piece : NamePiece}
    (read : ofText text = .ok piece) : piece.leaf.words = Text.words text := by
  cases piece with
  | name letters =>
      rw [ofText_eq_name read]
      rfl
  | number value =>
      obtain ⟨numeral, found⟩ := ofText_eq_number read
      rw [leaf, Leaf.words, Text.words_of_numeral numeral,
        Text.toInt_of_readInteger numeral found]

theorem NamePiece.words_mapM_ofText {texts : List String} {pieces : List NamePiece}
    (read : texts.mapM ofText = .ok pieces) :
    (pieces.map leaf).flatMap Leaf.words = texts.flatMap Text.words := by
  induction texts generalizing pieces with
  | nil =>
      cases read
      rfl
  | cons text texts ih =>
      obtain ⟨first, rest, head, tail, rfl⟩ := mapM_cons_eq_ok read
      rw [List.map_cons, List.flatMap_cons, List.flatMap_cons, words_ofText head, ih tail]

namespace Options

variable {options : Options} {isCallee : Bool} {name : String}

theorem words_of_split_pieces {first second : NamePiece} {rest : List NamePiece}
    (split : options.split isCallee name = .pieces first second rest) :
    ((first :: second :: rest).map NamePiece.leaf).flatMap Leaf.words = Text.words name := by
  obtain ⟨_, _, read⟩ := split_eq_pieces split
  rw [NamePiece.words_mapM_ofText read, Text.words_eq_flatMap_pieces]

theorem words_of_split_trailing {letters : String} {value : Int64}
    (split : options.split isCallee name = .trailing letters value) :
    Text.words name = [.letters letters, .number value.toInt] := by
  obtain ⟨digits, rfl, nonempty, areLetters, numeral, read⟩ :=
    splitEnd_eq_trailing (split_eq_trailing split)
  rw [Text.words_letters_digits nonempty areLetters numeral,
    Text.toInt_of_readInteger numeral read]

theorem words_of_trailing_letters {letters : String} {value : Int64}
    (split : options.split isCallee name = .trailing letters value) :
    Text.words letters = [.letters letters] := by
  obtain ⟨_, _, nonempty, areLetters, _⟩ := splitEnd_eq_trailing (split_eq_trailing split)
  exact Text.words_of_letters nonempty areLetters

end Options

namespace Expr

def words (expr : Expr) : List Word :=
  expr.leaves.flatMap Leaf.words

/-- No literal of the expression has an exponent marker, unless literals are kept. -/
def Unmarked (options : Options) (expr : Expr) : Prop :=
  options.strictSyntax = true ∨ ∀ value text, Word.decimal value (some text) ∈ expr.words →
    'e' ∉ text.toList ∧ 'E' ∉ text.toList

theorem mem_words_decimal_iff {expr : Expr} {value : Binary64} {literal : Option String} :
    Word.decimal value literal ∈ expr.words ↔ Leaf.float value literal ∈ expr.leaves := by
  rw [words, List.mem_flatMap]
  constructor
  · rintro ⟨leaf, member, inside⟩
    cases leaf with
    | name text =>
        obtain ⟨number, same⟩ | ⟨letters, same⟩ := Text.mem_words inside
        · cases same
        · cases same
    | integer number =>
        cases List.mem_singleton.mp inside
    | float number found =>
        cases List.mem_singleton.mp inside
        exact member
  · exact fun member => ⟨_, member, List.mem_singleton_self _⟩

variable {options : Options}

/-- A reduction keeps the words of what it reads, whatever the arguments are. -/
theorem Reduces.words_eq {old new : Expr} (reduces : Reduces options old new)
    (unmarked : old.Unmarked options) : new.words = old.words := by
  cases reduces with
  | callOfCall _ => rw [words, words, leaves_product, leaves_group, leaves_call]
  | nonFunction _ _ => rw [words, words, leaves_product, leaves_group, leaves_call]
  | @pieces arguments name first second rest split =>
      rw [words, words, NamePiece.leaves_exprChain, leaves_named, List.flatMap_append,
        Options.words_of_split_pieces split, List.flatMap_cons]
      rfl
  | @trailing arguments name letters value split =>
      have letter := Options.words_of_trailing_letters split
      have whole := Options.words_of_split_trailing split
      rw [words, words, leaves_product, leaves_counted, leaves_named, leaves]
      simp only [List.flatMap_cons, Leaf.words, letter, whole, List.cons_append,
        List.nil_append]
  | @literal value text literal _ lenient found _ =>
      have literal : Word.decimal value (some text) ∈ (float value (some text)).words :=
        mem_words_decimal_iff.mpr (by rw [leaves]; exact List.mem_singleton_self _)
      rcases unmarked with strict | plain
      · rw [strict] at lenient
        cases lenient
      · obtain ⟨noLower, noUpper⟩ := plain value text literal
        rw [ExponentLiteral.ofText?_eq_none_iff.mpr ⟨noLower, noUpper⟩] at found
        cases found

theorem Step.words_eq {expr expr' : Expr} (step : Step options expr expr')
    (unmarked : expr.Unmarked options) : expr'.words = expr.words := by
  obtain ⟨old, new, reduces, exchange⟩ := step
  obtain ⟨front, back, before, after⟩ := exchange.exists_leaves
  have part : old.Unmarked options := by
    refine unmarked.imp_right fun plain value text member => plain value text ?_
    rw [mem_words_decimal_iff] at member ⊢
    rw [before]
    exact List.mem_append_left _ (List.mem_append_right _ member)
  have same : new.leaves.flatMap Leaf.words = old.leaves.flatMap Leaf.words :=
    reduces.words_eq part
  simp only [words, before, after, List.flatMap_append, same]

theorem Steps.words_eq {count : Nat} {expr expr' : Expr} (steps : Steps options count expr expr')
    (unmarked : expr.Unmarked options) : expr'.words = expr.words := by
  induction steps with
  | refl => rfl
  | @cons _ _ second _ step _ ih =>
      have same := step.words_eq unmarked
      have later : second.Unmarked options := by
        rw [Unmarked, same]
        exact unmarked
      rw [ih later, same]

end Expr

end Juxtaposition
