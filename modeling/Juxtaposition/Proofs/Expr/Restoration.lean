import Juxtaposition.Proofs.Expr.Grouping
import Juxtaposition.Proofs.Expr.Tokens
import Juxtaposition.Proofs.Text.Separation
import Juxtaposition.Text.Placeholder

/-!
# Question marks in expressions

Putting question marks back in a printed expression is putting them back in its names and literals.
Operators, brackets and the marks of highlighted products have no character of the placeholder, and
one of them stands between any two leaves.
-/

set_option autoImplicit false

namespace Juxtaposition

/-! ## The placeholder -/

namespace Text

abbrev placeholderLetters : List Char :=
  ['Q', 'M', 'C', 'H', 'A', 'R']

theorem toList_placeholder : placeholder.toList = placeholderLetters := by
  decide

theorem restoreFrom_eq (skip : Nat) (text : List Char) :
    restoreFrom skip text = replaceFrom placeholderLetters ['?'] skip text := by
  induction text generalizing skip with
  | nil => rfl
  | cons character rest ih =>
      cases skip with
      | succ skip => exact ih skip
      | zero =>
          rw [restoreFrom, replaceFrom, ih, ih, toList_placeholder, ← String.length_toList,
            toList_placeholder]
          rfl

theorem toList_restoreQuestionMarks (text : String) :
    (restoreQuestionMarks text).toList = replaceFrom placeholderLetters ['?'] 0 text.toList := by
  rw [restoreQuestionMarks, String.toList_ofList, restoreFrom_eq]

theorem occurrences_placeholder (text : String) :
    occurrences placeholder text = occurrencesFrom placeholderLetters 0 text.toList := by
  rw [occurrences, toList_placeholder]

/-- No placeholder is left where question marks are put back. -/
theorem occurrences_restoreQuestionMarks (text : String) :
    occurrences placeholder (restoreQuestionMarks text) = 0 := by
  rw [occurrences_placeholder, toList_restoreQuestionMarks]
  exact occurrencesFrom_replaceFrom (by decide) 0 text.toList

theorem restoreQuestionMarks_of_free {text : String} (free : 'Q' ∉ text.toList) :
    restoreQuestionMarks text = text := by
  rw [← String.toList_inj, toList_restoreQuestionMarks, replaceFrom_of_free free]

end Text

/-! ## Tokens -/

theorem Highlight.operatorText_cases (highlight : Highlight) (operator : Operator)
    (provenance : Provenance) :
    highlight.operatorText operator provenance = reddened "*" ∨
      highlight.operatorText operator provenance = reddened "_" ∨
      highlight.operatorText operator provenance = operator.symbol := by
  unfold operatorText
  split
  · exact .inl rfl
  · exact .inr (.inl rfl)
  · exact .inr (.inr rfl)

namespace Token

def restored : Token → Token
  | plain text => plain (Text.restoreQuestionMarks text)
  | sign operator provenance => sign operator provenance

def placeholders (highlight : Highlight) (token : Token) : Nat :=
  Text.occurrences Text.placeholder (token.text highlight)

abbrev Divides (highlight : Highlight) (token : Token) : Prop :=
  Text.Divides Text.placeholderLetters (token.text highlight).toList

abbrev Divided (highlight : Highlight) (tokens : List Token) : Prop :=
  Text.Divided Text.placeholderLetters (fun token => (token.text highlight).toList) tokens

variable {highlight : Highlight} {token : Token} {tokens : List Token}

theorem divides_mark {text : String} (mark : text ∈ marks) : (plain text).Divides highlight := by
  have each : ∀ text ∈ marks, Text.Divides Text.placeholderLetters text.toList := by decide
  exact each text mark

theorem divides_sign (operator : Operator) (provenance : Provenance) :
    (sign operator provenance).Divides highlight := by
  have star : Text.Divides Text.placeholderLetters (reddened "*").toList := by decide
  have space : Text.Divides Text.placeholderLetters (reddened "_").toList := by decide
  have symbol : Text.Divides Text.placeholderLetters operator.symbol.toList := by
    cases operator <;> decide
  unfold Divides
  rw [text]
  rcases highlight.operatorText_cases operator provenance with marked | marked | plainly
  · rw [marked]
    exact star
  · rw [marked]
    exact space
  · rw [plainly]
    exact symbol

theorem Divides.placeholders_eq (divides : token.Divides highlight) :
    token.placeholders highlight = 0 := by
  rw [placeholders, Text.occurrences_placeholder]
  exact Text.occurrencesFrom_of_free (Text.Divides.first_not_mem divides)

theorem restored_mark {text : String} (mark : text ∈ marks) :
    (plain text).restored = plain text := by
  have divides : (plain text).Divides .none := divides_mark mark
  exact congrArg plain (Text.restoreQuestionMarks_of_free (Text.Divides.first_not_mem divides))

theorem map_restored_brackets (tokens : List Token) :
    (plain "(" :: (tokens ++ [plain ")"])).map restored =
      plain "(" :: (tokens.map restored ++ [plain ")"]) := by
  rw [List.map_cons, List.map_append, List.map_singleton, restored_mark (by decide),
    restored_mark (by decide)]

theorem toList_text_restored (token : Token) :
    (token.restored.text highlight).toList =
      Text.replaceFrom Text.placeholderLetters ['?'] 0 (token.text highlight).toList := by
  cases token with
  | plain text => exact Text.toList_restoreQuestionMarks text
  | sign operator provenance =>
      exact (Text.replaceFrom_of_free
        (Text.Divides.first_not_mem (divides_sign operator provenance))).symm

/-- Where tokens are kept apart, question marks are put back in each of them alone. -/
theorem Divided.restoreQuestionMarks_print (divided : Divided highlight tokens) :
    Text.restoreQuestionMarks (String.ofList (print highlight tokens)) =
      String.ofList (print highlight (tokens.map restored)) := by
  rw [Text.restoreQuestionMarks, Text.restoreFrom_eq, String.toList_ofList, print,
    Text.Divided.replaceFrom_eq divided, print, List.flatMap_map]
  exact congrArg String.ofList
    (List.flatMap_congr fun token _ => (toList_text_restored token).symm)

theorem Divided.occurrences_print (divided : Divided highlight tokens) :
    Text.occurrences Text.placeholder (String.ofList (print highlight tokens)) =
      Text.tally (placeholders highlight) tokens := by
  rw [Text.occurrences_placeholder, String.toList_ofList, print,
    Text.Divided.occurrencesFrom_eq divided]
  refine congrArg (Text.tally · tokens) (funext fun token => ?_)
  rw [placeholders, Text.occurrences_placeholder]

theorem Divided.brackets (divided : Divided highlight tokens) :
    Divided highlight (plain "(" :: (tokens ++ [plain ")"])) :=
  Text.Divided.around .nil (divides_mark (by decide))
    (Text.Divided.around divided (divides_mark (by decide)) .nil)

theorem Divided.enclose (divided : Divided highlight tokens) (minimum strength : Nat) :
    Divided highlight (enclose minimum strength tokens) := by
  unfold Token.enclose
  split
  · exact divided.brackets
  · exact divided

end Token

/-! ## Leaves -/

def Leaf.placeholders (leaf : Leaf) : Nat :=
  Text.occurrences Text.placeholder leaf.text

namespace Expr

variable {highlight : Highlight} {minimum strength : Nat}

def restoreLeaf : Expr → Expr
  | identifier name => identifier (Text.restoreQuestionMarks name)
  | float value literal => float value (literal.map Text.restoreQuestionMarks)
  | expr => expr

def restored : Expr → Expr :=
  rebuild restoreLeaf

theorem restored_call (callee : Expr) (arguments : List Expr) :
    (call callee arguments).restored = call callee.restored (arguments.map restored) := by
  rw [restored, rebuild, rebuildAll_eq_map]
  rfl

theorem restored_group (items : List Expr) :
    (group items).restored = group (items.map restored) := by
  rw [restored, rebuild, rebuildAll_eq_map]
  rfl

theorem precedence_restored (expr : Expr) : expr.restored.precedence = expr.precedence := by
  cases expr <;> rfl

/-! ## No two leaves meet -/

private theorem divided_tokensOfItems : ∀ {items : List Expr},
    (∀ item ∈ items, Token.Divided highlight item.tokens) →
      Token.Divided highlight (tokensOfItems items)
  | [], _ => .nil
  | [item], divided => divided item List.mem_cons_self
  | first :: second :: rest, divided => by
      have later := divided_tokensOfItems fun item member =>
        divided item (List.mem_cons_of_mem first member)
      exact (divided first List.mem_cons_self).around (Token.divides_mark (by decide)) later

/-- An operator or a mark stands between any two leaves of a printed expression. -/
theorem divided_tokens (expr : Expr) : Token.Divided highlight expr.tokens := by
  induction expr using Expr.induction with
  | identifier name => exact List.isChain_singleton _
  | integer value => exact List.isChain_singleton _
  | float value literal => cases literal <;> exact List.isChain_singleton _
  | call callee arguments inCallee inArguments =>
      rw [tokens]
      exact (inCallee.enclose _ _).around (Token.divides_mark (by decide))
        (divided_tokensOfItems inArguments).brackets.tail
  | operation operator lhs rhs provenance inLhs inRhs =>
      rw [tokens]
      exact (inLhs.enclose _ _).around (Token.divides_sign operator provenance) (inRhs.enclose _ _)
  | group items inItems =>
      rw [tokens]
      exact (divided_tokensOfItems inItems).brackets
  | negation operand inOperand =>
      rw [tokens]
      exact Text.Divided.around .nil (Token.divides_mark (by decide)) (inOperand.enclose _ _)

/-! ## Question marks are put back leaf by leaf -/

private theorem enclose_restored (tokens : List Token) :
    Token.enclose minimum strength (tokens.map Token.restored) =
      (Token.enclose minimum strength tokens).map Token.restored := by
  unfold Token.enclose
  split
  · exact (Token.map_restored_brackets tokens).symm
  · rfl

private theorem tokensOfItems_restored : ∀ {items : List Expr},
    (∀ item ∈ items, item.restored.tokens = item.tokens.map Token.restored) →
      tokensOfItems (items.map restored) = (tokensOfItems items).map Token.restored
  | [], _ => rfl
  | [item], each => each item List.mem_cons_self
  | first :: second :: rest, each => by
      have later := tokensOfItems_restored fun item member =>
        each item (List.mem_cons_of_mem first member)
      rw [List.map_cons] at later
      rw [List.map_cons, List.map_cons, tokensOfItems_cons_cons, tokensOfItems_cons_cons, later, List.map_append, List.map_cons,
        Token.restored_mark (by decide), each first List.mem_cons_self]

theorem tokens_restored (expr : Expr) : expr.restored.tokens = expr.tokens.map Token.restored := by
  have unmarked : Decimal.isNumeric 'Q' = false := by decide
  induction expr using Expr.induction with
  | identifier name => rfl
  | integer value =>
      have kept := Text.restoreQuestionMarks_of_free
        ((Decimal.IsNumeric.ofInt value.toInt).not_mem unmarked)
      exact congrArg (fun text => [Token.plain text]) kept.symm
  | float value literal =>
      cases literal with
      | some literal => rfl
      | none =>
          have kept := Text.restoreQuestionMarks_of_free (value.isNumeric_text.not_mem unmarked)
          exact congrArg (fun text => [Token.plain text]) kept.symm
  | call callee arguments inCallee inArguments =>
      rw [restored_call, tokens, tokens, precedence_restored, inCallee, enclose_restored,
        tokensOfItems_restored inArguments, List.map_append, Token.map_restored_brackets]
  | operation operator lhs rhs provenance inLhs inRhs =>
      have shape : (operation operator lhs rhs provenance).restored =
          operation operator lhs.restored rhs.restored provenance := rfl
      rw [shape, tokens, tokens, precedence_restored, precedence_restored, inLhs, inRhs,
        enclose_restored, enclose_restored, List.map_append, List.map_cons]
      rfl
  | group items inItems =>
      rw [restored_group, tokens, tokens, tokensOfItems_restored inItems,
        Token.map_restored_brackets]
  | negation operand inOperand =>
      have shape : (negation operand).restored = negation operand.restored := rfl
      rw [shape, tokens, tokens, precedence_restored, inOperand, enclose_restored, List.map_cons,
        Token.restored_mark (by decide)]

theorem render_eq_print (expr : Expr) :
    expr.render highlight = String.ofList (Token.print highlight expr.tokens) := by
  rw [print_tokens, String.ofList_toList]

theorem restoreQuestionMarks_render (expr : Expr) :
    Text.restoreQuestionMarks (expr.render highlight) = expr.restored.render highlight := by
  rw [render_eq_print, render_eq_print, expr.divided_tokens.restoreQuestionMarks_print,
    tokens_restored]

/-! ## Placeholders are counted leaf by leaf -/

section Count

variable {count : Token → Nat} (marks : ∀ text ∈ Token.marks, count (.plain text) = 0)

include marks

private theorem tally_brackets (tokens : List Token) :
    Text.tally count (.plain "(" :: (tokens ++ [.plain ")"])) = Text.tally count tokens := by
  rw [Text.tally_cons, Text.tally_append, Text.tally_cons, marks "(" (by decide),
    marks ")" (by decide), Text.tally_nil, Nat.zero_add, Nat.add_zero]

private theorem tally_enclose (tokens : List Token) :
    Text.tally count (Token.enclose minimum strength tokens) = Text.tally count tokens := by
  unfold Token.enclose
  split
  · exact tally_brackets marks tokens
  · rfl

private theorem tally_tokensOfItems : ∀ {items : List Expr},
    (∀ item ∈ items, Text.tally count item.tokens =
      Text.tally (fun leaf => count (.plain leaf.text)) item.leaves) →
        Text.tally count (tokensOfItems items) =
          Text.tally (fun leaf => count (.plain leaf.text)) (items.flatMap leaves)
  | [], _ => rfl
  | [item], each => by
      rw [tokensOfItems, List.flatMap_singleton]
      exact each item List.mem_cons_self
  | first :: second :: rest, each => by
      have later := tally_tokensOfItems fun item member =>
        each item (List.mem_cons_of_mem first member)
      rw [tokensOfItems_cons_cons, List.flatMap_cons, Text.tally_append, Text.tally_append, Text.tally_cons, later,
        each first List.mem_cons_self, marks "," (by decide), Nat.zero_add]

/-- What neither operators nor marks have is counted in the leaves. -/
theorem tally_tokens (signs : ∀ operator provenance, count (.sign operator provenance) = 0)
    (expr : Expr) :
    Text.tally count expr.tokens =
      Text.tally (fun leaf => count (.plain leaf.text)) expr.leaves := by
  induction expr using Expr.induction with
  | identifier name => rfl
  | integer value => rfl
  | float value literal => cases literal <;> rfl
  | call callee arguments inCallee inArguments =>
      rw [tokens, leaves_call, Text.tally_append, Text.tally_append, tally_enclose marks,
        tally_brackets marks, inCallee, tally_tokensOfItems marks inArguments]
  | operation operator lhs rhs provenance inLhs inRhs =>
      rw [tokens, leaves, Text.tally_append, Text.tally_append, Text.tally_cons, signs,
        tally_enclose marks, tally_enclose marks, inLhs, inRhs, Nat.zero_add]
  | group items inItems =>
      rw [tokens, leaves_group, tally_brackets marks, tally_tokensOfItems marks inItems]
  | negation operand inOperand =>
      rw [tokens, leaves, Text.tally_cons, tally_enclose marks, marks "-" (by decide), inOperand,
        Nat.zero_add]

end Count

theorem occurrences_render (expr : Expr) :
    Text.occurrences Text.placeholder (expr.render highlight) =
      Text.tally Leaf.placeholders expr.leaves := by
  rw [render_eq_print, expr.divided_tokens.occurrences_print]
  exact tally_tokens (fun _ mark => (Token.divides_mark mark).placeholders_eq)
    (fun operator provenance => (Token.divides_sign operator provenance).placeholders_eq) expr

/-- Every token is left alone or is the text of a leaf. -/
theorem restored_of_mem_tokens {expr : Expr} : ∀ token ∈ expr.tokens,
    token.restored = token ∨ ∃ leaf ∈ expr.leaves, token = .plain leaf.text :=
  forall_mem_tokens (fun _ mark => .inl (Token.restored_mark mark)) (fun _ _ => .inl rfl)
    fun leaf member => .inr ⟨leaf, member, rfl⟩

end Expr

end Juxtaposition
