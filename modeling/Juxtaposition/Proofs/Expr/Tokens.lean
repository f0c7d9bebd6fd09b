import Juxtaposition.Proofs.Decimal.Characters
import Juxtaposition.Proofs.Expr.Leaves

/-!
# Tokens

The printed text of an expression token by token. All views of an expression have the same tokens
and differ in the text of its operators only. The operators among the tokens are those of the
expression, and everything else is a name, a number or a mark.
-/

set_option autoImplicit false

namespace Juxtaposition

inductive Token where
  | plain (text : String)
  | sign (operator : Operator) (provenance : Provenance)
deriving DecidableEq

namespace Token

def text (highlight : Highlight) : Token → String
  | plain text => text
  | sign operator provenance => highlight.operatorText operator provenance

def operation? : Token → Option (Operator × Provenance)
  | plain _ => none
  | sign operator provenance => some (operator, provenance)

def print (highlight : Highlight) (tokens : List Token) : List Char :=
  tokens.flatMap fun token => (token.text highlight).toList

def enclose (minimum strength : Nat) (tokens : List Token) : List Token :=
  if strength < minimum then plain "(" :: (tokens ++ [plain ")"]) else tokens

end Token

namespace Expr

mutual

def tokens : Expr → List Token
  | identifier name => [.plain name]
  | integer value => [.plain (toString value.toInt)]
  | float _ (some literal) => [.plain literal]
  | float value none => [.plain value.text]
  | call callee arguments =>
      Token.enclose atomPrecedence callee.precedence callee.tokens ++
        .plain "(" :: (tokensOfItems arguments ++ [.plain ")"])
  | group items => .plain "(" :: (tokensOfItems items ++ [.plain ")"])
  | negation operand =>
      .plain "-" :: Token.enclose Operator.mul.precedence operand.precedence operand.tokens
  | operation operator lhs rhs provenance =>
      Token.enclose (leftMinimum operator) lhs.precedence lhs.tokens ++
        .sign operator provenance ::
          Token.enclose (rightMinimum operator) rhs.precedence rhs.tokens

def tokensOfItems : List Expr → List Token
  | [] => []
  | [item] => item.tokens
  | item :: rest => item.tokens ++ .plain "," :: tokensOfItems rest

end

theorem tokensOfItems_cons_cons (first second : Expr) (rest : List Expr) :
    tokensOfItems (first :: second :: rest) =
      first.tokens ++ .plain "," :: tokensOfItems (second :: rest) :=
  rfl

def operations (expr : Expr) : List (Operator × Provenance) :=
  expr.tokens.filterMap Token.operation?

end Expr

variable {highlight : Highlight} {tokens : List Token} {minimum strength : Nat}

/-! ## All views have the same tokens -/

namespace Token

@[simp] theorem print_nil : print highlight [] = [] :=
  rfl

@[simp] theorem print_cons (token : Token) :
    print highlight (token :: tokens) =
      (token.text highlight).toList ++ print highlight tokens :=
  List.flatMap_cons

@[simp] theorem print_append (later : List Token) :
    print highlight (tokens ++ later) = print highlight tokens ++ print highlight later :=
  List.flatMap_append

theorem print_enclose {text : String} (printed : print highlight tokens = text.toList) :
    print highlight (enclose minimum strength tokens) =
      (Expr.enclose minimum strength text).toList := by
  unfold enclose Expr.enclose
  split
  · simp [printed, Token.text]
  · exact printed

end Token

namespace Expr

private theorem print_tokensOfItems : ∀ {items : List Expr},
    (∀ item ∈ items, Token.print highlight item.tokens = (item.render highlight).toList) →
      Token.print highlight (tokensOfItems items) = (renderItems highlight items).toList
  | [], _ => rfl
  | [item], printed => by
      rw [tokensOfItems, renderItems]
      exact printed item List.mem_cons_self
  | first :: second :: rest, printed => by
      have later := print_tokensOfItems fun item member =>
        printed item (List.mem_cons_of_mem first member)
      have text : renderItems highlight (first :: second :: rest) =
          first.render highlight ++ "," ++ renderItems highlight (second :: rest) := rfl
      rw [text, tokensOfItems_cons_cons, Token.print_append, Token.print_cons, later,
        printed first List.mem_cons_self]
      simp [Token.text]

theorem print_tokens (expr : Expr) :
    Token.print highlight expr.tokens = (expr.render highlight).toList := by
  induction expr using Expr.induction with
  | identifier name => simp [tokens, render, Token.text]
  | integer value => simp [tokens, render, Token.text]
  | float value literal => cases literal <;> simp [tokens, render, Token.text]
  | call callee arguments inCallee inArguments =>
      rw [tokens, render, Token.print_append, Token.print_enclose inCallee, Token.print_cons,
        Token.print_append, print_tokensOfItems inArguments]
      simp [Token.text]
  | operation operator lhs rhs provenance inLhs inRhs =>
      rw [tokens, render, Token.print_append, Token.print_enclose inLhs, Token.print_cons,
        Token.print_enclose inRhs]
      simp [Token.text]
  | group items inItems =>
      rw [tokens, render, Token.print_cons, Token.print_append, print_tokensOfItems inItems]
      simp [Token.text]
  | negation operand inOperand =>
      rw [tokens, render, Token.print_cons, Token.print_enclose inOperand]
      simp [Token.text]

/-! ## Operators -/

private theorem filterMap_enclose : (Token.enclose minimum strength tokens).filterMap
    Token.operation? = tokens.filterMap Token.operation? := by
  unfold Token.enclose
  split
  · simp [List.filterMap_cons, Token.operation?]
  · rfl

private theorem filterMap_tokensOfItems : ∀ items : List Expr,
    (tokensOfItems items).filterMap Token.operation? = items.flatMap operations
  | [] => rfl
  | [item] => by
      rw [tokensOfItems, List.flatMap_singleton]
      rfl
  | first :: second :: rest => by
      rw [tokensOfItems_cons_cons, List.filterMap_append, List.filterMap_cons_none rfl,
        filterMap_tokensOfItems (second :: rest), List.flatMap_cons]
      rfl

theorem operations_call (callee : Expr) (arguments : List Expr) :
    (call callee arguments).operations = callee.operations ++ arguments.flatMap operations := by
  simp [operations, tokens, filterMap_enclose, filterMap_tokensOfItems, List.filterMap_cons,
    Token.operation?]

theorem operations_group (items : List Expr) :
    (group items).operations = items.flatMap operations := by
  simp [operations, tokens, filterMap_tokensOfItems, List.filterMap_cons,
    Token.operation?]

theorem operations_negation (operand : Expr) :
    (negation operand).operations = operand.operations := by
  simp [operations, tokens, filterMap_enclose, List.filterMap_cons,
    Token.operation?]

theorem operations_operation (operator : Operator) (lhs rhs : Expr) (provenance : Provenance) :
    (operation operator lhs rhs provenance).operations =
      lhs.operations ++ (operator, provenance) :: rhs.operations := by
  simp [operations, tokens, filterMap_enclose, Token.operation?]

end Expr

/-! ## Names, numbers and marks -/

def Leaf.text : Leaf → String
  | name text => text
  | integer value => toString value.toInt
  | float _ (some literal) => literal
  | float value none => value.text

def Token.marks : List String :=
  ["(", ")", ",", "-"]

namespace Expr

section Every

variable {accepted : Token → Prop} (marks : ∀ text ∈ Token.marks, accepted (.plain text))

include marks

private theorem forall_mem_enclose (inside : ∀ token ∈ tokens, accepted token) :
    ∀ token ∈ Token.enclose minimum strength tokens, accepted token := by
  unfold Token.enclose
  split
  · rw [List.forall_mem_cons, List.forall_mem_append, List.forall_mem_singleton]
    exact ⟨marks "(" (by decide), inside, marks ")" (by decide)⟩
  · exact inside

private theorem forall_mem_tokensOfItems : ∀ {items : List Expr},
    (∀ item ∈ items, ∀ token ∈ item.tokens, accepted token) →
      ∀ token ∈ tokensOfItems items, accepted token
  | [], _ => List.forall_mem_nil _
  | [item], inside => inside item List.mem_cons_self
  | first :: second :: rest, inside => by
      have later := forall_mem_tokensOfItems fun item member =>
        inside item (List.mem_cons_of_mem first member)
      rw [tokensOfItems_cons_cons, List.forall_mem_append, List.forall_mem_cons]
      exact ⟨inside first List.mem_cons_self, marks "," (by decide), later⟩

private theorem forall_mem_brackets {items : List Expr}
    (inside : ∀ item ∈ items, ∀ token ∈ item.tokens, accepted token) :
    ∀ token ∈ Token.plain "(" :: (tokensOfItems items ++ [.plain ")"]), accepted token := by
  rw [List.forall_mem_cons, List.forall_mem_append, List.forall_mem_singleton]
  exact ⟨marks "(" (by decide), forall_mem_tokensOfItems marks inside, marks ")" (by decide)⟩

/-- Every token is an operator, a mark or a leaf. -/
theorem forall_mem_tokens (signs : ∀ operator provenance, accepted (.sign operator provenance))
    {expr : Expr} (leaves : ∀ leaf ∈ expr.leaves, accepted (.plain leaf.text)) :
    ∀ token ∈ expr.tokens, accepted token := by
  induction expr using Expr.induction with
  | identifier name =>
      rw [tokens, List.forall_mem_singleton]
      exact leaves (.name name) List.mem_cons_self
  | integer value =>
      rw [tokens, List.forall_mem_singleton]
      exact leaves (.integer value) List.mem_cons_self
  | float value literal =>
      have only := leaves (.float value literal) List.mem_cons_self
      cases literal <;> rwa [tokens, List.forall_mem_singleton]
  | call callee arguments inCallee inArguments =>
      rw [leaves_call, List.forall_mem_append, List.forall_mem_flatMap] at leaves
      rw [tokens, List.forall_mem_append]
      exact ⟨forall_mem_enclose marks (inCallee leaves.1),
        forall_mem_brackets marks fun item member => inArguments item member (leaves.2 item member)⟩
  | operation operator lhs rhs provenance inLhs inRhs =>
      rw [Expr.leaves, List.forall_mem_append] at leaves
      rw [tokens, List.forall_mem_append, List.forall_mem_cons]
      exact ⟨forall_mem_enclose marks (inLhs leaves.1), signs operator provenance,
        forall_mem_enclose marks (inRhs leaves.2)⟩
  | group items inItems =>
      rw [leaves_group, List.forall_mem_flatMap] at leaves
      rw [tokens]
      exact forall_mem_brackets marks fun item member => inItems item member (leaves item member)
  | negation operand inOperand =>
      rw [tokens, List.forall_mem_cons]
      exact ⟨marks "-" (by decide), forall_mem_enclose marks (inOperand leaves)⟩

end Every

end Expr

end Juxtaposition
