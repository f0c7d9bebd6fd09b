import Juxtaposition.Proofs.Rule.Reading
import Juxtaposition.Proofs.Rule.Verdict

/-!
# What drafts add to an arena

The operations of a draft are missing products, up to the sign of an exponent, and no draft
adds a number with a literal.
-/

set_option autoImplicit false

namespace Juxtaposition

namespace Draft

def operators : Draft → List Operator
  | kept _ | identifier _ | integer _ | float _ | call _ _ | group _ => []
  | operation operator lhs rhs => operator :: (lhs.operators ++ rhs.operators)
  | factor first rest => .mul :: (first.operators ++ rest.operators)

private theorem store_node_cases {tree : Tree} {node found : Node} {id : NodeId}
    (here : (tree.store node).2.node id = found) : tree.node id = found ∨ node = found := by
  rw [Tree.node_store] at here
  split at here
  · exact .inr here
  · exact .inl here

/-- What is an operation after a draft is stored was one before, or the draft has added it. -/
theorem operation_store_cases {draft : Draft} {tree : Tree} {id lhs rhs : NodeId}
    {operator : Operator} {provenance : Provenance}
    (found : (draft.store tree).2.node id = .operation operator lhs rhs provenance) :
    tree.node id = .operation operator lhs rhs provenance ∨
      provenance = .missing ∧ operator ∈ draft.operators := by
  induction draft generalizing tree with
  | kept id => exact .inl found
  | identifier name => exact (store_node_cases found).imp_right nofun
  | integer value => exact (store_node_cases found).imp_right nofun
  | float value => exact (store_node_cases found).imp_right nofun
  | group items => exact (store_node_cases found).imp_right nofun
  | call name arguments =>
      rcases store_node_cases found with callee | same
      · exact (store_node_cases callee).imp_right nofun
      · cases same
  | operation other first second firstCases secondCases =>
      rcases store_node_cases found with inner | same
      · rcases secondCases inner with before | ⟨missing, member⟩
        · exact (firstCases before).imp_right fun ⟨missing, member⟩ =>
            ⟨missing, List.mem_cons_of_mem _ (List.mem_append_left _ member)⟩
        · exact .inr ⟨missing, List.mem_cons_of_mem _ (List.mem_append_right _ member)⟩
      · cases same
        exact .inr ⟨rfl, List.mem_cons_self⟩
  | factor first rest firstCases restCases =>
      rcases store_node_cases found with inner | same
      · rcases firstCases inner with before | ⟨missing, member⟩
        · exact (restCases before).imp_right fun ⟨missing, member⟩ =>
            ⟨missing, List.mem_cons_of_mem _ (List.mem_append_right _ member)⟩
        · exact .inr ⟨missing, List.mem_cons_of_mem _ (List.mem_append_left _ member)⟩
      · cases same
        exact .inr ⟨rfl, List.mem_cons_self⟩

/-- Only numbers that were there before have a literal. -/
theorem float_of_store {draft : Draft} {tree : Tree} {id : NodeId} {value : Binary64}
    {text : String} (found : (draft.store tree).2.node id = .float value (some text)) :
    tree.node id = .float value (some text) := by
  induction draft generalizing tree with
  | kept id => exact found
  | identifier name => exact (store_node_cases found).resolve_right nofun
  | integer value => exact (store_node_cases found).resolve_right nofun
  | float value => exact (store_node_cases found).resolve_right nofun
  | group items => exact (store_node_cases found).resolve_right nofun
  | call name arguments =>
      exact (store_node_cases ((store_node_cases found).resolve_right nofun)).resolve_right nofun
  | operation other first second firstCases secondCases =>
      exact firstCases (secondCases ((store_node_cases found).resolve_right nofun))
  | factor first rest firstCases restCases =>
      exact restCases (firstCases ((store_node_cases found).resolve_right nofun))

end Draft

/-! ## Operators of the standard rules -/

namespace NamePiece

theorem operators_draftWith (arguments : Option (List NodeId)) (piece : NamePiece) :
    ∀ operator ∈ (piece.draftWith arguments).operators, operator = .mul := by
  intro operator member
  cases arguments <;> cases piece
  case some.number => exact List.mem_singleton.mp member
  all_goals cases member

theorem operators_chain (arguments : Option (List NodeId)) (piece : NamePiece)
    (rest : List NamePiece) :
    ∀ operator ∈ (chain arguments piece rest).operators, operator = .mul := by
  induction rest generalizing piece with
  | nil => exact operators_draftWith arguments piece
  | cons following rest ih =>
      intro operator member
      rcases List.mem_cons.mp member with same | inner
      · exact same
      · rcases List.mem_append.mp inner with first | later
        · exact operators_draftWith none piece operator first
        · exact ih following operator later

end NamePiece

/-- The products of a split name. -/
theorem Split.operators_of_gist {split : Split} {spot : NodeId × Option (List NodeId)}
    {target : NodeId} {draft : Draft} (proposed : split.gist spot = .ok (some (target, draft))) :
    ∀ operator ∈ draft.operators, operator = .mul := by
  intro operator member
  cases split with
  | whole => cases proposed
  | oversized number => cases proposed
  | pieces first second rest =>
      cases proposed
      exact NamePiece.operators_chain _ _ _ operator member
  | trailing letters value =>
      cases proposed
      rcases List.mem_cons.mp member with same | inner
      · exact same
      · exact NamePiece.operators_draftWith _ _ operator inner

namespace ExponentLiteral

variable {literal : ExponentLiteral}

theorem operators_mantissaDraft {draft : Draft} (drafted : literal.mantissaDraft = .ok draft) :
    draft.operators = [] := by
  unfold mantissaDraft at drafted
  split at drafted
  · cases drafted
    rfl
  · cases read : Text.readIntegerStart literal.mantissa with
    | error number => rw [read] at drafted; cases drafted
    | ok value => rw [read] at drafted; cases drafted; rfl

theorem mem_operators_draft {draft : Draft} {operator : Operator}
    (drafted : literal.draft = .ok draft) (member : operator ∈ draft.operators) :
    operator = .mul ∨ literal.sign? = some operator := by
  unfold ExponentLiteral.draft at drafted
  cases exponent : Text.readIntegerStart literal.exponent with
  | error number => rw [exponent] at drafted; cases drafted
  | ok value =>
      cases mantissa : literal.mantissaDraft with
      | error number => rw [exponent, mantissa] at drafted; cases drafted
      | ok factor =>
          have nothing := operators_mantissaDraft mantissa
          simp only [exponent, mantissa, bind, Except.bind] at drafted
          cases sign : literal.sign? with
          | none =>
              rw [sign] at drafted
              cases drafted
              simp only [Draft.operators, nothing, List.append_nil, List.nil_append] at member
              exact .inl (by simpa using member)
          | some found =>
              rw [sign] at drafted
              cases drafted
              simp only [Draft.operators, nothing, List.append_nil, List.mem_cons,
                List.not_mem_nil, or_false] at member
              exact member.symm.imp_right fun same => congrArg some same.symm

/-- A signed exponent is added to or subtracted from the product of mantissa and marker. -/
theorem expr_of_sign {operator : Operator} {expr : Expr} (sign : literal.sign? = some operator)
    (read : literal.expr = .ok expr) :
    ∃ mantissa exponent, literal.mantissaExpr = .ok mantissa ∧
      expr = .operation operator
        (.product mantissa (.identifier (String.ofList [literal.marker]))) (.integer exponent)
        .missing := by
  unfold ExponentLiteral.expr at read
  cases exponentRead : Text.readIntegerStart literal.exponent with
  | error _ => rw [exponentRead] at read; cases read
  | ok exponent =>
      cases mantissaRead : literal.mantissaExpr with
      | error _ => rw [exponentRead, mantissaRead] at read; cases read
      | ok mantissa =>
          simp only [exponentRead, mantissaRead, bind, Except.bind, sign] at read
          cases read
          exact ⟨mantissa, _, rfl, rfl⟩

end ExponentLiteral

namespace Tree

variable {tree : Tree} {options : Options} {id target : NodeId} {draft : Draft}

/-- What is proposed at a node adds products only, or it takes a literal apart. -/
theorem operators_of_proposed
    (proposed : (tree.verdict options id).gist = .ok (some (target, draft))) :
    (∀ operator ∈ draft.operators, operator = .mul) ∨
      ∃ value text literal, tree.node id = .float value (some text) ∧
        ExponentLiteral.ofText? text = some literal ∧ literal.draft = .ok draft := by
  rcases tree.gist_verdict_cases options id with
    ⟨name, named⟩ | ⟨callee, arguments, call⟩ | ⟨value, literal, float⟩ | declined
  · rw [gist_verdict_name named] at proposed
    exact .inl (Split.operators_of_gist proposed)
  · rcases gist_verdict_call_cases options call with declined | product
    · rw [declined] at proposed
      cases proposed
    · rw [product] at proposed
      cases proposed
      exact .inl fun operator member => List.mem_singleton.mp member
  · rw [gist_verdict_float float] at proposed
    rcases literalGist_cases options id literal with
      ⟨declined, _⟩ | ⟨text, parts, rfl, _, found, judged⟩
    · rw [declined] at proposed
      cases proposed
    · rw [judged] at proposed
      cases drafted : parts.draft with
      | error number => rw [drafted] at proposed; cases proposed
      | ok result =>
          rw [drafted] at proposed
          cases proposed
          exact .inr ⟨value, text, parts, float, found, drafted⟩
  · rw [declined] at proposed
    cases proposed

end Tree

end Juxtaposition
