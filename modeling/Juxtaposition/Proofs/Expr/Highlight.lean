import Juxtaposition.Answer.Explanation
import Juxtaposition.Proofs.Expr.Tokens
import Juxtaposition.Proofs.Text.Replacement

/-!
# Highlighting

What a highlighted view marks. With an ordinary star for each marker it is the plain text again,
and its markers are the products of the highlighted provenance.
-/

set_option autoImplicit false

namespace Juxtaposition

inductive Highlight.Shows : Highlight → Provenance → String → Prop where
  | missing : Shows .missing .missing "*"
  | whitespace : Shows .whitespace .whitespace "_"

def Node.operation? : Node → Option (Operator × Provenance)
  | operation operator _ _ provenance => some (operator, provenance)
  | root _ | identifier _ | integer _ | float _ _ | call _ _ | group _ | negation _ => none

/-- The view and the plain text have the same tokens. The operators among them are the reachable
operations, and the view has a marker for each product with the provenance and for nothing else. -/
structure Tree.MarksExactly (tree : Tree) (start : NodeId) (highlight : Highlight)
    (provenance : Provenance) (glyph : String) : Prop where
  restored : Text.replaceAll (reddened glyph) "*" (tree.render highlight start) =
    tree.render .none start
  counted : Text.occurrences (reddened glyph) (tree.render highlight start) =
    tree.countNodes (Node.isProduct provenance) start
  tokens : ∃ tokens : List Token,
    Token.print .none tokens = (tree.render .none start).toList ∧
      Token.print highlight tokens = (tree.render highlight start).toList ∧
      (tokens.filterMap Token.operation?).Perm
        ((tree.preorder start).filterMap fun id => (tree.node id).operation?) ∧
      ∀ token ∈ tokens, '<' ∈ (token.text highlight).toList ↔ token = .sign .mul provenance

variable {highlight : Highlight} {provenance : Provenance} {glyph : String}

/-! ## Operators in a view -/

theorem Highlight.Shows.operatorText_mul (shows : highlight.Shows provenance glyph) :
    highlight.operatorText .mul provenance = reddened glyph := by
  cases shows <;> rfl

theorem Highlight.Shows.operatorText_of_ne (shows : highlight.Shows provenance glyph)
    {operator : Operator} {other : Provenance}
    (different : Token.sign operator other ≠ .sign .mul provenance) :
    highlight.operatorText operator other = operator.symbol := by
  cases shows <;> cases operator <;> cases other <;>
    first | rfl | exact absurd rfl different

theorem Highlight.operatorText_none (operator : Operator) :
    Highlight.none.operatorText operator provenance = operator.symbol := by
  cases operator <;> rfl

theorem Operator.not_mem_symbol (operator : Operator) : '<' ∉ operator.symbol.toList := by
  cases operator <;> decide

/-! ## Operations of a tree -/

theorem Node.operations_expr {node : Node} {below : List Expr}
    (arity : below.length = node.children.length) :
    (node.expr below).operations.Perm
      (node.operation?.toList ++ below.flatMap Expr.operations) := by
  cases node with
  | root body =>
      obtain ⟨only, rfl⟩ := List.length_eq_one_iff.mp arity
      simp [expr, operation?]
  | identifier name =>
      obtain rfl := List.length_eq_zero_iff.mp arity
      exact .refl _
  | integer value =>
      obtain rfl := List.length_eq_zero_iff.mp arity
      exact .refl _
  | float value literal =>
      obtain rfl := List.length_eq_zero_iff.mp arity
      cases literal <;> exact .refl _
  | call callee arguments =>
      obtain ⟨first, rest, rfl⟩ := List.exists_cons_of_length_eq_add_one arity
      simp [expr, operation?, Expr.operations_call]
  | operation operator lhs rhs provenance =>
      obtain ⟨left, right, rfl⟩ := List.length_eq_two.mp arity
      simp only [expr, operation?, Expr.operations_operation, Option.toList_some,
        List.flatMap_cons, List.flatMap_nil, List.append_nil]
      exact List.perm_middle
  | group items => simp [expr, operation?, Expr.operations_group]
  | negation operand =>
      obtain ⟨only, rfl⟩ := List.length_eq_one_iff.mp arity
      simp [expr, operation?, Expr.operations_negation]

theorem Node.isProduct_eq (node : Node) :
    node.isProduct provenance = decide (node.operation? = some (.mul, provenance)) := by
  cases node with
  | operation operator lhs rhs found =>
      cases operator <;> simp [isProduct, operation?]
  | _ => rfl

namespace Tree

variable {tree : Tree} {layout : Layout}

theorem Spans.operations_exprAlong (spans : tree.Spans layout) :
    (tree.exprAlong layout).operations.Perm
      (layout.places.filterMap fun id => (tree.node id).operation?) := by
  induction spans with
  | @node place below children _ _ _ ih =>
      have arity : (below.map tree.exprAlong).length = (tree.node place).children.length := by
        rw [show (tree.node place).children = _ from children, List.length_map, List.length_map]
      have inner : ((below.map tree.exprAlong).flatMap Expr.operations).Perm
          ((below.flatMap Layout.places).filterMap fun id => (tree.node id).operation?) := by
        rw [List.flatMap_map, List.filterMap_flatMap]
        exact List.Perm.flatMap_left _ ih
      rw [exprAlong_node, Layout.places_node, List.filterMap_cons]
      refine (Node.operations_expr arity).trans ?_
      cases (tree.node place).operation? with
      | none => exact inner
      | some operation => exact inner.cons operation

end Tree

/-! ## Tokens of a view -/

theorem exists_toList_reddened (glyph : String) :
    ∃ others, (reddened glyph).toList = '<' :: others := by
  have opening : "<font color=\"red\">".toList = '<' :: "font color=\"red\">".toList := by decide
  have text : (reddened glyph).toList =
      "<font color=\"red\">".toList ++ (glyph ++ "</font>").toList := by
    unfold reddened
    rw [String.append_assoc]
    exact String.toList_append
  exact ⟨_, text.trans (congrArg (· ++ (glyph ++ "</font>").toList) opening)⟩

namespace Highlight.Shows

variable (shows : highlight.Shows provenance glyph)

include shows

theorem text_eq (token : Token) :
    token.text highlight =
      if token = .sign .mul provenance then reddened glyph else token.text .none := by
  cases token with
  | plain text => rfl
  | sign operator other =>
      split
      · next same =>
        cases same
        exact shows.operatorText_mul
      · next different =>
        exact (shows.operatorText_of_ne different).trans
          (operatorText_none operator).symm

/-- Only the text of a highlighted product has a bracket of a marker. -/
theorem mem_text_iff {token : Token} (free : '<' ∉ (token.text .none).toList) :
    '<' ∈ (token.text highlight).toList ↔ token = .sign .mul provenance := by
  obtain ⟨others, marker⟩ := exists_toList_reddened glyph
  rw [shows.text_eq]
  constructor
  · intro member
    by_contra different
    rw [if_neg different] at member
    exact free member
  · intro same
    rw [if_pos same, marker]
    exact List.mem_cons_self

end Highlight.Shows

theorem Expr.free_of_mem_tokens {expr : Expr} (free : ∀ leaf ∈ expr.leaves, '<' ∉ leaf.text.toList) :
    ∀ token ∈ expr.tokens, '<' ∉ (token.text .none).toList := by
  have marks : ∀ text ∈ Token.marks, '<' ∉ text.toList := by decide
  refine forall_mem_tokens marks (fun operator other => ?_) free
  rw [Token.text, Highlight.operatorText_none]
  exact operator.not_mem_symbol

section Tokens

variable {tokens : List Token} (shows : highlight.Shows provenance glyph)
  (free : ∀ token ∈ tokens, '<' ∉ (token.text .none).toList)

include shows free

theorem Token.exists_spells : ∃ others, (reddened glyph).toList = '<' :: others ∧
    Text.Spells '<' others (fun token => (Token.text highlight token).toList)
      (fun token => decide (token = .sign .mul provenance)) tokens := by
  obtain ⟨others, marker⟩ := exists_toList_reddened glyph
  refine ⟨others, marker, ?_, ?_⟩
  · intro token _ isMarker
    rw [shows.text_eq, if_pos (of_decide_eq_true isMarker), marker]
  · intro token member notMarker
    rw [shows.mem_text_iff (free token member)]
    exact of_decide_eq_false notMarker

theorem Token.replaceAll_print :
    Text.replaceAll (reddened glyph) "*" (String.ofList (print highlight tokens)) =
      String.ofList (print .none tokens) := by
  obtain ⟨others, marker, spells⟩ := exists_spells shows free
  have star : "*".toList = ['*'] := by decide
  rw [Text.replaceAll, marker, star, String.toList_ofList, print, spells.replaceFrom_eq]
  refine congrArg String.ofList (List.flatMap_congr fun token _ => ?_)
  rw [shows.text_eq]
  by_cases same : token = .sign .mul provenance
  · rw [same, if_pos (decide_eq_true rfl), text, Highlight.operatorText_none]
    exact star.symm
  · rw [if_neg (by simpa using same), if_neg same]

theorem Token.occurrences_print :
    Text.occurrences (reddened glyph) (String.ofList (print highlight tokens)) =
      (tokens.filterMap operation?).count (.mul, provenance) := by
  obtain ⟨others, marker, spells⟩ := exists_spells shows free
  rw [Text.occurrences, marker, String.toList_ofList, print, spells.occurrencesFrom_eq,
    List.count_eq_countP, List.countP_filterMap]
  refine List.countP_congr fun token _ => ?_
  cases token <;> simp [operation?]

end Tokens

namespace Tree

variable {tree : Tree} {layout part : Layout} {start : NodeId}

theorem Planted.count_operations (planted : tree.Planted layout) (inside : part.Within layout) :
    (tree.exprAlong part).operations.count (.mul, provenance) =
      tree.countNodes (Node.isProduct provenance) part.place := by
  have listed := (planted.spans.within inside).operations_exprAlong
  rw [listed.count_eq, planted.countNodes_place inside, List.count_eq_countP,
    List.countP_filterMap]
  refine List.countP_congr fun id _ => ?_
  rw [Node.isProduct_eq]
  cases (tree.node id).operation? <;> simp

theorem Planted.marksExactly (planted : tree.Planted layout) (inside : part.Within layout)
    (free : ∀ leaf ∈ (tree.exprAlong part).leaves, '<' ∉ leaf.text.toList)
    (shows : highlight.Shows provenance glyph) :
    tree.MarksExactly part.place highlight provenance glyph := by
  have found := planted.expr?_place inside
  have printed (view : Highlight) : (tree.render view part.place) =
      String.ofList (Token.print view (tree.exprAlong part).tokens) := by
    rw [Tree.render, found, Expr.print_tokens, String.ofList_toList]
  have freeTokens := Expr.free_of_mem_tokens free
  constructor
  case restored =>
    rw [printed, printed]
    exact Token.replaceAll_print shows freeTokens
  case counted =>
    rw [printed, Token.occurrences_print shows freeTokens]
    exact planted.count_operations inside
  case tokens =>
    refine ⟨(tree.exprAlong part).tokens, ?_, ?_, ?_, ?_⟩
    · rw [printed, String.toList_ofList]
    · rw [printed, String.toList_ofList]
    · rw [planted.preorder_place inside]
      exact (planted.spans.within inside).operations_exprAlong
    · exact fun token member => shows.mem_text_iff (freeTokens token member)

/-- With names and literals that have no bracket of a marker, a view marks the products that it
highlights and is the plain text otherwise. -/
theorem render_marks (sound : tree.check = .ok ()) (reached : tree.Reaches root start)
    (names : ∀ id name, tree.Reaches start id → tree.node id = .identifier name →
      '<' ∉ name.toList)
    (literals : ∀ id value literal, tree.Reaches start id →
      tree.node id = .float value (some literal) → '<' ∉ literal.toList) :
    tree.MarksExactly start .missing .missing "*" ∧
      tree.MarksExactly start .whitespace .whitespace "_" := by
  obtain ⟨layout, planted⟩ := check_eq_ok_iff.mp sound
  obtain ⟨part, inside, rfl⟩ := Layout.exists_within_of_mem (planted.reaches_iff.mp reached)
  have spans := planted.spans.within inside
  have bracket : Decimal.isNumeric '<' = false := by decide
  have free : ∀ leaf ∈ (tree.exprAlong part).leaves, '<' ∉ leaf.text.toList := by
    intro leaf member
    rw [spans.leaves_exprAlong] at member
    obtain ⟨id, listed, isLeaf⟩ := List.mem_filterMap.mp member
    have below := spans.reaches_iff.mpr listed
    have node := Node.leaf?_eq_some_iff.mp isLeaf
    cases leaf with
    | name text => exact names id text below node
    | integer value => exact (Decimal.IsNumeric.ofInt _).not_mem bracket
    | float value literal =>
        cases literal with
        | none => exact value.isNumeric_text.not_mem bracket
        | some literal => exact literals id value literal below node
  exact ⟨planted.marksExactly inside free .missing, planted.marksExactly inside free .whitespace⟩

/-- The tree of `a b*1e5`, with a space for one of the products. -/
def threeFactors : Tree :=
  ⟨#[⟨.root ⟨1⟩, none⟩, ⟨.operation .mul ⟨2⟩ ⟨3⟩ .whitespace, some ⟨0⟩⟩,
    ⟨.identifier "a", some ⟨1⟩⟩, ⟨.operation .mul ⟨4⟩ ⟨5⟩ (.typed ⟨3, 4⟩), some ⟨1⟩⟩,
    ⟨.identifier "b", some ⟨3⟩⟩, ⟨.float ⟨0x40f86a0000000000⟩ (some "1e5"), some ⟨3⟩⟩]⟩

theorem render_marks_threeFactors :
    threeFactors.check = .ok () ∧ threeFactors.Reaches root ⟨1⟩ ∧
      (∀ id name, threeFactors.Reaches ⟨1⟩ id → threeFactors.node id = .identifier name →
        '<' ∉ name.toList) ∧
      (∀ id value literal, threeFactors.Reaches ⟨1⟩ id →
        threeFactors.node id = .float value (some literal) → '<' ∉ literal.toList) ∧
      Text.replaceAll (reddened "_") "*" (threeFactors.render .whitespace ⟨1⟩) = "a*b*1e5" ∧
      Text.occurrences (reddened "_") (threeFactors.render .whitespace ⟨1⟩) = 1 ∧
      Text.occurrences (reddened "*") (threeFactors.render .missing ⟨1⟩) = 0 := by
  have sound : threeFactors.check = .ok () := by decide
  have reached : threeFactors.Reaches root ⟨1⟩ := .child .refl (by decide)
  have names (id : NodeId) (name : String) (_ : threeFactors.Reaches ⟨1⟩ id)
      (node : threeFactors.node id = .identifier name) : '<' ∉ name.toList := by
    rcases id with ⟨_ | _ | _ | _ | _ | _ | index⟩ <;> cases node <;> decide
  have literals (id : NodeId) (value : Binary64) (literal : String)
      (_ : threeFactors.Reaches ⟨1⟩ id)
      (node : threeFactors.node id = .float value (some literal)) : '<' ∉ literal.toList := by
    rcases id with ⟨_ | _ | _ | _ | _ | _ | index⟩ <;> cases node
    decide
  obtain ⟨missing, whitespace⟩ := render_marks sound reached names literals
  exact ⟨sound, reached, names, literals, whitespace.restored.trans (by decide),
    whitespace.counted.trans (by cbv), missing.counted.trans (by cbv)⟩

end Tree

end Juxtaposition
