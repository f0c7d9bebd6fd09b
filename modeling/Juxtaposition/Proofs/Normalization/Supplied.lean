import Juxtaposition.Proofs.Layout.Parts
import Juxtaposition.Proofs.Normalization.Paths
import Juxtaposition.Proofs.Rule.Operators
import Juxtaposition.Proofs.Tree.KeptLeaves

/-!
# Supplied operations

The operations that a run brings in. They are missing products, except for the sum or the
difference that a literal with a signed exponent becomes, which no later edit touches.
-/

set_option autoImplicit false

namespace Juxtaposition

open Juxtaposition.Tree (root)

namespace Node

theorem exists_operation_of_outline {node : Node} {operator : Operator} {lhs rhs : NodeId}
    {provenance : Provenance} (same : node.outline = .operation operator lhs rhs provenance) :
    ∃ left right, node = .operation operator left right provenance := by
  cases node <;> cases same
  exact ⟨_, _, rfl⟩

theorem eq_float_of_outline {node : Node} {value : Binary64} {literal : Option String}
    (same : node.outline = .float value literal) : node = .float value literal := by
  cases node <;> cases same
  rfl

end Node

namespace Tree

variable {tree edited first last : Tree} {layout part start final : Layout} {options : Options}
  {change : Change} {id : NodeId} {operator : Operator} {provenance : Provenance} {count : Nat}

/-! ## Still parts -/

structure StillPart (options : Options) (tree : Tree) (layout part : Layout) : Prop where
  spans : tree.Spans part
  inside : part.place ∈ layout.places
  height : part.height ≤ tree.size
  still : ∀ id ∈ part.places, (tree.node id).IsStill options

namespace StillPart

theorem expr? (stillPart : StillPart options tree layout part) :
    tree.expr? part.place = some (tree.exprAlong part) :=
  stillPart.spans.exprWithin?_eq stillPart.height

theorem mem (stillPart : StillPart options tree layout part) (planted : tree.Planted layout)
    (member : id ∈ part.places) : id ∈ layout.places :=
  planted.reaches_iff.mp ((planted.reaches_iff.mpr stillPart.inside).trans
    (stillPart.spans.reaches_iff.mpr member))

/-- An edit happens elsewhere. -/
theorem carried (stillPart : StillPart options tree layout part)
    (carried : tree.Carries options layout change edited) :
    StillPart options edited (layout.changed change) part ∧
      edited.exprAlong part = tree.exprAlong part := by
  have planted := carried.planted
  have notTarget : change.target ∉ part.places := fun member =>
    (carried.ne_of_isStill (stillPart.still _ member)).1 rfl
  have nodes (id : NodeId) (member : id ∈ part.places) : edited.node id = tree.node id := by
    refine carried.exchanged.node id (planted.index_lt (stillPart.mem planted member)) ?_
    rintro rfl
    refine notTarget (stillPart.spans.reaches_iff.mp ?_)
    refine .child (stillPart.spans.reaches_iff.mpr member) ?_
    obtain ⟨before, after, outer⟩ := carried.site.outer
    rw [(planted.spans.within outer).children]
    simp
  have links (id : NodeId) (inTail : id ∈ part.places.tail) :
      edited.parent id = tree.parent id := by
    have member := List.mem_of_mem_tail inTail
    refine carried.exchanged.parent id (planted.index_lt (stillPart.mem planted member)) ?_ ?_
    · rintro rfl
      exact notTarget member
    · intro kept
      obtain ⟨top, inHeld, rfl⟩ := List.mem_map.mp kept
      obtain ⟨holder, inPart, link⟩ := stillPart.spans.exists_holder inTail
      have below := (planted.spans.within carried.site.inside).parent
        (carried.site.kept.subset inHeld)
      rw [link, Option.some.injEq] at below
      exact notTarget (below ▸ inPart)
  have same : edited.exprAlong part = tree.exprAlong part :=
    exprAlong_congr fun id member => congrArg Node.expr (nodes id member)
  refine ⟨⟨stillPart.spans.frame nodes links, ?_, ?_, ?_⟩, same⟩
  · exact carried.mem_changed_of_isStill stillPart.inside
      (stillPart.still _ part.place_mem_places)
  · exact Nat.le_trans stillPart.height carried.keepsOutlines.size
  · intro id member
    rw [nodes id member]
    exact stillPart.still id member

end StillPart

/-! ## Literals taken apart -/

private def factors (mantissa : Expr) (marker : Char) (exponent : Int64) : List Node :=
  [.operation .mul root root .missing, mantissa.outline, .identifier (String.ofList [marker]),
    .integer exponent]

private theorem outlines_of_sign (options : Options) {literal : ExponentLiteral} {expr : Expr}
    (sign : literal.sign? = some operator) (read : literal.expr = .ok expr) :
    ∃ mantissa exponent, (mantissa.outline.IsStill options ∧
        ∀ other lhs rhs provenance, mantissa.outline ≠ .operation other lhs rhs provenance) ∧
      expr.outlines = .operation operator root root .missing ::
        factors mantissa literal.marker exponent := by
  obtain ⟨mantissa, exponent, mantissaRead, rfl⟩ := ExponentLiteral.expr_of_sign sign read
  refine ⟨mantissa, exponent, ?_⟩
  rcases ExponentLiteral.mantissaExpr_eq_ok mantissaRead with ⟨value, rfl⟩ | ⟨value, rfl⟩
  · refine ⟨⟨rfl, ?_⟩, by simp [factors, Expr.product, Expr.outlines, Expr.outline]⟩
    intro other lhs rhs provenance same
    cases same
  · refine ⟨⟨trivial, ?_⟩, by simp [factors, Expr.product, Expr.outlines, Expr.outline]⟩
    intro other lhs rhs provenance same
    cases same

/-- What a literal with a signed exponent becomes consists of still nodes. Below the top there
is no other operation than a product. -/
theorem Spans.still_of_sign (spans : tree.Spans part) (options : Options)
    (inner : (tree.node part.place).isRoot = false) {text : String} {literal : ExponentLiteral}
    (found : ExponentLiteral.ofText? text = some literal)
    (sign : literal.sign? = some operator) (read : literal.expr = .ok (tree.exprAlong part)) :
    (∀ id ∈ part.places, (tree.node id).IsStill options) ∧
      ∀ id ∈ part.places, ∀ other lhs rhs provenance,
        tree.node id = .operation other lhs rhs provenance → id = part.place ∨ other = .mul := by
  obtain ⟨mantissa, exponent, ⟨mantissaStill, notOperation⟩, outlines⟩ :=
    outlines_of_sign options sign read
  rw [← spans.outlines_exprAlong inner] at outlines
  cases part with
  | node place below =>
      rw [Layout.places_node, List.map_cons] at outlines
      obtain ⟨top, rest⟩ := List.cons.inj outlines
      have lower (id : NodeId) (member : id ∈ below.flatMap Layout.places) :
          (tree.node id).outline ∈ factors mantissa literal.marker exponent := by
        rw [← rest]
        exact List.mem_map_of_mem member
      simp only [factors, List.mem_cons, List.not_mem_nil, or_false] at lower
      constructor
      · intro id member
        rw [← Node.isStill_outline]
        rw [Layout.places_node] at member
        rcases List.mem_cons.mp member with rfl | below
        · rw [top]
          trivial
        · rcases lower id below with same | same | same | same
          · rw [same]
            trivial
          · rwa [same]
          · rw [same]
            exact fun isCallee => ExponentLiteral.split_marker found
          · rw [same]
            trivial
      · intro id member other lhs rhs provenance operation
        rw [Layout.places_node] at member
        refine (List.mem_cons.mp member).imp_right fun below => ?_
        have here := lower id below
        rw [operation] at here
        rcases here with same | same | same | same
        · cases same
          rfl
        · exact absurd same.symm (notOperation _ _ _ _)
        · cases same
        · cases same

/-! ## Supplied operations -/

/-- The operator at a place is the sign of the exponent of a literal that the first tree had,
and the literal's reading is below it. -/
def SignAt (options : Options) (first : Tree) (start : Layout) (tree : Tree) (layout : Layout)
    (id : NodeId) (operator : Operator) : Prop :=
  ∃ source value text literal part, source ∈ start.places ∧
    first.node source = .float value (some text) ∧
    ExponentLiteral.ofText? text = some literal ∧ literal.sign? = some operator ∧
    part.place = id ∧ StillPart options tree layout part ∧
    literal.expr = .ok (tree.exprAlong part)

/-- All that a later tree has more than the first one: no number with a literal, and no other
operations than missing products and signs of exponents. -/
structure Supplies (options : Options) (first : Tree) (start : Layout) (tree : Tree)
    (layout : Layout) : Prop where
  literals : ∀ id ∈ layout.places, ∀ value text, tree.node id = .float value (some text) →
    id ∈ start.places ∧ first.node id = .float value (some text)
  operations : ∀ id ∈ layout.places, id ∉ start.places → ∀ operator lhs rhs provenance,
    tree.node id = .operation operator lhs rhs provenance → provenance = .missing ∧
      (operator = .mul ∨ SignAt options first start tree layout id operator)

namespace Carries

/-- A new node says what it said when the draft was stored. -/
private theorem outline_stored (carried : tree.Carries options layout change edited) {node : Node}
    (here : edited.node id = node) :
    ((change.draft.store tree).2.node id).outline = node.outline := by
  by_cases inside : id.index < (change.draft.store tree).2.size
  · have keeps := keepsOutlines_replace (Draft.store_fst_lt carried.offer.isNew tree)
      carried.replaced
    rw [← keeps.outline id inside, here]
  · have beyond := Nat.le_of_not_lt inside
    have size := size_replace carried.replaced
    rw [← here, node_of_size_le _ id beyond, node_of_size_le edited id (size ▸ beyond)]

private theorem stillPart_grafted (carried : tree.Carries options layout change edited)
    (still : ∀ id ∈ change.grafted.places, (edited.node id).IsStill options) :
    StillPart options edited (layout.changed change) change.grafted where
  spans := carried.exchanged.spans
  inside := carried.mem_changed_iff.mpr (.inr change.grafted.place_mem_places)
  height := Nat.le_trans change.grafted.height_le_length
    (length_le_size carried.exchanged.nodup fun _ member =>
      carried.planted_changed.index_lt (carried.mem_changed_iff.mpr (.inr member)))
  still := still

/-- An operation that an edit brings in. -/
private theorem operation_of_fresh (carried : tree.Carries options layout change edited)
    (supplies : Supplies options first start tree layout) (fresh : tree.size ≤ id.index)
    (grafted : id ∈ change.grafted.places) {lhs rhs : NodeId}
    (operation : edited.node id = .operation operator lhs rhs provenance) :
    provenance = .missing ∧ (operator = .mul ∨
      SignAt options first start edited (layout.changed change) id operator) := by
  have outline := carried.outline_stored operation
  obtain ⟨left, right, stored⟩ := Node.exists_operation_of_outline outline
  rcases Draft.operation_store_cases stored with before | ⟨missing, member⟩
  · rw [node_of_size_le tree id fresh] at before
    cases before
  refine ⟨missing, ?_⟩
  rcases operators_of_proposed carried.proposed with
    products | ⟨value, text, literal, float, found, drafted⟩
  · exact .inl (products operator member)
  rcases ExponentLiteral.mem_operators_draft drafted member with product | sign
  · exact .inl product
  have read : literal.expr = .ok (edited.exprAlong change.grafted) := by
    rw [literal.expr_eq tree.read, drafted, carried.reading]
    rfl
  obtain ⟨still, operations⟩ := carried.exchanged.spans.still_of_sign options
    carried.exchanged.isRoot found sign read
  rcases operations id grafted _ _ _ _ operation with top | product
  · have visited : change.visited ∈ layout.places :=
      carried.site.inside.sublist.subset carried.offer.visited
    obtain ⟨before, same⟩ := supplies.literals _ visited value text float
    exact .inr ⟨change.visited, value, text, literal, change.grafted, before, same, found, sign,
      top.symm, carried.stillPart_grafted still, read⟩
  · exact .inl product

private theorem signAt (carried : tree.Carries options layout change edited)
    (sign : SignAt options first start tree layout id operator) :
    SignAt options first start edited (layout.changed change) id operator := by
  obtain ⟨source, value, text, literal, part, before, float, found, signed, place, stillPart,
    read⟩ := sign
  obtain ⟨kept, same⟩ := stillPart.carried carried
  exact ⟨source, value, text, literal, part, before, float, found, signed, place, kept,
    by rw [same, read]⟩

theorem supplies (carried : tree.Carries options layout change edited)
    (supplies : Supplies options first start tree layout) :
    Supplies options first start edited (layout.changed change) where
  literals id member value text float := by
    rcases carried.mem_or_fresh member with old | ⟨fresh, _⟩
    · have outline := carried.outline old
      rw [float] at outline
      exact supplies.literals id old value text (Node.eq_float_of_outline outline.symm)
    · have stored := Draft.float_of_store (Node.eq_float_of_outline (carried.outline_stored float))
      rw [node_of_size_le tree id fresh] at stored
      cases stored
  operations id member new operator lhs rhs provenance operation := by
    rcases carried.mem_or_fresh member with old | ⟨fresh, grafted⟩
    · have outline := carried.outline old
      rw [operation] at outline
      obtain ⟨left, right, before⟩ := Node.exists_operation_of_outline outline.symm
      obtain ⟨missing, cause⟩ := supplies.operations id old new operator left right provenance before
      exact ⟨missing, cause.imp_right carried.signAt⟩
    · exact carried.operation_of_fresh supplies fresh grafted operation

end Carries

theorem Evolves.supplies (evolves : Evolves options count tree layout last final)
    (supplies : Supplies options first start tree layout) :
    Supplies options first start last final := by
  induction evolves with
  | refl => exact supplies
  | cons carried _ ih => exact ih (carried.supplies supplies)

end Tree

end Juxtaposition
