import Juxtaposition.Proofs.Rule.Verdict
import Juxtaposition.Proofs.Text.Words
import Juxtaposition.Proofs.Tree.KeptLeaves

/-!
# Integers that rules make

Every integer that a rule proposes is spelled out by digits of the name or literal that it
judges. None of them is cut short or wraps around.
-/

set_option autoImplicit false

namespace Juxtaposition

/-! ## Stored integers -/

namespace Draft

def integers : Draft → List Int64
  | kept _ | identifier _ | float _ | call _ _ | group _ => []
  | integer value => [value]
  | operation _ first second | factor first second => first.integers ++ second.integers

theorem store_keepsLeaves (draft : Draft) (tree : Tree) :
    tree.KeepsLeaves (draft.store tree).2 := by
  induction draft generalizing tree with
  | kept id => exact .refl tree
  | identifier name => exact tree.store_keepsLeaves _
  | integer value => exact tree.store_keepsLeaves _
  | float value => exact tree.store_keepsLeaves _
  | call name arguments => exact (tree.store_keepsLeaves _).trans (Tree.store_keepsLeaves _ _)
  | group items => exact tree.store_keepsLeaves _
  | operation operator lhs rhs lhsKeeps rhsKeeps =>
      exact ((lhsKeeps tree).trans (rhsKeeps _)).trans (Tree.store_keepsLeaves _ _)
  | factor first rest firstKeeps restKeeps =>
      exact ((restKeeps tree).trans (firstKeeps _)).trans (Tree.store_keepsLeaves _ _)

private theorem integer_store_node {tree : Tree} {node : Node} {id : NodeId} {value : Int64}
    (found : (tree.store node).2.node id = .integer value) :
    tree.node id = .integer value ∨ node = .integer value := by
  rw [Tree.node_store] at found
  split at found
  · exact .inr found
  · exact .inl found

/-- What is an integer after a draft is stored was one before, or the draft has added it. -/
theorem integer_store_cases {draft : Draft} {tree : Tree} {id : NodeId} {value : Int64}
    (found : (draft.store tree).2.node id = .integer value) :
    tree.node id = .integer value ∨ value ∈ draft.integers := by
  induction draft generalizing tree with
  | kept id => exact .inl found
  | identifier name => exact (integer_store_node found).imp_right nofun
  | float value => exact (integer_store_node found).imp_right nofun
  | group items => exact (integer_store_node found).imp_right nofun
  | integer other =>
      rcases integer_store_node found with earlier | same
      · exact .inl earlier
      · cases same
        exact .inr (List.mem_singleton_self _)
  | call name arguments =>
      rcases integer_store_node found with callee | same
      · exact (integer_store_node callee).imp_right nofun
      · cases same
  | operation operator lhs rhs lhsCases rhsCases =>
      rcases integer_store_node found with inner | same
      · rcases rhsCases inner with before | member
        · exact (lhsCases before).imp_right (List.mem_append_left _)
        · exact .inr (List.mem_append_right _ member)
      · cases same
  | factor first rest firstCases restCases =>
      rcases integer_store_node found with inner | same
      · rcases firstCases inner with before | member
        · exact (restCases before).imp_right (List.mem_append_right _)
        · exact .inr (List.mem_append_left _ member)
      · cases same

end Draft

/-! ## Numbers in a leaf -/

/-- The whole numbers that digits in a name or a literal stand for: a numeral at the start of
a name or digits at its end, and what is written on either side of an exponent marker. The
sign of an exponent is not its own. -/
inductive Leaf.Spells : Leaf → Int → Prop where
  | lead {name digits : String} {rest : List String} :
      Text.pieces name = digits :: rest → Text.isNumeral digits = true →
      Spells (.name name) (Text.digitsValue digits.toList)
  | trailing {name : String} : Text.isNumeral (Text.trailingDigits name) = true →
      Spells (.name name) (Text.digitsValue (Text.trailingDigits name).toList)
  | exponent {value : Binary64} {text : String} {literal : ExponentLiteral} :
      ExponentLiteral.ofText? text = some literal →
      Spells (.float value (some text))
        (Text.digitsValue (Text.leadingDigits literal.exponent).toList)
  | mantissa {value : Binary64} {text : String} {literal : ExponentLiteral} :
      ExponentLiteral.ofText? text = some literal → literal.mantissa.toList.contains '.' = false →
      Spells (.float value (some text)) (Text.decimalStart literal.mantissa)

namespace NamePiece

theorem mem_integers_draftWith {arguments : Option (List NodeId)} {piece : NamePiece}
    {value : Int64} (member : value ∈ (piece.draftWith arguments).integers) :
    piece = .number value := by
  cases piece with
  | name text => cases arguments <;> cases member
  | number other =>
      have same : value ∈ [other] := by
        cases arguments with
        | none => exact member
        | some arguments => simpa [draftWith, Draft.integers] using member
      rw [List.mem_singleton.mp same]

theorem mem_integers_chain {arguments : Option (List NodeId)} {piece : NamePiece}
    {rest : List NamePiece} {value : Int64}
    (member : value ∈ (chain arguments piece rest).integers) :
    number value ∈ piece :: rest := by
  induction rest generalizing piece with
  | nil =>
      rw [mem_integers_draftWith member]
      exact List.mem_cons_self
  | cons following rest ih =>
      rcases List.mem_append.mp member with first | later
      · have here : value ∈ (piece.draftWith none).integers := first
        rw [mem_integers_draftWith here]
        exact List.mem_cons_self
      · exact List.mem_cons_of_mem _ (ih later)

end NamePiece

/-- A factor that is a number is the numeral at the start of the name. -/
theorem Options.spells_of_pieces {options : Options} {isCallee : Bool} {name : String}
    {first second : NamePiece} {rest : List NamePiece} {value : Int64}
    (split : options.split isCallee name = .pieces first second rest)
    (member : .number value ∈ first :: second :: rest) : (Leaf.name name).Spells value.toInt := by
  obtain ⟨_, _, read⟩ := split_eq_pieces split
  obtain ⟨text, inside, factor⟩ := NamePiece.exists_of_mem_mapM read member
  obtain ⟨numeral, found⟩ := NamePiece.ofText_eq_number factor
  rw [Text.toInt_of_readInteger numeral found]
  cases shape : Text.pieces name with
  | nil => rw [shape] at inside; cases inside
  | cons leading later =>
      rw [shape] at inside
      rcases List.mem_cons.mp inside with rfl | inTail
      · exact .lead shape numeral
      · have mixed : text ∈ (Text.pieces name).tail := by rwa [shape]
        rw [Text.isNumeral_eq_false_of_mem_tail mixed] at numeral
        cases numeral

theorem Options.spells_of_trailing {options : Options} {isCallee : Bool} {name letters : String}
    {value : Int64} (split : options.split isCallee name = .trailing letters value) :
    (Leaf.name name).Spells value.toInt := by
  obtain ⟨digits, rfl, _, areLetters, numeral, read⟩ :=
    splitEnd_eq_trailing (split_eq_trailing split)
  have ends := Text.trailingDigits_append areLetters (Text.isNumeral_iff.mp numeral).2
  rw [← String.toList_append, String.ofList_toList, String.ofList_toList] at ends
  rw [Text.toInt_of_readInteger numeral read]
  have spelled := Leaf.Spells.trailing (by rw [ends]; exact numeral)
  rwa [ends] at spelled

namespace ExponentLiteral

variable {literal : ExponentLiteral} {draft : Draft}

theorem mem_integers_mantissaDraft {value : Int64} (drafted : literal.mantissaDraft = .ok draft)
    (member : value ∈ draft.integers) :
    literal.mantissa.toList.contains '.' = false ∧
      value.toInt = Text.decimalStart literal.mantissa := by
  unfold mantissaDraft at drafted
  split at drafted
  · cases drafted
    cases member
  · next integral =>
    cases read : Text.readIntegerStart literal.mantissa with
    | error number => rw [read] at drafted; cases drafted
    | ok other =>
        rw [read] at drafted
        cases drafted
        rw [List.mem_singleton.mp member]
        exact ⟨by simpa using integral, Text.toInt_of_readIntegerStart read⟩

theorem toInt_exponent_of_unsigned {value : Int64} (unsigned : literal.sign? = none)
    (read : Text.readIntegerStart literal.exponent = .ok value) :
    value.toInt = Text.digitsValue (Text.leadingDigits literal.exponent).toList := by
  have positive : (Text.splitSign literal.exponent.toList).1 = false := by
    rw [sign?] at unsigned
    unfold Text.splitSign
    split
    · next minus => rw [minus] at unsigned; cases unsigned
    · rfl
    · rfl
  rw [Text.toInt_of_readIntegerStart read, Text.decimalStart, positive]
  rfl

/-- A literal that is taken apart gives the numbers on both sides of its marker. -/
theorem spells_of_draft {text : String} {decimal : Binary64} {value : Int64}
    (found : ofText? text = some literal) (drafted : literal.draft = .ok draft)
    (member : value ∈ draft.integers) : (Leaf.float decimal (some text)).Spells value.toInt := by
  unfold ExponentLiteral.draft at drafted
  cases exponent : Text.readIntegerStart literal.exponent with
  | error number => rw [exponent] at drafted; cases drafted
  | ok power =>
      cases mantissa : literal.mantissaDraft with
      | error number => rw [exponent, mantissa] at drafted; cases drafted
      | ok factor =>
          have spelled (inFactor : value ∈ factor.integers) :
              (Leaf.float decimal (some text)).Spells value.toInt := by
            obtain ⟨integral, exact⟩ := mem_integers_mantissaDraft mantissa inFactor
            rw [exact]
            exact .mantissa found integral
          simp only [exponent, mantissa, bind, Except.bind] at drafted
          cases sign : literal.sign? with
          | none =>
              rw [sign] at drafted
              cases drafted
              simp only [Draft.integers, List.mem_append, List.not_mem_nil, List.mem_singleton,
                false_or] at member
              rcases member with inFactor | rfl
              · exact spelled inFactor
              · rw [toInt_exponent_of_unsigned sign exponent]
                exact .exponent found
          | some operator =>
              rw [sign] at drafted
              cases drafted
              simp only [Draft.integers, List.mem_append, List.not_mem_nil, List.mem_singleton,
                or_false] at member
              rcases member with inFactor | rfl
              · exact spelled inFactor
              · rw [Text.toInt_abs_of_readIntegerStart exponent]
                exact .exponent found

end ExponentLiteral

/-! ## Proposed integers -/

/-- Every integer of a proposal is spelled out in the leaf that the proposal is about. -/
theorem Tree.spells_of_proposed {tree : Tree} {options : Options} {id target : NodeId}
    {draft : Draft} {value : Int64}
    (proposed : (tree.verdict options id).gist = .ok (some (target, draft)))
    (member : value ∈ draft.integers) :
    ∃ leaf, (tree.node id).leaf? = some leaf ∧ leaf.Spells value.toInt := by
  rcases tree.gist_verdict_cases options id with
    ⟨name, named⟩ | ⟨callee, arguments, call⟩ | ⟨decimal, literal, float⟩ | declined
  · refine ⟨.name name, by rw [named]; rfl, ?_⟩
    rw [gist_verdict_name named] at proposed
    cases split : options.split (tree.isCallee id) name with
    | whole => rw [split] at proposed; cases proposed
    | oversized number => rw [split] at proposed; cases proposed
    | pieces first second rest =>
        rw [split] at proposed
        cases proposed
        exact Options.spells_of_pieces split (NamePiece.mem_integers_chain member)
    | trailing letters other =>
        rw [split] at proposed
        cases proposed
        cases NamePiece.mem_integers_draftWith (List.mem_append_right [] member)
        exact Options.spells_of_trailing split
  · rcases gist_verdict_call_cases options call with judged | judged
    · rw [judged] at proposed
      cases proposed
    · rw [judged] at proposed
      cases proposed
      cases member
  · refine ⟨.float decimal literal, by rw [float]; rfl, ?_⟩
    rw [gist_verdict_float float] at proposed
    rcases literalGist_cases options id literal with
      ⟨silent, _⟩ | ⟨text, parts, rfl, _, found, judged⟩
    · rw [silent] at proposed
      cases proposed
    · rw [judged] at proposed
      cases drafted : parts.draft with
      | error number => rw [drafted] at proposed; cases proposed
      | ok result =>
          rw [drafted] at proposed
          cases proposed
          exact ExponentLiteral.spells_of_draft found drafted member
  · rw [declined] at proposed
    cases proposed

def Tree.AddsSpelled (tree later : Tree) (source : NodeId) : Prop :=
  ∀ (id : NodeId) value, tree.size ≤ id.index → later.node id = .integer value →
    ∃ leaf, (tree.node source).leaf? = some leaf ∧ leaf.Spells value.toInt

theorem Tree.addsSpelled_store {tree : Tree} {options : Options} {id target : NodeId}
    {draft : Draft} (proposed : (tree.verdict options id).gist = .ok (some (target, draft))) :
    tree.AddsSpelled (draft.store tree).2 id := by
  intro other value fresh found
  rcases Draft.integer_store_cases found with earlier | member
  · exact absurd fresh (Nat.not_le_of_lt (index_lt_of_integer earlier))
  · exact spells_of_proposed proposed member

end Juxtaposition
