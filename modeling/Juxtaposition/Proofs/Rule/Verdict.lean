import Juxtaposition.Proofs.Rule.LetterDigit
import Juxtaposition.Proofs.Tree.Calls
import Juxtaposition.Rule.Battery

/-!
# Verdicts

What the standard rules together make of a node. A name is judged by how it comes
apart, a call by its callee, and a decimal number by its literal.
-/

set_option autoImplicit false

namespace Juxtaposition

structure Detector where
  name : String
  detect : Options → Tree → NodeId → Detection

inductive Verdict where
  | declined
  | oversized (rule : String) (number : Oversized)
  | proposed (rule : String) (proposal : Proposal)

namespace Verdict

def gist : Verdict → Except Oversized (Option (NodeId × Draft))
  | declined => .ok none
  | oversized _ number => .error number
  | proposed _ proposal => .ok (some (proposal.target, proposal.draft))

def after (rule : String) : Detection → Verdict → Verdict
  | .ok none, verdict => verdict
  | .ok (some proposal), _ => proposed rule proposal
  | .error number, _ => oversized rule number

end Verdict

namespace Detector

def rule (detector : Detector) : Rule :=
  .ofDetector detector.name detector.detect

def verdict (detectors : List Detector) (options : Options) (tree : Tree) (id : NodeId) : Verdict :=
  detectors.foldr
    (fun detector later => later.after detector.name (detector.detect options tree id)) .declined

def standard : List Detector :=
  [⟨"Call Of Call", Rule.detectCallOfCall⟩,
    ⟨"Function Name Shape", Rule.detectFunctionNameShape⟩,
    ⟨"Letter Digit Pair", Rule.detectName Rule.splitLetterDigit⟩,
    ⟨"Split Digit Runs", Rule.detectName Rule.splitDigitRuns⟩,
    ⟨"Split Trailing Digits", Rule.detectName Rule.splitTrailingDigits⟩,
    ⟨"Split Exponent Literal", Rule.detectExponentLiteral⟩]

theorem map_rule_standard : standard.map rule = Rule.standard := rfl

end Detector

namespace Tree

def verdict (tree : Tree) (options : Options) (id : NodeId) : Verdict :=
  Detector.verdict Detector.standard options tree id

variable {tree : Tree} {options : Options} {id : NodeId}

theorem verdict_eq : tree.verdict options id =
    ((((((Verdict.declined.after "Split Exponent Literal"
      (Rule.detectExponentLiteral options tree id)).after "Split Trailing Digits"
      (Rule.detectName Rule.splitTrailingDigits options tree id)).after "Split Digit Runs"
      (Rule.detectName Rule.splitDigitRuns options tree id)).after "Letter Digit Pair"
      (Rule.detectName Rule.splitLetterDigit options tree id)).after "Function Name Shape"
      (Rule.detectFunctionNameShape options tree id)).after "Call Of Call"
      (Rule.detectCallOfCall options tree id)) := rfl

/-! ## Rules for other kinds of nodes -/

theorem detectCallOfCall_of_not_call (other : tree.callAt? id = none) :
    Rule.detectCallOfCall options tree id = .ok none := by
  simp only [Rule.detectCallOfCall, other]

theorem detectFunctionNameShape_of_not_call (other : tree.callAt? id = none) :
    Rule.detectFunctionNameShape options tree id = .ok none := by
  simp only [Rule.detectFunctionNameShape, other]

theorem detectName_of_not_name {split : Options → Tree → NodeId → String → Detection}
    (other : tree.name? id = none) : Rule.detectName split options tree id = .ok none := by
  simp only [Rule.detectName, other]

theorem detectName_eq {split : Options → Tree → NodeId → String → Detection} {name : String}
    (named : tree.node id = .identifier name) :
    Rule.detectName split options tree id =
      if options.exemptsName (tree.isCallee id) name then .ok none
      else split options tree id name := by
  have found := name?_eq_some_iff.mpr named
  simp only [Rule.detectName, Options.exempts, found]

theorem detectExponentLiteral_of_not_float
    (other : ∀ value literal, tree.node id ≠ .float value literal) :
    Rule.detectExponentLiteral options tree id = .ok none := by
  unfold Rule.detectExponentLiteral
  split
  · rfl
  · split
    · next value text float => exact absurd float (other value (some text))
    · rfl

/-! ## Names -/

/-- The node that a name's product takes the place of, and the arguments it takes. -/
def spot (tree : Tree) (id : NodeId) : NodeId × Option (List NodeId) :=
  match tree.callHeadedBy? id with
  | some (call, arguments) => (call, some arguments)
  | none => (id, none)

end Tree

def Split.gist (spot : NodeId × Option (List NodeId)) :
    Split → Except Oversized (Option (NodeId × Draft))
  | whole => .ok none
  | oversized number => .error number
  | pieces first second rest => .ok (some (spot.1, NamePiece.chain spot.2 first (second :: rest)))
  | trailing letters value =>
      .ok (some (spot.1, .product (.identifier letters) ((NamePiece.number value).draftWith spot.2)))

namespace Tree

variable {tree : Tree} {options : Options} {id : NodeId} {name : String}

theorem isSome_spot (tree : Tree) (id : NodeId) : (tree.spot id).2.isSome = tree.isCallee id := by
  unfold spot isCallee
  cases tree.callHeadedBy? id <;> rfl

theorem forName_eq (draft : Option (List NodeId) → Draft) (description : String) :
    Proposal.forName tree id draft description =
      ⟨(tree.spot id).1, draft (tree.spot id).2, description⟩ := by
  unfold Proposal.forName spot
  cases tree.callHeadedBy? id <;> rfl

theorem spot_of_not_callee (value : tree.isCallee id = false) : tree.spot id = (id, none) := by
  unfold isCallee at value
  rw [Option.isSome_eq_false_iff, Option.isNone_iff_eq_none] at value
  rw [spot, value]

private theorem gist_splitTrailingDigits {later : Verdict} (declined : later.gist = .ok none) :
    (later.after "Split Trailing Digits" (Rule.splitTrailingDigits options tree id name)).gist =
      (options.splitEnd name).gist (tree.spot id) := by
  unfold Rule.splitTrailingDigits Options.splitEnd
  cases Text.splitAtDigit name with
  | mk letters digits =>
      dsimp only
      split
      · exact declined
      · cases Text.readInteger digits with
        | error number => rfl
        | ok value =>
            simp only [bind, Except.bind, forName_eq]
            rfl

theorem splitDigitRuns_of_short (short : (Text.pieces name).length < 2) :
    Rule.splitDigitRuns options tree id name = .ok none := by
  unfold Rule.splitDigitRuns
  cases shape : Text.pieces name with
  | nil => rfl
  | cons first rest =>
      cases rest with
      | nil => rfl
      | cons second rest =>
          rw [shape, List.length_cons, List.length_cons] at short
          omega

private theorem gist_splitDigitRuns {later : Verdict} {isCallee : Bool}
    (free : options.exemptsName isCallee name = false) (long : ¬ (Text.pieces name).length < 2) :
    (later.after "Split Digit Runs" (Rule.splitDigitRuns options tree id name)).gist =
      (options.split isCallee name).gist (tree.spot id) := by
  unfold Rule.splitDigitRuns Options.split
  rw [free, if_neg Bool.false_ne_true, if_neg long]
  split
  · next shape => simp [shape] at long
  · next shape => simp [shape] at long
  · cases read : (Text.pieces name).mapM NamePiece.ofText with
    | error number => rfl
    | ok factors =>
        have length := (NamePiece.mapM_ofText_eq_ok read).1
        rcases factors with _ | ⟨first, _ | ⟨second, rest⟩⟩
        · simp only [List.length_nil] at length
          omega
        · simp only [List.length_singleton] at length
          omega
        · simp only [bind, Except.bind, pure, Except.pure, forName_eq]
          rfl

theorem splitLetterDigit_cases (options : Options) (tree : Tree) (id : NodeId)
    (name : String) :
    Rule.splitLetterDigit options tree id name = .ok none ∨
      ∃ letter digit description, options.strictSyntax = false ∧ tree.isCallee id = false ∧
        Text.letterDigit? name.toList = some (letter, digit) ∧
        Rule.splitLetterDigit options tree id name =
          .ok (some ⟨id, .product (.identifier (String.ofList [letter]))
            (.integer (Int64.ofNat (Text.digitsValue [digit]))), description⟩) := by
  unfold Rule.splitLetterDigit
  split
  · exact .inl rfl
  · next free =>
    simp only [Bool.or_eq_true, not_or, Bool.not_eq_true] at free
    cases found : Text.letterDigit? name.toList with
    | none => exact .inl rfl
    | some pair => exact .inr ⟨pair.1, pair.2, _, free.1, free.2, rfl, rfl⟩

theorem gist_verdict_name (named : tree.node id = .identifier name) :
    (tree.verdict options id).gist =
      (options.split (tree.isCallee id) name).gist (tree.spot id) := by
  have notCall : tree.callAt? id = none := callAt?_eq_none (by simp [named])
  rw [verdict_eq, detectCallOfCall_of_not_call notCall, detectFunctionNameShape_of_not_call notCall,
    detectExponentLiteral_of_not_float (by simp [named]), detectName_eq named, detectName_eq named,
    detectName_eq named]
  simp only [Verdict.after]
  cases exempt : options.exemptsName (tree.isCallee id) name with
  | true =>
      unfold Options.split
      rw [exempt]
      rfl
  | false =>
      simp only [Bool.false_eq_true, if_false]
      by_cases short : (Text.pieces name).length < 2
      · have split : options.split (tree.isCallee id) name = options.splitEnd name := by
          unfold Options.split
          rw [exempt, if_neg Bool.false_ne_true, if_pos short]
        rw [splitDigitRuns_of_short short, split]
        rcases splitLetterDigit_cases options tree id name with
          declined | ⟨letter, digit, description, lenient, value, found, proposed⟩
        · rw [declined]
          exact gist_splitTrailingDigits rfl
        · rw [proposed, Options.splitEnd_of_letterDigit lenient found, spot_of_not_callee value]
          rfl
      · have declined : Rule.splitLetterDigit options tree id name = .ok none := by
          rcases splitLetterDigit_cases options tree id name with
            declined | ⟨_, _, _, _, _, found, _⟩
          · exact declined
          · exact absurd (Options.length_pieces_of_letterDigit found) short
        rw [declined]
        exact gist_splitDigitRuns exempt short

/-! ## Calls -/

def callGist (id callee : NodeId) (arguments : List NodeId) :
    Except Oversized (Option (NodeId × Draft)) :=
  .ok (some (id, .product (.kept callee) (.group arguments)))

private theorem verdict_call {callee : NodeId} {arguments : List NodeId}
    (call : tree.node id = .call callee arguments) :
    tree.verdict options id =
      ((Verdict.declined.after "Function Name Shape"
        (Rule.detectFunctionNameShape options tree id)).after "Call Of Call"
        (Rule.detectCallOfCall options tree id)) := by
  have unnamed : tree.name? id = none := name?_eq call
  rw [verdict_eq, detectExponentLiteral_of_not_float (by simp [call]),
    detectName_of_not_name unnamed, detectName_of_not_name unnamed, detectName_of_not_name unnamed]
  rfl

theorem gist_verdict_callOfCall {callee : NodeId} {arguments : List NodeId}
    (call : tree.node id = .call callee arguments)
    (called : (tree.node callee).isCallOrGroup = true) :
    (tree.verdict options id).gist = callGist id callee arguments := by
  rw [verdict_call call]
  simp only [Rule.detectCallOfCall, callAt?_eq_some_iff.mpr call, called, if_true]
  rfl

theorem gist_verdict_callOfName (options : Options) {callee : NodeId} {arguments : List NodeId}
    {name : String} (call : tree.node id = .call callee arguments)
    (named : tree.node callee = .identifier name) :
    (tree.verdict options id).gist =
      if (options.nonFunction? name).isSome then callGist id callee arguments else .ok none := by
  have found := name?_eq_some_iff.mpr named
  rw [verdict_call call]
  simp only [Rule.detectCallOfCall, Rule.detectFunctionNameShape, callAt?_eq_some_iff.mpr call,
    named, Node.isCallOrGroup, found, bind, Option.bind]
  cases options.nonFunction? name <;> rfl

theorem gist_verdict_otherCall {callee : NodeId} {arguments : List NodeId}
    (call : tree.node id = .call callee arguments) (unnamed : tree.name? callee = none)
    (uncalled : (tree.node callee).isCallOrGroup = false) :
    (tree.verdict options id).gist = .ok none := by
  rw [verdict_call call]
  simp only [Rule.detectCallOfCall, Rule.detectFunctionNameShape, callAt?_eq_some_iff.mpr call,
    uncalled, unnamed]
  rfl

/-- Whatever the callee is, a call is a product or nothing is said about it. -/
theorem gist_verdict_call_cases (options : Options) {callee : NodeId} {arguments : List NodeId}
    (call : tree.node id = .call callee arguments) :
    (tree.verdict options id).gist = .ok none ∨
      (tree.verdict options id).gist = callGist id callee arguments := by
  cases called : (tree.node callee).isCallOrGroup with
  | true => exact .inr (gist_verdict_callOfCall call called)
  | false =>
      cases found : tree.name? callee with
      | none => exact .inl (gist_verdict_otherCall call found called)
      | some name =>
          rw [gist_verdict_callOfName options call (name?_eq_some_iff.mp found)]
          split
          · exact .inr rfl
          · exact .inl rfl

theorem gist_verdict_call_ne_error {callee : NodeId} {arguments : List NodeId} {number : Oversized}
    (call : tree.node id = .call callee arguments) :
    (tree.verdict options id).gist ≠ .error number := by
  rcases gist_verdict_call_cases options call with judged | judged
  · rw [judged]
    exact nofun
  · rw [judged]
    exact nofun

/-! ## Numbers and all else -/

def literalGist (options : Options) (id : NodeId) (literal : Option String) :
    Except Oversized (Option (NodeId × Draft)) :=
  if options.strictSyntax then .ok none
  else
    match literal.bind ExponentLiteral.ofText? with
    | none => .ok none
    | some literal => literal.draft.map fun draft => some (id, draft)

/-- A literal is taken apart at its exponent marker, unless it has none or the syntax is
strict. -/
theorem literalGist_cases (options : Options) (id : NodeId) (literal : Option String) :
    literalGist options id literal = .ok none ∧
        (options.strictSyntax = true ∨ literal.bind ExponentLiteral.ofText? = none) ∨
      ∃ text parts, literal = some text ∧ options.strictSyntax = false ∧
        ExponentLiteral.ofText? text = some parts ∧
        literalGist options id literal = parts.draft.map fun draft => some (id, draft) := by
  unfold literalGist
  cases strict : options.strictSyntax with
  | true => exact .inl ⟨rfl, .inl rfl⟩
  | false =>
      cases literal with
      | none => exact .inl ⟨rfl, .inr rfl⟩
      | some text =>
          rw [Option.bind_some]
          cases found : ExponentLiteral.ofText? text with
          | none => exact .inl ⟨rfl, .inr rfl⟩
          | some parts => exact .inr ⟨text, parts, rfl, rfl, found, rfl⟩

theorem gist_verdict_float {value : Binary64} {literal : Option String}
    (float : tree.node id = .float value literal) :
    (tree.verdict options id).gist = literalGist options id literal := by
  have notCall : tree.callAt? id = none := callAt?_eq_none (by simp [float])
  have unnamed : tree.name? id = none := name?_eq float
  rw [verdict_eq, detectCallOfCall_of_not_call notCall, detectFunctionNameShape_of_not_call notCall,
    detectName_of_not_name unnamed, detectName_of_not_name unnamed, detectName_of_not_name unnamed]
  unfold Rule.detectExponentLiteral literalGist
  rw [float]
  cases options.strictSyntax with
  | true => rfl
  | false =>
      cases literal with
      | none => rfl
      | some text =>
          simp only [Bool.false_eq_true, if_false, Option.bind_some]
          cases ExponentLiteral.ofText? text with
          | none => rfl
          | some literal =>
              dsimp only
              cases literal.draft <;> rfl

theorem gist_verdict_other (notCall : tree.callAt? id = none) (unnamed : tree.name? id = none)
    (notFloat : ∀ value literal, tree.node id ≠ .float value literal) :
    (tree.verdict options id).gist = .ok none := by
  rw [verdict_eq, detectCallOfCall_of_not_call notCall, detectFunctionNameShape_of_not_call notCall,
    detectName_of_not_name unnamed, detectName_of_not_name unnamed, detectName_of_not_name unnamed,
    detectExponentLiteral_of_not_float notFloat]
  rfl

theorem gist_verdict_cases (tree : Tree) (options : Options) (id : NodeId) :
    (∃ name, tree.node id = .identifier name) ∨
      (∃ callee arguments, tree.node id = .call callee arguments) ∨
      (∃ value literal, tree.node id = .float value literal) ∨
      (tree.verdict options id).gist = .ok none := by
  cases kind : tree.node id with
  | identifier name => exact .inl ⟨name, rfl⟩
  | call callee arguments => exact .inr (.inl ⟨callee, arguments, rfl⟩)
  | float value literal => exact .inr (.inr (.inl ⟨value, literal, rfl⟩))
  | _ =>
      refine .inr (.inr (.inr (gist_verdict_other ?_ ?_ ?_)))
      · simp only [callAt?, kind]
      · simp only [name?, kind, Node.name?]
      · simp only [kind, ne_eq, reduceCtorEq, not_false_eq_true, implies_true]

end Tree

end Juxtaposition
