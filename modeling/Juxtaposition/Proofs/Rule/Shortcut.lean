import Juxtaposition.Proofs.Rule.Verdict

/-!
# The shortcut for a letter with a digit

Where the rule on a letter with a digit applies, the rule on names that end in a number makes the
same edit, and no rule between them says anything. Without the first one the verdicts are the same
up to the words for the edit.
-/

set_option autoImplicit false

namespace Juxtaposition

structure Rewording where
  rule : String → String
  description : (rule description : String) → String

structure Rewording.Keeps (rewording : Rewording) (name : String) : Prop where
  rule : rewording.rule name = name
  description : ∀ description, rewording.description name description = description

def Proposal.reword (rewording : Rewording) (rule : String) (proposal : Proposal) : Proposal :=
  { proposal with description := rewording.description rule proposal.description }

namespace Verdict

def reword (rewording : Rewording) : Verdict → Verdict
  | declined => declined
  | oversized rule number => oversized (rewording.rule rule) number
  | proposed rule proposal => proposed (rewording.rule rule) (proposal.reword rewording rule)

theorem reword_after {rewording : Rewording} {rule : String} (keeps : rewording.Keeps rule)
    (detection : Detection) (later : Verdict) :
    (later.after rule detection).reword rewording =
      (later.reword rewording).after rule detection := by
  rcases detection with number | _ | proposal
  · exact congrArg (oversized · number) keeps.rule
  · rfl
  · rw [after, after, reword, Proposal.reword, keeps.rule, keeps.description]

end Verdict

/-! ## The rules without the shortcut -/

def Rule.withoutLetterDigitPair : List Rule :=
  standard.filter fun rule => rule.name ≠ letterDigitPair.name

def Detector.withoutLetterDigitPair : List Detector :=
  standard.filter fun detector => detector.name ≠ "Letter Digit Pair"

theorem Detector.map_rule_withoutLetterDigitPair :
    withoutLetterDigitPair.map rule = Rule.withoutLetterDigitPair := by
  unfold withoutLetterDigitPair Rule.withoutLetterDigitPair
  rw [← map_rule_standard, List.filter_map]
  rfl

/-- A letter with a digit is called a name that ends in a number. -/
def Rewording.longhand : Rewording where
  rule name := if name = "Letter Digit Pair" then "Split Trailing Digits" else name
  description rule description :=
    if rule = "Letter Digit Pair" then "name ends in a number" else description

theorem Rewording.longhand_keeps {rule : String} (other : rule ≠ "Letter Digit Pair") :
    longhand.Keeps rule :=
  ⟨if_neg other, fun _ => if_neg other⟩

namespace Tree

variable {tree : Tree} {options : Options} {id : NodeId} {name : String}

theorem splitTrailingDigits_of_trailing {letters : String} {value : Int64}
    (ends : options.splitEnd name = .trailing letters value) :
    Rule.splitTrailingDigits options tree id name =
      .ok (some ⟨(tree.spot id).1,
        .product (.identifier letters) ((NamePiece.number value).draftWith (tree.spot id).2),
        "name ends in a number"⟩) := by
  unfold Options.splitEnd at ends
  unfold Rule.splitTrailingDigits
  dsimp only at ends ⊢
  split at ends
  · cases ends
  · next guarded =>
    rw [if_neg guarded]
    cases read : Text.readInteger (Text.splitAtDigit name).2 with
    | error number =>
        rw [read] at ends
        cases ends
    | ok number =>
        rw [read] at ends
        cases ends
        simp only [bind, Except.bind, pure, Except.pure, forName_eq]

def verdictOnEnd (tree : Tree) (options : Options) (id : NodeId) : Verdict :=
  ((Verdict.declined.after "Split Exponent Literal"
    (Rule.detectExponentLiteral options tree id)).after "Split Trailing Digits"
    (Rule.detectName Rule.splitTrailingDigits options tree id)).after "Split Digit Runs"
    (Rule.detectName Rule.splitDigitRuns options tree id)

private theorem reword_verdictOnEnd :
    (tree.verdictOnEnd options id).reword .longhand = tree.verdictOnEnd options id := by
  unfold verdictOnEnd
  rw [Verdict.reword_after (Rewording.longhand_keeps (by decide)),
    Verdict.reword_after (Rewording.longhand_keeps (by decide)),
    Verdict.reword_after (Rewording.longhand_keeps (by decide))]
  rfl

/-- The rules behind the shortcut make of a letter with a digit what the shortcut makes of it. -/
private theorem verdictOnEnd_of_letterDigit {letter digit : Char}
    (lenient : options.strictSyntax = false) (named : tree.node id = .identifier name)
    (value : tree.isCallee id = false)
    (free : options.exemptsName (tree.isCallee id) name = false)
    (found : Text.letterDigit? name.toList = some (letter, digit)) :
    tree.verdictOnEnd options id =
      .proposed "Split Trailing Digits" ⟨id,
        .product (.identifier (String.ofList [letter]))
          (.integer (Int64.ofNat (Text.digitsValue [digit]))),
        "name ends in a number"⟩ := by
  have ends : Rule.splitTrailingDigits options tree id name = _ :=
    splitTrailingDigits_of_trailing (Options.splitEnd_of_letterDigit lenient found)
  rw [spot_of_not_callee value] at ends
  rw [verdictOnEnd, detectName_eq named, detectName_eq named, free, if_neg Bool.false_ne_true,
    if_neg Bool.false_ne_true, splitDigitRuns_of_short (Options.length_pieces_of_letterDigit found),
    ends]
  rfl

/-- But for its words, the shortcut makes no difference to what the rules behind it say. -/
private theorem reword_shortcut :
    ((tree.verdictOnEnd options id).after "Letter Digit Pair"
      (Rule.detectName Rule.splitLetterDigit options tree id)).reword .longhand =
        tree.verdictOnEnd options id := by
  cases found : tree.name? id with
  | none =>
      rw [detectName_of_not_name found]
      exact reword_verdictOnEnd
  | some name =>
      have named := name?_eq_some_iff.mp found
      rw [detectName_eq named]
      cases exempt : options.exemptsName (tree.isCallee id) name with
      | true => exact reword_verdictOnEnd
      | false =>
          rw [if_neg Bool.false_ne_true]
          rcases splitLetterDigit_cases options tree id name with
            declined | ⟨letter, digit, description, lenient, value, pair, proposed⟩
          · rw [declined]
            exact reword_verdictOnEnd
          · rw [proposed, verdictOnEnd_of_letterDigit lenient named value exempt pair]
            rfl

/-- Without the shortcut the verdict on every node is the same in other words. -/
theorem verdict_withoutLetterDigitPair (tree : Tree) (options : Options) (id : NodeId) :
    Detector.verdict Detector.withoutLetterDigitPair options tree id =
      (tree.verdict options id).reword .longhand := by
  have without : Detector.verdict Detector.withoutLetterDigitPair options tree id =
      ((tree.verdictOnEnd options id).after "Function Name Shape"
        (Rule.detectFunctionNameShape options tree id)).after "Call Of Call"
        (Rule.detectCallOfCall options tree id) := rfl
  have whole : tree.verdict options id =
      (((tree.verdictOnEnd options id).after "Letter Digit Pair"
        (Rule.detectName Rule.splitLetterDigit options tree id)).after "Function Name Shape"
        (Rule.detectFunctionNameShape options tree id)).after "Call Of Call"
        (Rule.detectCallOfCall options tree id) := rfl
  rw [without, whole, Verdict.reword_after (Rewording.longhand_keeps (by decide)),
    Verdict.reword_after (Rewording.longhand_keeps (by decide)), reword_shortcut]

end Tree

end Juxtaposition
