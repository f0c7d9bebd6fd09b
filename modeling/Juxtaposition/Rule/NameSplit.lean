import Juxtaposition.Rule.Draft
import Juxtaposition.Rule.Exemption
import Juxtaposition.Text.Pieces

/-!
# Names that are products

Rules on names that mix letters and digits. When the name is a callee, the
proposal is for the whole call, and the arguments stay with the last factor.
-/

set_option autoImplicit false

namespace Juxtaposition

inductive NamePiece where
  | name (text : String)
  | number (value : Int64)
deriving DecidableEq

namespace NamePiece

def ofText (text : String) : Except Oversized NamePiece :=
  if Text.isNumeral text then number <$> Text.readInteger text else .ok (name text)

def draft : NamePiece → Draft
  | name text => .identifier text
  | number value => .integer value

/-- A piece as the factor that takes the arguments, if there are any. A name is
called with them, and a number is multiplied by the parenthesised list. -/
def draftWith : Option (List NodeId) → NamePiece → Draft
  | none, piece => piece.draft
  | some arguments, name text => .call text arguments
  | some arguments, number value => .product (.integer value) (.group arguments)

def chain (arguments : Option (List NodeId)) : NamePiece → List NamePiece → Draft
  | piece, [] => piece.draftWith arguments
  | piece, following :: rest => .factor piece.draft (chain arguments following rest)

end NamePiece

/-- A draft for the place of a name, or of the call whose callee it is. -/
def Proposal.forName (tree : Tree) (id : NodeId) (draft : Option (List NodeId) → Draft)
    (description : String) : Proposal :=
  match tree.callHeadedBy? id with
  | some (call, arguments) => ⟨call, draft (some arguments), description⟩
  | none => ⟨id, draft none, description⟩

def Rule.detectName (split : Options → Tree → NodeId → String → Detection) (options : Options)
    (tree : Tree) (id : NodeId) : Detection :=
  match tree.name? id with
  | none => .ok none
  | some name => if options.exempts tree id then .ok none else split options tree id name

def Text.letterDigit? : List Char → Option (Char × Char)
  | [letter, digit] =>
      if letter.isAlpha && digit.isDigit then some (letter, digit) else none
  | _ => none

/-- `x3` is `x*3` where it is not called. -/
def Rule.splitLetterDigit (options : Options) (tree : Tree) (id : NodeId) (name : String) :
    Detection :=
  if options.strictSyntax || tree.isCallee id then .ok none
  else
    .ok do
      let (letter, digit) ← Text.letterDigit? name.toList
      return ⟨id,
        .product (.identifier (String.ofList [letter]))
          (.integer (Int64.ofNat (Text.digitsValue [digit]))),
        "letter followed by a digit"⟩

/-- `a1b2c` is `a1*(b2*c)`, and `a1b(x)` is `a1*b(x)`. -/
def Rule.splitDigitRuns (_ : Options) (tree : Tree) (id : NodeId) (name : String) : Detection :=
  match Text.pieces name with
  | [] | [_] => .ok none
  | texts => do
      match ← texts.mapM NamePiece.ofText with
      | [] => return none
      | first :: rest =>
          return some (.forName tree id (fun arguments => NamePiece.chain arguments first rest)
            ("split into " ++ toString texts.length ++ " factors"))

/-- `xyz12` is `xyz*12`, and `x12(y)` is `x*(12*(y))`. -/
def Rule.splitTrailingDigits (options : Options) (tree : Tree) (id : NodeId) (name : String) :
    Detection :=
  let (letters, digits) := Text.splitAtDigit name
  if options.strictSyntax || letters.isEmpty || !Text.isNumeral digits then .ok none
  else do
    let value ← Text.readInteger digits
    return some (.forName tree id
      (fun arguments =>
        .product (.identifier letters) ((NamePiece.number value).draftWith arguments))
      "name ends in a number")

def Rule.letterDigitPair : Rule :=
  .ofDetector "Letter Digit Pair" (detectName splitLetterDigit)

def Rule.digitRunSplit : Rule :=
  .ofDetector "Split Digit Runs" (detectName splitDigitRuns)

def Rule.trailingDigitsSplit : Rule :=
  .ofDetector "Split Trailing Digits" (detectName splitTrailingDigits)

end Juxtaposition
