import Juxtaposition.Rule.Draft

/-!
# Exponent literals

A literal such as `1e-3` is not read as a power of ten. Its exponent marker is
read as a variable, which makes the literal a product, or a sum or difference
when the exponent has a sign.
-/

set_option autoImplicit false

namespace Juxtaposition

structure ExponentLiteral where
  mantissa : String
  marker : Char
  exponent : String
deriving DecidableEq

namespace ExponentLiteral

def splitAt? (marker : Char) (text : List Char) : Option ExponentLiteral :=
  match text.span (· ≠ marker) with
  | (mantissa, _ :: exponent) => some ⟨String.ofList mantissa, marker, String.ofList exponent⟩
  | (_, []) => none

/-- A literal split at its first `e`, or at its first `E` when it has no `e`. -/
def ofText? (text : String) : Option ExponentLiteral :=
  splitAt? 'e' text.toList <|> splitAt? 'E' text.toList

def sign? (literal : ExponentLiteral) : Option Operator :=
  literal.exponent.toList.head?.bind Operator.ofSign?

def mantissaDraft (literal : ExponentLiteral) : Except Oversized Draft :=
  if literal.mantissa.toList.contains '.' then
    .ok (.float (Text.readDecimalStart literal.mantissa))
  else .integer <$> Text.readIntegerStart literal.mantissa

/-- `1e-3` is `(1*e)-3`, and `1e3` is `1*(e*3)`. The exponent is read before the
mantissa, so its digits are reported first. -/
def draft (literal : ExponentLiteral) : Except Oversized Draft := do
  let exponent ← Text.readIntegerStart literal.exponent
  let mantissa ← literal.mantissaDraft
  let marker := Draft.identifier (String.ofList [literal.marker])
  match literal.sign? with
  | some operator =>
      return .operation operator (.product mantissa marker) (.integer exponent.abs)
  | none => return .product mantissa (.product marker (.integer exponent))

end ExponentLiteral

def Rule.detectExponentLiteral (options : Options) (tree : Tree) (id : NodeId) : Detection :=
  if options.strictSyntax then .ok none
  else
    match tree.node id with
    | .float _ (some text) =>
        match ExponentLiteral.ofText? text with
        | some literal => do
            return some ⟨id, ← literal.draft, "exponent marker read as a variable"⟩
        | none => .ok none
    | _ => .ok none

def Rule.exponentLiteral : Rule := .ofDetector "Split Exponent Literal" detectExponentLiteral

end Juxtaposition
