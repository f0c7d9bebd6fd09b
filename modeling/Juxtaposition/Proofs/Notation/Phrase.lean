import Juxtaposition.Expr.Basic
import Juxtaposition.Text.Numeral
import Juxtaposition.Text.Pieces

/-!
# Phrases

The notation in which expressions are shown, as a grammar. A phrase is a derivation, so a
text is ambiguous when two phrases of one category are written alike. Sums, products and
calls group to the left, powers to the right, and a minus sign stands before a whole
product.
-/

set_option autoImplicit false

namespace Juxtaposition.Notation

def marks : List Char :=
  ['+', '-', '*', '/', '^', '(', ')', ',']

/-- Whatever is no mark, no digit and no underscore counts as a letter. -/
def isLetter (character : Char) : Bool :=
  !marks.contains character && !character.isDigit && character != '_'

def isName (text : String) : Bool :=
  match text.toList with
  | [] => false
  | first :: rest =>
      isLetter first &&
        rest.all fun character => isLetter character || character.isDigit || character == '_'

structure Name where
  text : String
  lexical : isName text = true

structure Numeral where
  text : String
  value : Int64
  isNumeral : Text.isNumeral text = true
  read : Text.readInteger text = .ok value

def sign : Operator → Char
  | .add => '+'
  | .sub => '-'
  | .mul => '*'
  | .div => '/'
  | .pow => '^'

/-- The categories of the grammar. Arguments are the items between a pair of brackets, of
which there may be none. -/
inductive Category where
  | sum
  | term
  | product
  | power
  | atom
  | arguments
  | items

/-- Derivations, one constructor for every production. A sum is also written with `-`, and a
product with `/`. -/
inductive Phrase : Category → Type where
  | ofTerm : Phrase .term → Phrase .sum
  | sum (operator : Operator) : operator.precedence = Operator.add.precedence →
      Phrase .sum → Phrase .term → Phrase .sum
  | ofProduct : Phrase .product → Phrase .term
  | negation : Phrase .product → Phrase .term
  | ofPower : Phrase .power → Phrase .product
  | product (operator : Operator) : operator.precedence = Operator.mul.precedence →
      Phrase .product → Phrase .power → Phrase .product
  | ofAtom : Phrase .atom → Phrase .power
  | power : Phrase .atom → Phrase .power → Phrase .power
  | name : Name → Phrase .atom
  | integer : Numeral → Phrase .atom
  | group : Phrase .arguments → Phrase .atom
  | call : Phrase .atom → Phrase .arguments → Phrase .atom
  | none : Phrase .arguments
  | some : Phrase .items → Phrase .arguments
  | last : Phrase .sum → Phrase .items
  | more : Phrase .sum → Phrase .items → Phrase .items

@[reducible] def Category.Reading : Category → Type
  | arguments | items => List Expr
  | sum | term | product | power | atom => Expr

namespace Phrase

def text : {category : Category} → Phrase category → List Char
  | _, ofTerm term => term.text
  | _, sum operator _ lhs rhs => lhs.text ++ sign operator :: rhs.text
  | _, ofProduct factors => factors.text
  | _, negation operand => '-' :: operand.text
  | _, ofPower factor => factor.text
  | _, product operator _ lhs rhs => lhs.text ++ sign operator :: rhs.text
  | _, ofAtom atom => atom.text
  | _, power lhs rhs => lhs.text ++ '^' :: rhs.text
  | _, name word => word.text.toList
  | _, integer numeral => numeral.text.toList
  | _, group arguments => '(' :: (arguments.text ++ [')'])
  | _, call callee arguments => callee.text ++ '(' :: (arguments.text ++ [')'])
  | _, none => []
  | _, some items => items.text
  | _, last item => item.text
  | _, more item rest => item.text ++ ',' :: rest.text

/-- The expression that a phrase denotes. The places of its operators are not known. -/
def read : {category : Category} → Phrase category → category.Reading
  | _, ofTerm term => term.read
  | _, sum operator _ lhs rhs => Expr.operation operator lhs.read rhs.read .missing
  | _, ofProduct factors => factors.read
  | _, negation operand => Expr.negation operand.read
  | _, ofPower factor => factor.read
  | _, product operator _ lhs rhs => Expr.operation operator lhs.read rhs.read .missing
  | _, ofAtom atom => atom.read
  | _, power lhs rhs => Expr.operation .pow lhs.read rhs.read .missing
  | _, name word => Expr.identifier word.text
  | _, integer numeral => Expr.integer numeral.value
  | _, group arguments => Expr.group arguments.read
  | _, call callee arguments => Expr.call callee.read arguments.read
  | _, none => ([] : List Expr)
  | _, some items => items.read
  | _, last item => [item.read]
  | _, more item rest => (item.read :: rest.read : List Expr)

end Phrase

end Juxtaposition.Notation
