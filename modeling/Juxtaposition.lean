import Juxtaposition.Config.Printer
import Juxtaposition.Config.Reader
import Juxtaposition.Tree.Reading
import Juxtaposition.Tree.Validity
import Juxtaposition.Proofs.Layout.Basic
import Juxtaposition.Proofs.Layout.Spans
import Juxtaposition.Proofs.Layout.Planted
import Juxtaposition.Proofs.Layout.Walks
import Juxtaposition.Proofs.Normalization.Order
import Juxtaposition.Proofs.Text.Numeral
import Juxtaposition.Proofs.Rule.Split
import Juxtaposition.Proofs.Expr.Reduction
import Juxtaposition.Proofs.Expr.Normal
import Juxtaposition.Proofs.Expr.EditCount
import Juxtaposition.Proofs.Expr.Extent
import Juxtaposition.Proofs.Layout.Builds
import Juxtaposition.Proofs.Rule.Draft
import Juxtaposition.Proofs.Layout.Edit
import Juxtaposition.Proofs.Layout.Exchange
import Juxtaposition.Proofs.Expr.Exchange
import Juxtaposition.Proofs.Rule.LetterDigit
import Juxtaposition.Proofs.Rule.Reading
import Juxtaposition.Proofs.Rule.Verdict
import Juxtaposition.Proofs.Normalization.Step
import Juxtaposition.Proofs.Normalization.Pass
import Juxtaposition.Proofs.Normalization.Run
import Juxtaposition.Proofs.Normalization.Settled
import Juxtaposition.Proofs.Normalization.Standard
import Juxtaposition.Proofs.Expr.Callable
import Juxtaposition.Proofs.Normalization.Unambiguous
import Juxtaposition.Proofs.Tree.Coherent
import Juxtaposition.Proofs.Text.Words
import Juxtaposition.Proofs.Expr.Leaves
import Juxtaposition.Proofs.Expr.Words
import Juxtaposition.Proofs.Normalization.Words
import Juxtaposition.Proofs.Expr.Protection
import Juxtaposition.Proofs.Normalization.Record
import Juxtaposition.Proofs.Normalization.Reported
import Juxtaposition.Proofs.Normalization.Protection
import Juxtaposition.Proofs.Expr.Grouping
import Juxtaposition.Proofs.Notation.Phrase
import Juxtaposition.Proofs.Notation.Unambiguous
import Juxtaposition.Proofs.Notation.Reading
import Juxtaposition.Proofs.Normalization.Bookkeeping
import Juxtaposition.Proofs.Tree.WellFormed
import Juxtaposition.Proofs.Expr.Products
import Juxtaposition.Proofs.Pipeline.Explanation
import Juxtaposition.Proofs.Expr.PlacedLeaves
import Juxtaposition.Proofs.Rule.Runs
import Juxtaposition.Proofs.Expr.Runs
import Juxtaposition.Proofs.Tree.KeptLeaves
import Juxtaposition.Proofs.Tree.Circle
import Juxtaposition.Proofs.Tree.Renaming
import Juxtaposition.Proofs.Rule.Integers
import Juxtaposition.Proofs.Normalization.Numbers
import Juxtaposition.Proofs.Normalization.Carried
import Juxtaposition.Proofs.Normalization.Still
import Juxtaposition.Proofs.Normalization.Exempt
import Juxtaposition.Proofs.Normalization.Paths
import Juxtaposition.Proofs.Layout.Parts
import Juxtaposition.Proofs.Rule.Operators
import Juxtaposition.Proofs.Normalization.Supplied
import Juxtaposition.Proofs.Normalization.Preserved
import Juxtaposition.Proofs.Tree.Twins
import Juxtaposition.Proofs.Layout.Twins
import Juxtaposition.Proofs.Rule.Twins
import Juxtaposition.Proofs.Normalization.Deeds
import Juxtaposition.Proofs.Normalization.Twins
import Juxtaposition.Proofs.Normalization.Determined
import Juxtaposition.Proofs.Expr.Position
import Juxtaposition.Proofs.Tree.Substitution
import Juxtaposition.Proofs.Tree.Refusal
import Juxtaposition.Proofs.Rule.Proposal
import Juxtaposition.Proofs.Rule.Contract
import Juxtaposition.Proofs.Normalization.Exhausted
import Juxtaposition.Proofs.Normalization.Regrowth
import Juxtaposition.Proofs.Layout.Loops
import Juxtaposition.Proofs.Normalization.Visits
import Juxtaposition.Proofs.Expr.Value
import Juxtaposition.Proofs.Notation.Calculator
import Juxtaposition.Proofs.Notation.Values
import Juxtaposition.Proofs.Text.Replacement
import Juxtaposition.Proofs.Decimal.Characters
import Juxtaposition.Proofs.Expr.Tokens
import Juxtaposition.Proofs.Expr.Highlight
import Juxtaposition.Proofs.Rule.Exponent
import Juxtaposition.Proofs.Text.Decimal
import Juxtaposition.Proofs.Rule.Marker
import Juxtaposition.Proofs.Text.DigitRuns
import Juxtaposition.Proofs.Rule.DigitRuns
import Juxtaposition.Proofs.Expr.Restoration
import Juxtaposition.Proofs.Tree.Restoration
import Juxtaposition.Proofs.Rule.Shortcut
import Juxtaposition.Proofs.Normalization.Rewording
