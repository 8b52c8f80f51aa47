import Abacus.Console.Arguments
import Abacus.Console.Command
import Abacus.Console.Json
import Abacus.Console.Outcome
import Abacus.Console.Report
import Abacus.Curve
import Abacus.Decimal.Basic
import Abacus.Decimal.Fixed
import Abacus.Decimal.Layout
import Abacus.Decimal.Numeral
import Abacus.Decimal.Shortest
import Abacus.Double.Exact
import Abacus.Double.Integral
import Abacus.Double.Remainder
import Abacus.Entry
import Abacus.Function
import Abacus.Keypad
import Abacus.Main
import Abacus.Matter.Composition
import Abacus.Matter.Element
import Abacus.Matter.Formula
import Abacus.Matter.MolarMass
import Abacus.Matter.Piece
import Abacus.Proofs.Abscissas
import Abacus.Proofs.Console.Document
import Abacus.Proofs.Console.Plot
import Abacus.Proofs.Console.Reader
import Abacus.Proofs.Console.Table
import Abacus.Proofs.Curve
import Abacus.Proofs.Decimal.Form
import Abacus.Proofs.Decimal.Layouts
import Abacus.Proofs.Decimal.Writing
import Abacus.Proofs.Display
import Abacus.Proofs.Double.Arithmetic
import Abacus.Proofs.Double.Bounds
import Abacus.Proofs.Double.Fewest
import Abacus.Proofs.Double.Grid
import Abacus.Proofs.Double.Integral
import Abacus.Proofs.Double.Operations
import Abacus.Proofs.Double.Packing
import Abacus.Proofs.Double.Places
import Abacus.Proofs.Double.Reading
import Abacus.Proofs.Double.Rounding
import Abacus.Proofs.Double.Rounds
import Abacus.Proofs.Double.Shortest
import Abacus.Proofs.Double.Signed
import Abacus.Proofs.Double.Signs
import Abacus.Proofs.Except
import Abacus.Proofs.Faultless.Cursor
import Abacus.Proofs.Faultless.Depth
import Abacus.Proofs.Faultless.Formulas
import Abacus.Proofs.Faultless.Levels
import Abacus.Proofs.Faultless.Runs
import Abacus.Proofs.Faultless.Scanner
import Abacus.Proofs.Grammar.Blame
import Abacus.Proofs.Grammar.Comparison
import Abacus.Proofs.Grammar.Completeness
import Abacus.Proofs.Grammar.Derivation
import Abacus.Proofs.Grammar.Exactness
import Abacus.Proofs.Grammar.Fault
import Abacus.Proofs.Grammar.Limits
import Abacus.Proofs.Grammar.Nesting
import Abacus.Proofs.Grammar.Outlook
import Abacus.Proofs.Grammar.Parentheses
import Abacus.Proofs.Grammar.Reader
import Abacus.Proofs.Grammar.Refusal
import Abacus.Proofs.Grammar.Sentence
import Abacus.Proofs.Grammar.Soundness
import Abacus.Proofs.Keypad
import Abacus.Proofs.Matter.Additions
import Abacus.Proofs.Matter.Counting
import Abacus.Proofs.Matter.Grouping
import Abacus.Proofs.Matter.Masses
import Abacus.Proofs.Matter.Merging
import Abacus.Proofs.Matter.Noise
import Abacus.Proofs.Matter.Occurrence
import Abacus.Proofs.Matter.Overflow
import Abacus.Proofs.Matter.Parentheses
import Abacus.Proofs.Matter.Skipping
import Abacus.Proofs.Matter.Strictness
import Abacus.Proofs.Matter.Total
import Abacus.Proofs.Shown
import Abacus.Proofs.Term.Binding
import Abacus.Proofs.Term.Faults
import Abacus.Proofs.Term.Insertion
import Abacus.Proofs.Term.Numbers
import Abacus.Proofs.Term.RoundTrip
import Abacus.Proofs.Term.Substitution
import Abacus.Proofs.Text.Ascii
import Abacus.Proofs.Token.Failure
import Abacus.Proofs.Token.Insertion
import Abacus.Proofs.Token.Numeral
import Abacus.Proofs.Token.Spacing
import Abacus.Proofs.Token.Splitting
import Abacus.Proofs.Token.Writing
import Abacus.Term.Basic
import Abacus.Term.Error
import Abacus.Term.Evaluation
import Abacus.Term.Parser
import Abacus.Text.Blank
import Abacus.Text.Offset
import Abacus.Token.Alphabet
import Abacus.Token.Basic
import Abacus.Token.Scan
