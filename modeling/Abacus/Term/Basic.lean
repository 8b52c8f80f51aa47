import Abacus.Decimal.Layout

/-!
# Terms

A term is the tree of an expression. The reader makes it, the evaluator reduces it, and it can be
written again.

* Constants leave a literal and parentheses leave no trace, so a term has no more than literals,
  variables, operations on one and on two operands, and calls.
* `UnaryOp.keep` is the plus sign in front. It changes nothing but is kept, since it is written
  again and counts as an operation.
* A call keeps its name and its arguments as they are written. A term can also be put together by
  hand, with a name that means nothing or with the wrong number of arguments, and so what the name
  means is asked again where the term is evaluated.

Functions on terms come in pairs, one for a term and one for a list of arguments, and so do the
inductions on them.

* `hasVariable`: a variable occurs in the term, whatever its name.
* `operations`: how many operators and calls there are, which is what the reader limits.
* `write`, `text`: the term with parentheses around every operation, so that the shape of the tree
  can be read off. That it reads back is `Proofs/Term/RoundTrip`.
-/

namespace Abacus

/-- Operations on one operand. -/
inductive UnaryOp where
  | negate
  /-- a plus sign in front, which changes nothing -/
  | keep
  /-- a percent sign behind -/
  | percent
deriving DecidableEq, Repr

/-- Operations on two operands. -/
inductive BinaryOp where
  | add | subtract | multiply | divide | remainder | power
deriving DecidableEq, Repr

/-- The sign between the operands. -/
def BinaryOp.sign : BinaryOp → Char
  | .add => '+'
  | .subtract => '-'
  | .multiply => '*'
  | .divide => '/'
  | .remainder => '%'
  | .power => '^'

/-- The tree of an expression. A call keeps its name and its arguments as they are written: what
the name means, and how many arguments fit, is asked where the term is evaluated. -/
inductive Term where
  | literal (value : Float)
  | variable (name : String)
  | unary (op : UnaryOp) (operand : Term)
  | binary (op : BinaryOp) (left right : Term)
  | call (name : String) (args : List Term)

namespace Term

mutual

/-- A variable occurs in the term. -/
def hasVariable : Term → Bool
  | .literal _ => false
  | .variable _ => true
  | .unary _ a => a.hasVariable
  | .binary _ a b => a.hasVariable || b.hasVariable
  | .call _ args => hasVariables args

/-- A variable occurs in one of the terms. -/
def hasVariables : List Term → Bool
  | [] => false
  | t :: ts => t.hasVariable || hasVariables ts

end

mutual

/-- The number of operators and calls in the term. -/
def operations : Term → Nat
  | .literal _ => 0
  | .variable _ => 0
  | .unary _ a => a.operations + 1
  | .binary _ a b => a.operations + b.operations + 1
  | .call _ args => operationsIn args + 1

/-- The number of operators and calls in the terms. -/
def operationsIn : List Term → Nat
  | [] => 0
  | t :: ts => t.operations + operationsIn ts

end

mutual

/-- The term with parentheses around every operation. -/
def write : Term → List Char
  | .literal value => plain.write value
  | .variable name => name.toList
  | .unary .negate a => '(' :: '-' :: (a.write ++ [')'])
  | .unary .keep a => '(' :: '+' :: (a.write ++ [')'])
  | .unary .percent a => '(' :: (a.write ++ ['%', ')'])
  | .binary op a b => '(' :: (a.write ++ [' ', op.sign, ' '] ++ b.write ++ [')'])
  | .call name args => name.toList ++ '(' :: (writeArgs args ++ [')'])

/-- The terms with commas between them. -/
def writeArgs : List Term → List Char
  | [] => []
  | [t] => t.write
  | t :: ts => t.write ++ ',' :: ' ' :: writeArgs ts

end

/-- The term as a string. -/
def text (t : Term) : String := String.ofList t.write

end Term

end Abacus
