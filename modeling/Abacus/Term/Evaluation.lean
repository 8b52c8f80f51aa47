import Abacus.Double.Remainder
import Abacus.Function
import Abacus.Term.Basic
import Abacus.Term.Error

/-!
# Evaluating terms

A term is reduced to a double from left to right. Arithmetic is that of doubles and cannot fail.
What can fail is a variable without a value and a call that does not fit the catalogue.

* `UnaryOp.apply`, `BinaryOp.apply`: the operations. A percent sign divides by a hundred; the
  remainder has the sign of the dividend; the power is that of the catalogue, for which a NaN
  exponent gives NaN.
* `Binding`: at most one variable has a value, and only under its own name.
* `callee`: the function that a call refers to, which is looked for, with the number of arguments,
  before any argument is evaluated. So an unknown function is reported even where an argument could
  not be evaluated either.
* `evaluate`: a term, with its arguments by `evaluateArgs`. It recurses on the tree, so every term
  has a value or an error, however deep it is.

A last check on the arguments repeats what `callee` has looked at and cannot fail, which is
`Proofs/Faultless/Runs`. What is reported for a term, if anything, is `Proofs/Term/Faults`.
-/

namespace Abacus

/-- The value of an operation on one operand. -/
def UnaryOp.apply : UnaryOp → Float → Float
  | .negate, x => -x
  | .keep, x => x
  | .percent, x => x / 100

/-- The value of an operation on two operands. -/
def BinaryOp.apply : BinaryOp → Float → Float → Float
  | .add, x, y => x + y
  | .subtract, x, y => x - y
  | .multiply, x, y => x * y
  | .divide, x, y => x / y
  | .remainder, x, y => Double.remainder x y
  | .power, x, y => Abacus.power x y

/-- The one variable that has a value, if any. -/
abbrev Binding := Option (String × Float)

/-- The value bound to a name. -/
def Binding.value? (b : Binding) (name : String) : Option Float :=
  match b with
  | some (bound, x) => if bound = name then some x else none
  | none => none

namespace Term

/-- The function a call of so many arguments refers to. -/
def callee (name : String) (count : Nat) : Except Error Function :=
  match Function.ofName? name with
  | none => .error (.unknownName name)
  | some f => if count = f.arity then .ok f else .error (.argumentCount name f.arity count)

mutual

/-- The value of a term. -/
def evaluate (b : Binding) : Term → Except Error Float
  | .literal x => .ok x
  | .variable name =>
    match b.value? name with
    | some x => .ok x
    | none => .error (.unboundVariable name)
  | .unary op a => do
    let x ← a.evaluate b
    .ok (op.apply x)
  | .binary op a c => do
    let x ← a.evaluate b
    let y ← c.evaluate b
    .ok (op.apply x y)
  | .call name args => do
    let f ← callee name args.length
    let xs ← evaluateArgs b args
    match f.value? xs with
    | some y => .ok y
    | none => .error (.argumentCount name f.arity xs.length)

/-- The values of the arguments of a call. -/
def evaluateArgs (b : Binding) : List Term → Except Error (List Float)
  | [] => .ok []
  | t :: ts => do
    let x ← t.evaluate b
    let xs ← evaluateArgs b ts
    .ok (x :: xs)

end

end Term

end Abacus
