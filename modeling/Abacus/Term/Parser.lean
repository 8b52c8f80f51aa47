import Abacus.Function
import Abacus.Term.Basic
import Abacus.Token.Scan

/-!
# From tokens to terms

The reader of expressions: recursive descent over tokens, one function for each level of binding,
loosest first. The keypad, the evaluator and the curves all read by it and differ in the `Dialect`
only.

* `additive`: `+` and `-` between operands, from the left;
* `multiplicative`: `*`, `/` and the remainder `%`, from the left;
* `unary`: signs in front; every nested construct passes here, so depth is counted here;
* `power`: `^`, whose exponent is again `unary`, so it groups from the right;
* `postfixed`: the percent sign, where no operand follows it;
* `primary`: numbers, names, calls and parentheses.

`meaning` says what a name stands for. The free variable wins over a constant and a constant over a
function; a constant is put in as a literal, and a function must be called, with as many arguments
as it takes. `ofLexemes` reads all tokens or fails; no tokens at all are the number zero. `parse`
cuts the text first.

Each function returns the tokens behind what it read, together with a proof that they are fewer. A
level that reads nothing itself calls a tighter one, so eight times the number of tokens plus the
rank of the level decreases, and the recursion ends.

`Meter` counts the depth and the operations on the way. The depth goes up where `unary` begins and
down where it ends, and the outermost operand is counted as well, as is every exponent; the number
of operations goes up at each sign and at the opening parenthesis of a call, before what stands
behind it is read. Where that puts the limits is `Proofs/Grammar/Limits`. The meter is handed on
from reader to reader; a machine that keeps one and changes it is `Proofs/Faultless/Depth`.

The grammar that is read, as rules without a reader, is `Proofs/Grammar/Derivation`, and the reader
is proved to read exactly that in `Proofs/Grammar/Exactness`.
-/

namespace Abacus

/-- The alphabet an expression is written in, and the name of its free variable if it has one. -/
structure Dialect where
  alphabet : Alphabet
  free : Option String
deriving DecidableEq

namespace Dialect

/-- Digits and keypad signs only. -/
def keypad : Dialect := ⟨.keypad, none⟩

/-- Functions and constants, without a variable. -/
def scientific : Dialect := ⟨.scientific, none⟩

/-- Functions and constants, and a variable. -/
def inVariable (name : String) : Dialect := ⟨.scientific, some name⟩

end Dialect

namespace Term.Parser

/-- The most levels that are open at once; the outermost operand is one, and so is an exponent. -/
def maxNesting : Nat := 256

/-- The most operators and calls in one expression. -/
def maxOperations : Nat := 2048

/-- How deep the reader is nested, and how many operators and calls it has met. -/
structure Meter where
  depth : Nat
  operations : Nat
deriving DecidableEq, Repr

namespace Meter

/-- One level deeper. -/
def enter (m : Meter) : Except Error Meter :=
  if m.depth < maxNesting then .ok { m with depth := m.depth + 1 }
  else .error (.nestingTooDeep maxNesting)

/-- Back from one level. -/
def leave (m : Meter) : Meter := { m with depth := m.depth - 1 }

/-- One more operator or call. -/
def count (m : Meter) : Except Error Meter :=
  if m.operations < maxOperations then .ok { m with operations := m.operations + 1 }
  else .error (.tooManyOperations maxOperations)

end Meter

/-- What was read, the tokens behind it, and the meter there. Fewer than `n` tokens are left. -/
structure Parsed (α : Type) (n : Nat) where
  value : α
  rest : List Lexeme
  meter : Meter
  shorter : rest.length < n

/-- What a name stands for: the variable wins over a constant, a constant over a function. -/
inductive Meaning where
  | variable
  | constant (value : Float)
  | function (f : Function)
  | unknown

/-- The meaning of a name, where there may be a free variable. -/
def meaning (free : Option String) (name : String) : Meaning :=
  if free = some name then .variable
  else match constant? name with
    | some x => .constant x
    | none =>
      match Function.ofName? name with
      | some f => .function f
      | none => .unknown

/-- The operation of a sign between sums. -/
def additiveOp? : Operator → Option BinaryOp
  | .plus => some .add
  | .minus => some .subtract
  | _ => none

/-- The operation of a sign between factors. -/
def multiplicativeOp? : Operator → Option BinaryOp
  | .times => some .multiply
  | .slash => some .divide
  | .percent => some .remainder
  | _ => none

/-- The operation of a sign in front of an operand. -/
def signOp? : Operator → Option UnaryOp
  | .plus => some .keep
  | .minus => some .negate
  | _ => none

/-- The next token can begin an operand without a sign. -/
def operandFollows : List Lexeme → Bool
  | ⟨.number _, _⟩ :: _ => true
  | ⟨.name _, _⟩ :: _ => true
  | ⟨.openParen, _⟩ :: _ => true
  | _ => false

/-- Reads the parenthesis that closes the one at an offset. -/
def closing (opened : Nat) (ts : List Lexeme) :
    Except Error { rest : List Lexeme // rest.length < ts.length } :=
  match ts with
  | ⟨.closeParen, _⟩ :: rest => .ok ⟨rest, by simp⟩
  | t :: _ => .error (.unexpectedToken t.token t.offset)
  | [] => .error (.unbalancedParentheses opened)

/-- Reads percent signs behind an operand, up to one that an operand follows. -/
def percents (n : Nat) (operand : Term) (ts : List Lexeme) (m : Meter) (h : ts.length < n) :
    Except Error (Parsed Term n) :=
  match ts with
  | ⟨.operator .percent, o⟩ :: rest =>
    if operandFollows rest then .ok ⟨operand, ⟨.operator .percent, o⟩ :: rest, m, h⟩
    else do
      let m ← m.count
      percents n (.unary .percent operand) rest m (by simp at h; omega)
  | ts => .ok ⟨operand, ts, m, h⟩

variable (free : Option String)

mutual

/-- Reads a sum. -/
def additive (ts : List Lexeme) (m : Meter) : Except Error (Parsed Term ts.length) := do
  let ⟨left, rest, m, h⟩ ← multiplicative ts m
  additiveTail ts.length left rest m h
termination_by 8 * ts.length + 6

/-- Reads the summands behind a sum. -/
def additiveTail (n : Nat) (left : Term) (ts : List Lexeme) (m : Meter) (h : ts.length < n) :
    Except Error (Parsed Term n) :=
  match ts with
  | [] => .ok ⟨left, [], m, h⟩
  | t :: rest =>
    match t.token with
    | .operator op =>
      match additiveOp? op with
      | some op => do
        let m ← m.count
        let ⟨right, rest', m, h'⟩ ← multiplicative rest m
        additiveTail n (.binary op left right) rest' m (by simp at h; omega)
      | none => .ok ⟨left, t :: rest, m, h⟩
    | _ => .ok ⟨left, t :: rest, m, h⟩
termination_by 8 * ts.length

/-- Reads a product. -/
def multiplicative (ts : List Lexeme) (m : Meter) : Except Error (Parsed Term ts.length) := do
  let ⟨left, rest, m, h⟩ ← unary ts m
  multiplicativeTail ts.length left rest m h
termination_by 8 * ts.length + 5

/-- Reads the factors behind a product. -/
def multiplicativeTail (n : Nat) (left : Term) (ts : List Lexeme) (m : Meter)
    (h : ts.length < n) : Except Error (Parsed Term n) :=
  match ts with
  | [] => .ok ⟨left, [], m, h⟩
  | t :: rest =>
    match t.token with
    | .operator op =>
      match multiplicativeOp? op with
      | some op => do
        let m ← m.count
        let ⟨right, rest', m, h'⟩ ← unary rest m
        multiplicativeTail n (.binary op left right) rest' m (by simp at h; omega)
      | none => .ok ⟨left, t :: rest, m, h⟩
    | _ => .ok ⟨left, t :: rest, m, h⟩
termination_by 8 * ts.length

/-- Reads an operand with the signs in front of it. -/
def unary (ts : List Lexeme) (m : Meter) : Except Error (Parsed Term ts.length) := do
  let m ← m.enter
  let ⟨t, rest, m, h⟩ ← signed ts m
  .ok ⟨t, rest, m.leave, h⟩
termination_by 8 * ts.length + 4

/-- Reads one sign and its operand, or a power. -/
def signed (ts : List Lexeme) (m : Meter) : Except Error (Parsed Term ts.length) :=
  match ts with
  | [] => power [] m
  | t :: rest =>
    match t.token with
    | .operator op =>
      match signOp? op with
      | some op => do
        let m ← m.count
        let ⟨operand, rest', m, h⟩ ← unary rest m
        .ok ⟨.unary op operand, rest', m, by simp; omega⟩
      | none => power (t :: rest) m
    | _ => power (t :: rest) m
termination_by 8 * ts.length + 3

/-- Reads a base with its exponent. -/
def power (ts : List Lexeme) (m : Meter) : Except Error (Parsed Term ts.length) := do
  let ⟨base, rest, m, h⟩ ← postfixed ts m
  match rest, h with
  | ⟨.operator .caret, _⟩ :: rest, h => do
    have : rest.length < ts.length := by simp at h; omega
    let m ← m.count
    let ⟨exponent, rest', m, h'⟩ ← unary rest m
    .ok ⟨.binary .power base exponent, rest', m, by omega⟩
  | rest, h => .ok ⟨base, rest, m, h⟩
termination_by 8 * ts.length + 2

/-- Reads an operand with the percent signs behind it. -/
def postfixed (ts : List Lexeme) (m : Meter) : Except Error (Parsed Term ts.length) := do
  let ⟨operand, rest, m, h⟩ ← primary ts m
  percents ts.length operand rest m h
termination_by 8 * ts.length + 1

/-- Reads a number, a name, a call or an expression in parentheses. -/
def primary (ts : List Lexeme) (m : Meter) : Except Error (Parsed Term ts.length) :=
  match ts with
  | [] => .error .unexpectedEnd
  | t :: rest =>
    match t.token with
    | .number value => .ok ⟨.literal value, rest, m, by simp⟩
    | .openParen => do
      let ⟨inner, rest', m, h⟩ ← additive rest m
      let ⟨rest'', h'⟩ ← closing t.offset rest'
      .ok ⟨inner, rest'', m, by simp; omega⟩
    | .name name =>
      match meaning free name with
      | .variable => .ok ⟨.variable name, rest, m, by simp⟩
      | .constant value => .ok ⟨.literal value, rest, m, by simp⟩
      | .function f => do
        let ⟨args, rest', m, h⟩ ← call name rest m
        if args.length = f.arity then .ok ⟨.call name args, rest', m, by simp; omega⟩
        else .error (.argumentCount name f.arity args.length)
      | .unknown => .error (.unknownName name)
    | _ => .error (.unexpectedToken t.token t.offset)
termination_by 8 * ts.length

/-- Reads the argument list of a call in its parentheses. -/
def call (name : String) (ts : List Lexeme) (m : Meter) :
    Except Error (Parsed (List Term) ts.length) :=
  match ts with
  | ⟨.openParen, opened⟩ :: rest => do
    let m ← m.count
    let ⟨args, rest', m, h⟩ ← arguments (rest.length + 1) rest m (by omega)
    let ⟨rest'', h'⟩ ← closing opened rest'
    .ok ⟨args, rest'', m, by simp; omega⟩
  | _ => .error (.missingArguments name)
termination_by 8 * ts.length

/-- Reads arguments up to the closing parenthesis; there may be none. -/
def arguments (n : Nat) (ts : List Lexeme) (m : Meter) (h : ts.length < n) :
    Except Error (Parsed (List Term) n) :=
  match ts with
  | ⟨.closeParen, o⟩ :: rest => .ok ⟨[], ⟨.closeParen, o⟩ :: rest, m, h⟩
  | ts => do
    let ⟨first, rest, m, h'⟩ ← additive ts m
    let ⟨others, rest', m, h''⟩ ← moreArguments n rest m (by omega)
    .ok ⟨first :: others, rest', m, h''⟩
termination_by 8 * ts.length + 7

/-- Reads further arguments, each behind a comma. -/
def moreArguments (n : Nat) (ts : List Lexeme) (m : Meter) (h : ts.length < n) :
    Except Error (Parsed (List Term) n) :=
  match ts with
  | ⟨.comma, _⟩ :: rest => do
    let ⟨next, rest', m, h'⟩ ← additive rest m
    let ⟨others, rest'', m, h''⟩ ← moreArguments n rest' m (by simp at h; omega)
    .ok ⟨next :: others, rest'', m, h''⟩
  | ts => .ok ⟨[], ts, m, h⟩
termination_by 8 * ts.length

end

end Term.Parser

namespace Term

open Abacus.Term.Parser

/-- Reads tokens as one expression. No tokens at all are the number zero. -/
def ofLexemes (free : Option String) (ts : List Lexeme) : Except Error Term :=
  match ts with
  | [] => .ok (.literal 0)
  | ts => do
    let ⟨t, rest, _, _⟩ ← additive free ts ⟨0, 0⟩
    match rest with
    | [] => .ok t
    | ⟨.closeParen, offset⟩ :: _ => .error (.unbalancedParentheses offset)
    | next :: _ => .error (.trailingInput next.token next.offset)

/-- Reads a text as an expression. -/
def parse (d : Dialect) (text : String) : Except Error Term := do
  let ts ← Token.scan d.alphabet text
  ofLexemes d.free ts

end Term

end Abacus
