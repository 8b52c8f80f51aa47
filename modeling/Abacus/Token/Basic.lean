import Abacus.Decimal.Layout

/-!
# Tokens

An expression is read as a sequence of tokens: numbers, names, six operator signs, parentheses and
commas, each with the offset where it starts.

* `Token.number` holds the double, and no longer the spelling. So two spellings of one number are
  one token.
* `Token.name` holds any name. Whether it means anything is asked by the reader.
* `Operator` is a sign and not an operation: `-` stands in front of an operand or between two, and
  `%` divides by a hundred or is the remainder.
* `Token.write` is the canonical spelling, in which an error names the token it was met at. A number
  is written positionally whatever its source looked like.
* `Lexeme` adds the offset, in bytes.

Results:
* `ofSign?_sign`: a sign reads back as its operator. What is known of the other spellings needs the
  scanner and is in `Proofs/Token/Writing`.
-/

namespace Abacus

/-- The operator signs. -/
inductive Operator where
  | plus | minus | times | slash | percent | caret
deriving DecidableEq, Repr

namespace Operator

/-- The sign an operator is written with. -/
def sign : Operator → Char
  | .plus => '+'
  | .minus => '-'
  | .times => '*'
  | .slash => '/'
  | .percent => '%'
  | .caret => '^'

/-- The operator with this sign. -/
def ofSign? : Char → Option Operator
  | '+' => some .plus
  | '-' => some .minus
  | '*' => some .times
  | '/' => some .slash
  | '%' => some .percent
  | '^' => some .caret
  | _ => none

/-- Reading a sign gives back the operator it was written for. -/
@[simp] theorem ofSign?_sign (op : Operator) : ofSign? op.sign = some op := by cases op <;> rfl

end Operator

/-- The words of an expression. -/
inductive Token where
  | number (value : Float)
  | name (text : String)
  | operator (op : Operator)
  | openParen
  | closeParen
  | comma
deriving DecidableEq

/-- The canonical spelling. -/
def Token.write : Token → List Char
  | .number value => plain.write value
  | .name text => text.toList
  | .operator op => [op.sign]
  | .openParen => ['(']
  | .closeParen => [')']
  | .comma => [',']

/-- A token, and the number of bytes before it. -/
structure Lexeme where
  token : Token
  offset : Nat
deriving DecidableEq

end Abacus
