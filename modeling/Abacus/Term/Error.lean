import Abacus.Token.Basic

/-!
# What can be wrong with an expression

All causes for which an expression is refused, while it is cut into tokens, read or evaluated, with
what each tells of the place.

* An offset counts bytes and names the character or the token that is at fault. For a parenthesis
  that is not closed it names the opening one.
* The two limits carry the number that was passed, and `argumentCount` both numbers.
* `Error.kind` is the stage an error belongs to. Limits and wrong numbers of arguments belong to the
  grammar; a name without a meaning is a kind of its own, also where it is met while evaluating.
* `Error.message` is the wording, down to the quotes. Tokens appear in their canonical spelling.

Division by zero and arguments outside a function's domain are no errors: they give NaN or an
infinity. `invalidNumber` is provided for and never given, since every numeral has a double
(`Proofs/Token/Failure`).
-/

namespace Abacus.Term

/-- Why an expression was refused. -/
inductive Error where
  /-- a character outside the alphabet -/
  | unsupportedCharacters
  /-- a character of the alphabet that begins no token -/
  | unexpectedCharacter (c : Char) (offset : Nat)
  /-- the spelling of a number that has no value -/
  | invalidNumber (spelling : String) (offset : Nat)
  /-- a parenthesis without a partner -/
  | unbalancedParentheses (offset : Nat)
  /-- a token that cannot stand where it stands -/
  | unexpectedToken (found : Token) (offset : Nat)
  /-- the end of the text where an operand was due -/
  | unexpectedEnd
  /-- a token behind a complete expression -/
  | trailingInput (found : Token) (offset : Nat)
  /-- parentheses, calls and signs nested too deep -/
  | nestingTooDeep (limit : Nat)
  /-- too many operators and calls -/
  | tooManyOperations (limit : Nat)
  /-- the name of a function without an argument list -/
  | missingArguments (function : String)
  /-- a call with the wrong number of arguments -/
  | argumentCount (function : String) (expected actual : Nat)
  /-- a name without a meaning -/
  | unknownName (name : String)
  /-- a variable without a value -/
  | unboundVariable (name : String)
deriving DecidableEq

/-- The stage at which an error belongs. -/
inductive Error.Kind where
  | lexical | grammatical | naming | evaluation
deriving DecidableEq, Repr

namespace Error

/-- The stage at which the error belongs. -/
def kind : Error → Kind
  | .unsupportedCharacters | .unexpectedCharacter .. | .invalidNumber .. => .lexical
  | .unbalancedParentheses .. | .unexpectedToken .. | .unexpectedEnd | .trailingInput ..
  | .nestingTooDeep .. | .tooManyOperations .. | .missingArguments .. | .argumentCount .. =>
    .grammatical
  | .unknownName .. => .naming
  | .unboundVariable .. => .evaluation

/-- The wording of the error. -/
def message : Error → String
  | .unsupportedCharacters => "Unsupported characters in expression"
  | .unexpectedCharacter c offset => s!"Unexpected character '{c}' at offset {offset}"
  | .invalidNumber spelling offset => s!"Invalid number '{spelling}' at offset {offset}"
  | .unbalancedParentheses offset => s!"Unbalanced parentheses at offset {offset}"
  | .unexpectedToken found offset =>
    s!"Unexpected token '{String.ofList found.write}' at offset {offset}"
  | .unexpectedEnd => "Unexpected end of expression"
  | .trailingInput found offset =>
    s!"Unexpected '{String.ofList found.write}' after expression at offset {offset}"
  | .nestingTooDeep limit => s!"Expression nested deeper than {limit} levels"
  | .tooManyOperations limit => s!"Expression has more than {limit} operations"
  | .missingArguments function => s!"Function {function} must be called with parentheses"
  | .argumentCount function expected actual =>
    s!"Wrong number of arguments for {function}: expected {expected}, got {actual}"
  | .unknownName name => s!"Unknown identifier: {name}"
  | .unboundVariable name => s!"Variable {name} has no bound value"

end Error

end Abacus.Term
