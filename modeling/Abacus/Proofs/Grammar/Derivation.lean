import Abacus.Term.Parser

/-!
# The grammar of expressions

The grammar that `Term.ofLexemes` reads by, as rules over sequences of tokens. The rules are not
written after the readers: a sign between operands binds to what stands to the left of it, so sums
and products are left recursive here and are loops there.

`Derives free n p ts rest` says that the tokens `ts` are the phrase `p` and then `rest`, with no
operand inside more than `n` enclosing constructs.

* A phrase (`Phrase`) is a level of the grammar with the term it stands for, loosest first. Beside
  the levels of an expression there are the arguments of a call and what follows the first of them.
* The constructs that enclose an operand are a group in parentheses, the argument list of a call, a
  sign in front, and the exponent of a power. The outermost operand is inside none.
* The tokens behind a phrase belong to the judgement because a percent sign is read by what follows
  it (`operandNext`): before an operand it is the remainder, elsewhere it divides by a hundred.
* A name is the variable if one is bound to it, else a constant, else a function. Only a function
  takes arguments, and exactly as many as its arity.

Results:
* `Derives.mono`: room for more nesting does no harm.
* `Derives.begins`: an expression holds a token, and its first is no closing parenthesis.

The number of operators and calls is not in the rules, for it is plain from the term
(`Term.operations`). How deep an expression is nested at least is `Proofs/Grammar/Nesting`.
-/

namespace Abacus.Term.Grammar

open Abacus.Term.Parser (additiveOp? multiplicativeOp? signOp?)

/-- The next token is a number, a name or an opening parenthesis. -/
def operandNext : List Token → Bool
  | .number _ :: _ => true
  | .name _ :: _ => true
  | .openParen :: _ => true
  | _ => false

/-- The phrases of the grammar with the terms they stand for, loosest first. -/
inductive Phrase where
  | sum (t : Term)
  | product (t : Term)
  /-- an operand with the signs in front of it -/
  | signed (t : Term)
  | power (t : Term)
  /-- an operand with the percent signs behind it -/
  | postfixed (t : Term)
  | primary (t : Term)
  /-- what stands between the parentheses of a call -/
  | arguments (args : List Term)
  /-- arguments with a comma before each -/
  | furtherArguments (args : List Term)

/-- The rules of the grammar. -/
inductive Derives (free : Option String) : Nat → Phrase → List Token → List Token → Prop
  | sum_product {n t ts rest} (h : Derives free n (.product t) ts rest) :
      Derives free n (.sum t) ts rest
  | sum_binary {n op b t u ts mid rest} (hop : additiveOp? op = some b)
      (left : Derives free n (.sum t) ts (.operator op :: mid))
      (right : Derives free n (.product u) mid rest) :
      Derives free n (.sum (.binary b t u)) ts rest
  | product_signed {n t ts rest} (h : Derives free n (.signed t) ts rest) :
      Derives free n (.product t) ts rest
  | product_binary {n op b t u ts mid rest} (hop : multiplicativeOp? op = some b)
      (remainder : op = .percent → operandNext mid = true)
      (left : Derives free n (.product t) ts (.operator op :: mid))
      (right : Derives free n (.signed u) mid rest) :
      Derives free n (.product (.binary b t u)) ts rest
  | signed_sign {n op u t ts rest} (hop : signOp? op = some u)
      (operand : Derives free n (.signed t) ts rest) :
      Derives free (n + 1) (.signed (.unary u t)) (.operator op :: ts) rest
  | signed_power {n t ts rest} (h : Derives free n (.power t) ts rest) :
      Derives free n (.signed t) ts rest
  | power_postfixed {n t ts rest} (h : Derives free n (.postfixed t) ts rest) :
      Derives free n (.power t) ts rest
  | power_raised {n t u ts mid rest}
      (base : Derives free (n + 1) (.postfixed t) ts (.operator .caret :: mid))
      (exponent : Derives free n (.signed u) mid rest) :
      Derives free (n + 1) (.power (.binary .power t u)) ts rest
  | postfixed_primary {n t ts rest} (h : Derives free n (.primary t) ts rest) :
      Derives free n (.postfixed t) ts rest
  | postfixed_percent {n t ts rest}
      (operand : Derives free n (.postfixed t) ts (.operator .percent :: rest))
      (percent : operandNext rest = false) :
      Derives free n (.postfixed (.unary .percent t)) ts rest
  | number {n x rest} : Derives free n (.primary (.literal x)) (.number x :: rest) rest
  | group {n t ts rest} (inner : Derives free n (.sum t) ts (.closeParen :: rest)) :
      Derives free (n + 1) (.primary t) (.openParen :: ts) rest
  | bound {n name rest} (hfree : free = some name) :
      Derives free n (.primary (.variable name)) (.name name :: rest) rest
  | constant {n name x rest} (hfree : free ≠ some name) (hconst : constant? name = some x) :
      Derives free n (.primary (.literal x)) (.name name :: rest) rest
  | call {n name f args ts rest} (hfree : free ≠ some name) (hconst : constant? name = none)
      (hfun : Function.ofName? name = some f) (harity : args.length = f.arity)
      (inner : Derives free n (.arguments args) ts (.closeParen :: rest)) :
      Derives free (n + 1) (.primary (.call name args)) (.name name :: .openParen :: ts) rest
  | arguments_none {n rest} : Derives free n (.arguments []) rest rest
  | arguments_some {n t args ts mid rest} (first : Derives free n (.sum t) ts mid)
      (others : Derives free n (.furtherArguments args) mid rest) :
      Derives free n (.arguments (t :: args)) ts rest
  | further_none {n rest} : Derives free n (.furtherArguments []) rest rest
  | further_some {n t args ts mid rest} (next : Derives free n (.sum t) ts mid)
      (others : Derives free n (.furtherArguments args) mid rest) :
      Derives free n (.furtherArguments (t :: args)) (.comma :: ts) rest

variable {free : Option String}

/-- **More room for nesting does no harm.** -/
theorem Derives.mono {n k : Nat} {p : Phrase} {ts rest : List Token}
    (h : Derives free n p ts rest) (hk : n ≤ k) : Derives free k p ts rest := by
  induction h generalizing k with
  | sum_product _ ih => exact .sum_product (ih hk)
  | sum_binary hop _ _ ihl ihr => exact .sum_binary hop (ihl hk) (ihr hk)
  | product_signed _ ih => exact .product_signed (ih hk)
  | product_binary hop hrem _ _ ihl ihr => exact .product_binary hop hrem (ihl hk) (ihr hk)
  | signed_sign hop _ ih =>
    obtain ⟨k, rfl⟩ := Nat.exists_eq_add_of_le' hk
    exact .signed_sign hop (ih (Nat.le_add_left _ k))
  | signed_power _ ih => exact .signed_power (ih hk)
  | power_postfixed _ ih => exact .power_postfixed (ih hk)
  | power_raised _ _ ihb ihe =>
    obtain ⟨k, rfl⟩ := Nat.exists_eq_add_of_le' hk
    exact .power_raised (ihb hk) (ihe (Nat.le_add_left _ k))
  | postfixed_primary _ ih => exact .postfixed_primary (ih hk)
  | postfixed_percent _ hp ih => exact .postfixed_percent (ih hk) hp
  | number => exact .number
  | group _ ih =>
    obtain ⟨k, rfl⟩ := Nat.exists_eq_add_of_le' hk
    exact .group (ih (Nat.le_add_left _ k))
  | bound hf => exact .bound hf
  | constant hf hc => exact .constant hf hc
  | call hf hc hfun ha _ ih =>
    obtain ⟨k, rfl⟩ := Nat.exists_eq_add_of_le' hk
    exact .call hf hc hfun ha (ih (Nat.le_add_left _ k))
  | arguments_none => exact .arguments_none
  | arguments_some _ _ ihf iho => exact .arguments_some (ihf hk) (iho hk)
  | further_none => exact .further_none
  | further_some _ _ ihn iho => exact .further_some (ihn hk) (iho hk)

/-- What a phrase can begin with. -/
def Phrase.Begins : Phrase → List Token → Prop
  | .sum _, ts | .product _, ts | .signed _, ts => ∃ s others, ts = s :: others ∧ s ≠ .closeParen
  | .power _, ts | .postfixed _, ts | .primary _, ts => operandNext ts = true
  | .arguments _, _ | .furtherArguments _, _ => True

theorem exists_of_operandNext {ts : List Token} (h : operandNext ts = true) :
    ∃ s others, ts = s :: others ∧ s ≠ .closeParen := by
  unfold operandNext at h
  split at h
  · exact ⟨_, _, rfl, nofun⟩
  · exact ⟨_, _, rfl, nofun⟩
  · exact ⟨_, _, rfl, nofun⟩
  · cases h

theorem Derives.begins {n : Nat} {p : Phrase} {ts rest : List Token}
    (h : Derives free n p ts rest) : p.Begins ts := by
  induction h with
  | sum_product _ ih => exact ih
  | sum_binary _ _ _ ih _ => exact ih
  | product_signed _ ih => exact ih
  | product_binary _ _ _ _ ih _ => exact ih
  | signed_sign => exact ⟨_, _, rfl, nofun⟩
  | signed_power _ ih => exact exists_of_operandNext ih
  | power_postfixed _ ih => exact ih
  | power_raised _ _ ih _ => exact ih
  | postfixed_primary _ ih => exact ih
  | postfixed_percent _ _ ih => exact ih
  | number | group | bound | constant | call => rfl
  | arguments_none | arguments_some | further_none | further_some => trivial

end Abacus.Term.Grammar
