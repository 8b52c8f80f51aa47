/-!
# Decimals

A decimal is `digits · 10 ^ exponent`, with a natural number for the digits and no sign. It stands
between a double and its text in both directions: a numeral is read as a decimal and the decimal as
a double, and a double is rounded to a decimal that is then written down.

* A decimal is not normalized. `10 · 10 ^ 0` and `1 · 10 ^ 1` are different decimals of one value,
  and which of them a writer is given decides how many zeros it writes.
* `Decimal.toFloat` rounds once, halves to even, and is infinite above the largest double. That this
  is so, although few digits are read on a shorter way, is `Proofs/Double/Reading`.
* `roundDiv` rounds a quotient of naturals to a natural. `Tie` says where a quotient halfway between
  two naturals goes. Both rules are in use: decimals of a fixed number of places and numbers in JSON
  go to the even digit, and numbers in expressions and results to the upper one.
-/

namespace Abacus

/-- The number `digits · 10 ^ exponent`. -/
structure Decimal where
  digits : Nat
  exponent : Int
deriving DecidableEq, Repr

namespace Decimal

/-- The double nearest to the decimal, halves to even; infinite above the largest double. -/
def toFloat (d : Decimal) : Float :=
  Float.ofScientific d.digits (decide (d.exponent < 0)) d.exponent.natAbs

end Decimal

/-- Where a value exactly between two candidates goes. -/
inductive Tie where
  /-- to the even candidate -/
  | toEven
  /-- to the upper candidate -/
  | up
deriving DecidableEq, Repr

/-- The natural nearest to `num / den`. -/
def roundDiv (tie : Tie) (num den : Nat) : Nat :=
  let low := num / den
  match compare (2 * (num % den)) den, tie with
  | .lt, _ => low
  | .gt, _ => low + 1
  | .eq, .up => low + 1
  | .eq, .toEven => low + low % 2

end Abacus
