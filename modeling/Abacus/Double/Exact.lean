/-!
# The exact value of a double

A finite double is `± mantissa · 2 ^ exponent` with naturals and integers only, so operations
that are exact on paper are computed there and rounded once. This is how the program rounds to
integers and to decimal places, takes remainders, and finds the fewest digits of a double.

* `Exact.of?` reads the value off a finite double, and is `none` on NaN and the infinities. The
  sign is kept apart, so a zero has one.
* `Exact.toFloat` is the double nearest to an exact value, halves to the even mantissa; it is
  infinite beyond the greatest double.
* `Exact.steps` counts a magnitude in a finer unit, so that two values can be compared or divided in
  a common one.
* `Double.nan` is the one NaN that results have. Bits of a NaN that cannot be seen in a result are
  not told apart.

An `Exact` need not be the value of any double: mantissa and exponent are unbounded. Which of them
are is the subject of `Proofs/Double/Grid` and `Proofs/Double/Packing`.
-/

namespace Abacus

open Float.Model (UnpackedFloat)

/-- The number `± mantissa · 2 ^ exponent`; the sign is kept on zero. -/
structure Exact where
  negative : Bool
  mantissa : Nat
  exponent : Int
deriving DecidableEq, Repr

namespace Exact

/-- The value of a finite double. -/
def of? (x : Float) : Option Exact :=
  match x.toModel.unpack with
  | .zero s => some ⟨s == .negative, 0, 0⟩
  | .finite s m e _ => some ⟨s == .negative, m, e⟩
  | .infinity _ => none
  | .notANumber => none

/-- The nearest double, halves to the even mantissa; a zero keeps the sign. -/
def toFloat (v : Exact) : Float :=
  let sign : UnpackedFloat.Sign := if v.negative then .negative else .positive
  .ofModel <| .pack <|
    if v.mantissa = 0 then .zero sign else .round .binary64 sign v.mantissa v.exponent

/-- The magnitude in steps of `2 ^ exponent`, for an exponent not above the value's own. -/
def steps (v : Exact) (exponent : Int) : Nat :=
  v.mantissa * Nat.pow 2 (v.exponent - exponent).toNat

end Exact

namespace Double

/-- Not a number. -/
def nan : Float := 0 / 0

/-- Positive infinity. -/
def infinity : Float := 1 / 0

end Double

end Abacus
