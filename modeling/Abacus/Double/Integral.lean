import Abacus.Double.Exact

/-!
# Rounding a double to an integer

The functions `floor`, `ceil` and `round` of the catalogue.

* `floor` is computed on the exact value: the whole units of the magnitude, and one more below zero
  if anything is left over. It keeps the negative zero.
* `ceil` is the floor of the negative, so from `(-1, 0)` it is the negative zero.
* `halfUp` is the keypad rule for rounding, in which a half goes toward positive infinity: `2.5`
  goes to `3` and `-2.5` to `-2`. It is computed with doubles, from the floor and from what is left
  above it, and both the difference and the sum are rounded.

NaN and the infinities stay as they are, in all three.

That the two roundings in `halfUp` do no harm, so that it is the greatest integer not above the
number and a half, is `Proofs/Double/Integral`.
-/

namespace Abacus.Double

/-- The greatest integer not above the value; `-0` stays `-0`. -/
def floor (x : Float) : Float :=
  match Exact.of? x with
  | none => x
  | some v =>
    let unit := Nat.pow 2 (-v.exponent).toNat
    let whole := v.steps 0 / unit
    if v.negative && v.steps 0 % unit != 0 then (Exact.mk true (whole + 1) 0).toFloat
    else (Exact.mk v.negative whole 0).toFloat

/-- The least integer not below the value; from `(-1, 0)` it is `-0`. -/
def ceil (x : Float) : Float := -floor (-x)

/-- The nearest integer, a half going toward positive infinity. -/
def halfUp (x : Float) : Float :=
  let low := floor x
  if x - low ≥ 0.5 then low + 1 else low

end Abacus.Double
