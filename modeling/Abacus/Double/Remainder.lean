import Abacus.Double.Exact

/-!
# Remainder of doubles

The remainder that `%` is between two operands. `remainder x y` is `x - n · y` for the integer `n`
nearest to `x / y` on the side of zero. It has the sign of `x`, also when it is zero, and the sign
of `y` makes no difference.

Both magnitudes are counted in the finer of their two units and divided as naturals. What is left is
no finer than the unit and smaller than the divisor, so it is a double, and no rounding enters; a
quotient of doubles would have to be rounded before its integer part could be taken.

The remainder of an infinity, or by zero, is NaN, and by an infinity it is `x`.
-/

namespace Abacus.Double

/-- What is left of `x` after taking `y` away as often as fits; NaN if `x` is infinite or `y` is
0. -/
def remainder (x y : Float) : Float :=
  if x.isNaN || y.isNaN || x.isInf || y == 0 then nan
  else
    match Exact.of? x, Exact.of? y with
    | some a, some b =>
      let unit := min a.exponent b.exponent
      (Exact.mk a.negative (a.steps unit % b.steps unit) unit).toFloat
    | _, _ => x

end Abacus.Double
