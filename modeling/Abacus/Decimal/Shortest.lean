import Abacus.Decimal.Basic
import Abacus.Double.Exact

/-!
# The fewest digits that read back

The reals that round to a double form an interval. Among the decimals in it this module picks
one with the fewest digits, and of those the one nearest to the double.

* `Readings` is that interval with its ends and the double between them, as whole multiples of
  one power of ten. So nothing is rounded on the way, and the ends are compared exactly.
* `Readings.ofExact` is the interval of a double. Its ends lie halfway to the neighbours, and belong
  to it if the mantissa is even; below a power of two the neighbour is nearer than above.
* `Readings.coarsest` tries the grids `10 ^ s` from coarse to fine; on each it tests the two
  points next to the double. The finest grid holds the double itself, so the search cannot fail.
* `Decimal.shortest` is what it finds, for a magnitude that may be zero.

Two points of one grid may be equally near. Then the `Tie` decides, which is why the same double is
written with different digits in an expression and in JSON, on rare occasions.

Proved elsewhere:
* `Proofs/Double/Shortest`: what is found reads back to the double.
* `Proofs/Double/Fewest`: no decimal with fewer digits does.
-/

namespace Abacus

/-- The reals that round to one double, in units of `10 ^ exponent`: those between `low` and
`high`, with the ends themselves if the interval is closed. -/
structure Readings where
  low : Nat
  value : Nat
  high : Nat
  closed : Bool
  exponent : Int

namespace Readings

/-- The interval around the value of a double. The gap below a power of two is half the gap
above it, save at the bottom of the range; the ends belong to the even mantissa. -/
def ofExact (v : Exact) : Readings :=
  let quarter := v.exponent - 2
  let unit := Nat.pow 2 quarter.toNat * Nat.pow 5 (-quarter).toNat
  let narrow := v.mantissa == Nat.pow 2 52 && decide (-1074 < v.exponent)
  { low := (4 * v.mantissa - if narrow then 1 else 2) * unit
    value := 4 * v.mantissa * unit
    high := (4 * v.mantissa + 2) * unit
    closed := v.mantissa % 2 == 0
    exponent := min quarter 0 }

/-- The multiple of the unit rounds to the double. -/
def contains (r : Readings) (n : Nat) : Bool :=
  (decide (r.low < n) || (r.closed && n == r.low)) &&
    (decide (n < r.high) || (r.closed && n == r.high))

/-- The grid point inside the interval that is nearest to the value, if one of the value's two
neighbours on the grid lies inside. -/
def hit? (r : Readings) (tie : Tie) (grid : Nat) : Option Nat :=
  let below := r.value / grid
  match r.contains (below * grid), r.contains ((below + 1) * grid) with
  | true, true => some (roundDiv tie r.value grid)
  | true, false => some below
  | false, true => some (below + 1)
  | false, false => none

/-- The first hit on the grids `10 ^ s`, …, `10`, `1`; the last one holds the value itself. -/
def coarsest (r : Readings) (tie : Tie) : Nat → Decimal
  | 0 => ⟨r.value, r.exponent⟩
  | s + 1 =>
    match r.hit? tie (Nat.pow 10 (s + 1)) with
    | some d => ⟨d, r.exponent + (s + 1 : Nat)⟩
    | none => r.coarsest tie s

end Readings

/-- The fewest digits that read back to the double with this value, and of those the nearest.
No grid coarser than the number of digits of the value can hold a point of the interval. -/
def Decimal.shortest (tie : Tie) (v : Exact) : Decimal :=
  if v.mantissa = 0 then ⟨0, 0⟩
  else
    let r := Readings.ofExact v
    r.coarsest tie r.value.repr.length

end Abacus
