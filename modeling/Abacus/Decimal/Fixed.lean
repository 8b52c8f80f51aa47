import Abacus.Decimal.Layout

/-!
# A fixed number of places

The exact value of a double is rounded to a number of decimal places, halves to even. The rounding
is done on integers and not on doubles: the value is a mantissa times a power of two, and times a
power of ten it is a quotient of naturals.

* `Decimal.rounded` is the rounded magnitude, as a decimal with exactly so many places. The keypad
  rounds to ten of them before it shows a number.
* `fixedText` writes it, zeros included, as the masses of a table are written. A negative value
  keeps its sign even where every digit is zero, and so does the negative zero. NaN and the
  infinities have the names they have everywhere.

That rounding to places and reading the result as a double changes nothing when it is done again is
`Proofs/Double/Places`.
-/

namespace Abacus

/-- The magnitude rounded to a number of places. -/
def Decimal.rounded (places : Nat) (v : Exact) : Decimal :=
  ⟨roundDiv .toEven (v.steps 0 * Nat.pow 10 places) (Nat.pow 2 (-v.exponent).toNat),
    -(places : Int)⟩

/-- The double written with exactly so many places; NaN and the infinities have names. -/
def fixedText (places : Nat) (x : Float) : String :=
  match Exact.of? x with
  | some v =>
    let digits := (Decimal.rounded places v).positional false
    String.ofList (if v.negative then '-' :: digits else digits)
  | none => plain.text x

end Abacus
