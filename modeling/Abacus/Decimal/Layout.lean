import Abacus.Decimal.Shortest

/-!
# How a double is written

A double is written in two steps: the fewest digits that read back are found first (`shortest`), and
where the point stands and whether there is an exponent is decided then. `Layout` collects the
decisions, and `Layout.write` writes a double by them.

* `plain` is the form of expressions, results and messages: positional at every magnitude, so it
  never holds an exponent, and an integer has no point. It can be entered on the keypad.
* JSON has a layout of its own, in `Console/Json`.
* The sign of a zero is written. NaN and the infinities have names: `NaN`, `inf` and `-inf`.
* `Decimal.positional` writes a decimal with all its digits down to the unit, or down to its last
  one behind the point; `Decimal.scientific` with one digit before the point and a signed exponent.

That every layout reads back to the double it was written for is `Proofs/Decimal/Layouts`, and that
the plain form is an expression of that value is `Proofs/Term/Numbers`.
-/

namespace Abacus

/-- The decisions of a written form. -/
structure Layout where
  /-- the least and the greatest exponent of the leading digit that are written positionally;
  all are if there is no range -/
  positional : Option (Int × Int)
  /-- an integer keeps `.0` -/
  pointZero : Bool
  /-- which of two equally short and equally near decimals is written -/
  tie : Tie

/-- Sets a point before the last `places` digits, with zeros in front so that at least one digit
stands before it. -/
def setPoint (places : Nat) (digits : List Char) : List Char :=
  let padded := digits.leftpad (places + 1) '0'
  let whole := padded.length - places
  padded.take whole ++ '.' :: padded.drop whole

namespace Decimal

/-- The power of ten of the leading digit. -/
def leading (d : Decimal) : Int := (Nat.toDigits 10 d.digits).length - 1 + d.exponent

/-- All digits down to the unit, or to the last one behind the point. -/
def positional (d : Decimal) (pointZero : Bool) : List Char :=
  let digits := Nat.toDigits 10 d.digits
  if 0 ≤ d.exponent then
    digits ++ List.replicate d.exponent.toNat '0' ++ (if pointZero then ['.', '0'] else [])
  else setPoint (-d.exponent).toNat digits

/-- One digit before the point, and a signed exponent. -/
def scientific (d : Decimal) : List Char :=
  let mantissa := match Nat.toDigits 10 d.digits with
    | first :: [] => [first]
    | first :: rest => first :: '.' :: rest
    | [] => []
  let sign := if d.leading < 0 then '-' else '+'
  mantissa ++ 'e' :: sign :: Nat.toDigits 10 d.leading.natAbs

end Decimal

namespace Layout

/-- Writes a decimal without sign. -/
def magnitude (l : Layout) (d : Decimal) : List Char :=
  match l.positional with
  | none => d.positional l.pointZero
  | some (least, greatest) =>
    if least ≤ d.leading ∧ d.leading ≤ greatest then d.positional l.pointZero else d.scientific

/-- Writes a double, with the sign of a zero; NaN and the infinities have names. -/
def write (l : Layout) (x : Float) : List Char :=
  match Exact.of? x with
  | some v =>
    let digits := l.magnitude (.shortest l.tie v)
    if v.negative then '-' :: digits else digits
  | none =>
    if x.isNaN then ['N', 'a', 'N']
    else if x < 0 then ['-', 'i', 'n', 'f'] else ['i', 'n', 'f']

/-- The written form as a string. -/
def text (l : Layout) (x : Float) : String := String.ofList (l.write x)

end Layout

/-- Numbers in expressions and results: positional at every magnitude, integers without a point,
a tie to the upper candidate. -/
def plain : Layout := ⟨none, false, .up⟩

end Abacus
