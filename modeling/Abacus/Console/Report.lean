import Abacus.Console.Json
import Abacus.Curve
import Abacus.Decimal.Fixed
import Abacus.Matter.MolarMass

/-!
# Reports

What is printed for a curve and for a molar mass, as text and as JSON.

* A curve is a line for each point, a tab between the coordinates; a gap has an abscissa only, and
  the tab. Numbers are written by `plain`, so no line has an exponent in it.
* A molar mass is a table of its shares with a line for the total. Masses are rounded to three
  decimals from their exact values.
* `row` puts four cells side by side, in columns of 8, 8, 14 and 14 characters, with nothing between
  them. These are least widths, and a longer text takes the room it needs and pushes the rest of its
  line to the right.
* As JSON both forms hold whole doubles and not the rounded ones. A gap is a record whose `y` is
  `null`.

Proved elsewhere:
* `Proofs/Console/Plot`: both forms of a curve hold all of it.
* `Proofs/Console/Table`: which lines a table has, and when a line falls apart into its cells again.
  It does not where a text fills the last column.
-/

namespace Abacus.Console

/-! ## Curves -/

/-- The line of a point. -/
def pointLine (s : Sample) : List Char :=
  plain.write s.x ++ '\t' :: (if s.isGap then [] else plain.write s.y) ++ ['\n']

/-- A curve as text. -/
def curveText (samples : List Sample) : String := String.ofList (samples.flatMap pointLine)

/-- A curve as JSON. -/
def curveJson (samples : List Sample) : Json :=
  .list (samples.map fun s => .record [("x", .number s.x), ("y", .number s.y)])

/-! ## Molar masses -/

/-- The decimals of a mass in a table. -/
def massPlaces : Nat := 3

/-- Four cells in a row: the first to the left, the others to the right. -/
def row (first second third fourth : String) : List Char :=
  first.toList.rightpad 8 ' ' ++ second.toList.leftpad 8 ' ' ++ third.toList.leftpad 14 ' ' ++
    fourth.toList.leftpad 14 ' ' ++ ['\n']

/-- The line above the shares. -/
def massHeader : List Char := row "Element" "Count" "g/mol" "Subtotal"

/-- The line of a share. -/
def shareRow (s : Matter.Share) : List Char :=
  row s.symbol (toString s.count) (fixedText massPlaces s.atomicMass) (fixedText massPlaces s.mass)

/-- The line of the total. -/
def totalLine (m : Matter.MolarMass) : List Char :=
  s!"Total: {fixedText massPlaces m.total} g/mol\n".toList

/-- A molar mass as a table. -/
def massText (m : Matter.MolarMass) : String :=
  String.ofList (massHeader ++ m.shares.flatMap shareRow ++ totalLine m)

/-- A share as JSON. -/
def shareJson (s : Matter.Share) : Json :=
  .record [("element", .text s.symbol), ("count", .count s.count),
    ("atomic_mass", .number s.atomicMass), ("contribution", .number s.mass)]

/-- A molar mass as JSON. -/
def massJson (m : Matter.MolarMass) : Json :=
  .record [("total", .number m.total), ("breakdown", .list (m.shares.map shareJson))]

end Abacus.Console
