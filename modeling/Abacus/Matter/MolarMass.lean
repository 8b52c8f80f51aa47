import Abacus.Matter.Element
import Abacus.Matter.Formula

/-!
# Molar masses

The molar mass of a composition is the sum of its elements' shares, the atomic mass of each taken as
often as it is counted. An element that is not in the periodic table leaves no mass at all.

* `Share` is one line of the breakdown: a symbol, its count, and its atomic mass. `Share.mass` is
  their product, a double; a count of more than 53 bits is rounded before it is multiplied.
* `MolarMass` is the breakdown, in the order in which the elements first occur in the formula.
* `total` adds the shares in this order and rounds each sum. It starts at the negative zero, which
  changes no summand. So a breakdown without shares has the negative zero for its total, and that
  is seen where the total is printed.
* `atoms` is the number of all atoms, at most `maxCount`.
* `ofComposition` looks up the elements one by one and ends at the first that is unknown; `read`
  reads a formula first, so what is wrong with the formula is reported before any unknown element.

The total is a function of the breakdown here and not a field beside it, so no mass can be put
together whose total does not fit.

Proved elsewhere:
* `Proofs/Matter/Masses`: which element is reported, and what the shares are.
* `Proofs/Matter/Total`: the total is finite and not negative, and when it has a minus sign.

Left out is the message that is logged for a mass.
-/

namespace Abacus.Matter

/-- What one element contributes to a molar mass; masses are in g/mol. -/
structure Share where
  symbol : String
  count : Nat
  atomicMass : Float

/-- The mass of all atoms of the element. -/
def Share.mass (s : Share) : Float := s.atomicMass * Float.ofNat s.count

/-- A molar mass by its shares, in order of first appearance. -/
structure MolarMass where
  shares : List Share

namespace MolarMass

/-- The shares added from left to right. The sum starts at the zero that changes no summand, the
negative one, and that zero is the mass of nothing. -/
def total (m : MolarMass) : Float := m.shares.foldl (fun sum s => sum + s.mass) (-0.0)

/-- The number of all atoms, at most `maxCount`. -/
def atoms (m : MolarMass) : Nat := saturatingSum (m.shares.map Share.count)

/-- The share of an entry of a composition. -/
def share (entry : String × Nat) : Except Formula.Error Share :=
  match Element.ofSymbol? entry.1 with
  | some e => .ok ⟨entry.1, entry.2, e.mass⟩
  | none => .error (.unknownElement entry.1)

/-- The molar mass of a composition; the first unknown element ends it. -/
def ofComposition (c : Composition) : Except Formula.Error MolarMass := do
  let shares ← c.entries.mapM share
  .ok ⟨shares⟩

/-- The molar mass of a formula. -/
def read (mode : Mode) (text : String) : Except Formula.Error MolarMass := do
  let c ← Formula.read mode text
  ofComposition c

end MolarMass

end Abacus.Matter
