import Abacus.Text.Blank

/-!
# Alphabets

The characters an expression may hold at all, looked at before anything else. A text with one
character outside its alphabet is refused as a whole, without an offset, whatever else is wrong with
it.

* The keypad has digits, the point, parentheses, the four operations and the percent sign. With it
  no name can be written, so no function, no constant and no variable, and no power.
* The scientific alphabet adds ASCII letters, the underscore, the comma and the power sign.
* Blank characters belong to both, also those outside ASCII. Every other character outside ASCII
  belongs to none.

Belonging to the alphabet is not enough: a point may stand in a text of either alphabet where no
number goes on with it, and is refused by the scanner.

Results:
* `admits_scientific`: the scientific alphabet holds whatever is on the keypad. That keys are cut
  into the same tokens in both is `Proofs/Display`.
-/

namespace Abacus

/-- A set of characters an expression may be written in. -/
inductive Alphabet where
  | keypad | scientific
deriving DecidableEq, Repr

namespace Alphabet

/-- The signs on a keypad beside the digits. -/
def keypadSigns : List Char := ['+', '-', '*', '/', '(', ')', '.', '%']

/-- The character belongs to the alphabet. -/
def admits : Alphabet → Char → Bool
  | .keypad, c => c.isDigit || keypadSigns.contains c || isBlank c
  | .scientific, c =>
    c.isAlphanum || keypadSigns.contains c || ['_', ',', '^'].contains c || isBlank c

/-- Every character belongs to the alphabet. -/
def permits (a : Alphabet) (cs : List Char) : Bool := cs.all a.admits

/-- The scientific alphabet extends the keypad. -/
theorem admits_scientific {c : Char} (h : keypad.admits c = true) :
    scientific.admits c = true := by
  simp only [admits, Char.isAlphanum, Bool.or_eq_true] at h ⊢
  rcases h with (h | h) | h
  · exact .inl (.inl (.inl (.inr h)))
  · exact .inl (.inl (.inr h))
  · exact .inr h

end Alphabet

end Abacus
