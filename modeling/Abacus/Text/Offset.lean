/-!
# Offsets

Positions in a text are reported as the number of bytes before them in UTF-8. Texts are lists of
characters here, which know nothing of bytes, so the offset is carried along by whoever goes through
a text: the scanner of expressions and the scanner of formulas add the `byteLength` of what they
have passed. A character has one to four bytes, and so an offset is not the number of characters
before it.

That these numbers are places in the encoded text, at which it can be cut, is proved in
`Proofs/Faultless/Cursor` for a scanner that has nothing but the offset.

Results:
* `byteLength_append`: the length of two texts, one behind the other.
* `byteLength_pos`: no character is without a length, so offsets increase from token to token.
-/

namespace Abacus

/-- The number of bytes the characters take in UTF-8. -/
def byteLength : List Char → Nat
  | [] => 0
  | c :: cs => c.utf8Size + byteLength cs

@[simp] theorem byteLength_nil : byteLength [] = 0 := rfl

@[simp] theorem byteLength_cons (c : Char) (cs : List Char) :
    byteLength (c :: cs) = c.utf8Size + byteLength cs := rfl

@[simp] theorem byteLength_append (a b : List Char) :
    byteLength (a ++ b) = byteLength a + byteLength b := by
  induction a with
  | nil => simp
  | cons c a ih => simp [ih, Nat.add_assoc]

/-- A text that is not empty has a positive length. -/
theorem byteLength_pos {cs : List Char} (h : cs ≠ []) : 0 < byteLength cs := by
  cases cs with
  | nil => exact absurd rfl h
  | cons c cs =>
    rw [byteLength_cons]
    exact Nat.add_pos_left c.utf8Size_pos _

end Abacus
