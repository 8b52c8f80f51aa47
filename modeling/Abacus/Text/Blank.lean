/-!
# Blank characters

White space is the Unicode property White_Space: 25 code points in ten ranges. All parts of the
program mean the same by it. It stands between tokens and between the pieces of a formula, it
belongs to both alphabets of expressions, and keys that are nothing else are shown as zero.

* `blankRanges` is the table of the property, and `isBlank` looks a character up in it. The library
  knows four of the 25 only, so the table is written out.
* `isBlankText` also holds of the empty text.

Results:
* `isBlank_of_isWhitespace`: every character that the library calls white space is blank.
* `not_isBlank_of_isAlphanum`: no ASCII letter or digit is, so a blank character ends a name and a
  number.
-/

namespace Abacus

/-- The closed ranges of code points with the property White_Space, ascending and apart. -/
def blankRanges : List (Nat × Nat) :=
  [(0x09, 0x0D), (0x20, 0x20), (0x85, 0x85), (0xA0, 0xA0), (0x1680, 0x1680), (0x2000, 0x200A),
   (0x2028, 0x2029), (0x202F, 0x202F), (0x205F, 0x205F), (0x3000, 0x3000)]

/-- The character has the property White_Space. -/
def isBlank (c : Char) : Bool :=
  blankRanges.any fun r => decide (r.1 ≤ c.toNat) && decide (c.toNat ≤ r.2)

/-- The text holds blank characters only, or none at all. -/
def isBlankText (cs : List Char) : Bool := cs.all isBlank

/-- The table adds to the white space of core and takes nothing away. -/
theorem isBlank_of_isWhitespace {c : Char} (h : c.isWhitespace = true) : isBlank c = true := by
  simp only [Char.isWhitespace, Bool.or_eq_true, decide_eq_true_eq] at h
  rcases h with ((h | h) | h) | h <;> subst h <;> decide

/-- Letters and digits of ASCII are never blank. -/
theorem not_isBlank_of_isAlphanum {c : Char} (h : c.isAlphanum = true) : isBlank c = false := by
  have hn : (48 ≤ c.toNat ∧ c.toNat ≤ 57) ∨ (65 ≤ c.toNat ∧ c.toNat ≤ 90) ∨
      (97 ≤ c.toNat ∧ c.toNat ≤ 122) := by
    have halves : c.isAlphanum = ((c.isUpper || c.isLower) || c.isDigit) := rfl
    have upper : c.isUpper = decide (65 ≤ c.val ∧ c.val ≤ 90) := rfl
    have lower : c.isLower = (decide (97 ≤ c.val) && decide (c.val ≤ 122)) := rfl
    have digit : c.isDigit = (decide (48 ≤ c.val) && decide (c.val ≤ 57)) := rfl
    have e : c.val.toNat = c.toNat := rfl
    rw [halves, upper, lower, digit] at h
    simp only [Bool.or_eq_true, Bool.and_eq_true, decide_eq_true_eq, UInt32.le_iff_toNat_le] at h
    rw [e] at h
    simp at h
    omega
  simp [isBlank, blankRanges]
  omega

end Abacus
