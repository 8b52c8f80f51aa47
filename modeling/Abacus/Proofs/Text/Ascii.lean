/-!
# Classes of ASCII characters

Capital letters, small letters and digits are ranges of code points that do not meet. The classes of
the language hold no character beyond ASCII, so a letter with an accent or a digit of another script
is in none of them, and neither is any blank character.

Each class has its range (`isUpper_iff`, `isLower_iff`, `isDigit_iff`); that two classes exclude
each other follows from the ranges, and is stated for the pairs that a scanner has to tell apart.
-/

namespace Abacus

variable {c : Char}

theorem isUpper_iff : c.isUpper = true ↔ 65 ≤ c.toNat ∧ c.toNat ≤ 90 := by
  have h : c.isUpper = decide (65 ≤ c.val ∧ c.val ≤ 90) := rfl
  rw [h, decide_eq_true_eq, UInt32.le_iff_toNat_le, UInt32.le_iff_toNat_le]
  rfl

theorem isLower_iff : c.isLower = true ↔ 97 ≤ c.toNat ∧ c.toNat ≤ 122 := by
  have h : c.isLower = (decide (97 ≤ c.val) && decide (c.val ≤ 122)) := rfl
  rw [h, Bool.and_eq_true, decide_eq_true_eq, decide_eq_true_eq, UInt32.le_iff_toNat_le,
    UInt32.le_iff_toNat_le]
  rfl

theorem isDigit_iff : c.isDigit = true ↔ 48 ≤ c.toNat ∧ c.toNat ≤ 57 := Char.isDigit_iff_toNat

theorem isAlpha_iff : c.isAlpha = true ↔ c.isUpper = true ∨ c.isLower = true :=
  iff_of_eq (Bool.or_eq_true _ _)

theorem isAlphanum_iff : c.isAlphanum = true ↔ c.isAlpha = true ∨ c.isDigit = true :=
  iff_of_eq (Bool.or_eq_true _ _)

theorem not_isUpper_of_isLower (h : c.isLower = true) : c.isUpper = false := by
  rw [isLower_iff] at h
  rw [Bool.eq_false_iff, Ne, isUpper_iff]
  omega

theorem not_isUpper_of_isDigit (h : c.isDigit = true) : c.isUpper = false := by
  rw [isDigit_iff] at h
  rw [Bool.eq_false_iff, Ne, isUpper_iff]
  omega

theorem not_isAlpha_of_isDigit (h : c.isDigit = true) : c.isAlpha = false := by
  rw [isDigit_iff] at h
  rw [Bool.eq_false_iff, Ne, isAlpha_iff, isUpper_iff, isLower_iff]
  omega

end Abacus
