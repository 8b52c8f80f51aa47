import Abacus.Decimal.Fixed
import Abacus.Proofs.Double.Shortest

/-!
# Rounding to a number of places

A double is rounded to a number of decimal places, and the decimal is read as a double again. Where
the doubles stand closer together than the decimals of so many places, the double that is read lies
nearer to its decimal than to any other, and so has the same decimal. Where they do not, the
decimal of a double reads back to it. So the second rounding changes nothing.

* `Decimal.rounded places v`: the decimal of so many places nearest to a value, halves to even. It
  is found exactly, by a division of naturals with a remainder (`roundDiv`).
* Two grids are compared: the doubles around a point, with the unit `2 ^ e`, and the decimals, with
  the unit `1 / 10 ^ places`. The two units are never the same, save for no places at all.

Results:
* `Decimal.rounded_halfEven`: a value is rounded to a nearest decimal, halves to even.
* `Nearest.within`: a double is not farther than half a unit from what it is the rounding of.
* `eq_of_fine`, `nearest_of_coarse`: the two cases.

Used for values that are shown and read again (`Proofs/Shown`).
-/

namespace Abacus

/-! ## Rounding a quotient -/

/-- **A quotient is rounded to a nearest natural**, halves to even. -/
theorem roundDiv_halfEven (num : Nat) {den : Nat} (hden : 0 < den) :
    Double.HalfEven (num / den) (roundDiv .toEven num den) := by
  have hd : (0 : ℚ) < den := by exact_mod_cast hden
  have hmod := Nat.mod_lt num hden
  -- the quotient and what is left of it
  have hquot : (num : ℚ) / den = (num / den : Nat) + (num % den : Nat) / den := by
    rw [eq_comm, ← sub_eq_zero]
    field_simp
    have : ((den * (num / den) + num % den : Nat) : ℚ) = num := by rw [Nat.div_add_mod]
    push_cast at this
    linarith
  have hnonneg : (0 : ℚ) ≤ (num % den : Nat) / den := by positivity
  have hone : ((num % den : Nat) : ℚ) / den < 1 :=
    (div_lt_one hd).mpr (by exact_mod_cast hmod)
  rw [hquot]
  unfold roundDiv
  rcases lt_trichotomy (2 * (num % den)) den with h | h | h
  · have hhalf : ((num % den : Nat) : ℚ) / den < 1 / 2 := by
      rw [div_lt_div_iff₀ hd two_pos]
      exact_mod_cast (by omega : num % den * 2 < 1 * den)
    rw [Nat.compare_eq_lt.mpr h]
    exact .of_lt (abs_lt.mpr ⟨by linarith, by linarith⟩)
  · have hhalf : ((num % den : Nat) : ℚ) / den = 1 / 2 := by
      rw [div_eq_div_iff hd.ne' two_ne_zero]
      exact_mod_cast (by omega : num % den * 2 = 1 * den)
    rw [Nat.compare_eq_eq.mpr h, hhalf]
    refine ⟨?_, fun _ => by dsimp only; omega⟩
    rcases Nat.mod_two_eq_zero_or_one (num / den) with hb | hb
    · dsimp only
      rw [hb, Nat.add_zero]
      exact abs_le.mpr ⟨by linarith, by linarith⟩
    · dsimp only
      rw [hb]
      push_cast
      exact abs_le.mpr ⟨by linarith, by linarith⟩
  · have hhalf : 1 / 2 < ((num % den : Nat) : ℚ) / den := by
      rw [div_lt_div_iff₀ two_pos hd]
      exact_mod_cast (by omega : 1 * den < num % den * 2)
    rw [Nat.compare_eq_gt.mpr h]
    refine .of_lt ?_
    push_cast
    exact abs_lt.mpr ⟨by linarith, by linarith⟩

namespace Double

variable {q s : ℚ} {m r n : Nat} {e : Int}

/-- Two naturals that are nearest to a rational, one of them strictly, are the same. -/
theorem HalfEven.eq_of_abs_lt (h : HalfEven s r) (hn : |(n : ℚ) - s| < 1 / 2) : r = n := by
  by_contra hne
  have := (h.closest (k := n) (Ne.symm hne)).1
  have hone : (1 : ℚ) ≤ |(r : ℚ) - n| := by
    have hi : (1 : ℤ) ≤ |(r : ℤ) - n| := Int.one_le_abs (by omega)
    exact_mod_cast hi
  have htri := abs_sub_le (r : ℚ) s n
  rw [abs_sub_comm s (n : ℚ)] at htri
  linarith

/-! ## Distance of a double from what it is the rounding of -/

/-- The point one unit above is a point of the grid. -/
theorem Canonical.exists_above (h : Canonical m e) :
    ∃ m' e', Canonical m' e' ∧ point m' e' = point m e + 2 ^ e := by
  rw [← point_succ]
  have hlt := h.lt
  by_cases hm : m + 1 < 2 ^ 53
  · obtain ⟨m', e', hc, -, hp⟩ := exists_canonical hm h.least
    exact ⟨m', e', hc, hp⟩
  · have hm : m + 1 = 2 ^ 52 * 2 ^ 1 := by omega
    have hleast := h.least
    exact ⟨2 ^ 52, e + 1, ⟨by decide, by omega, .inl le_rfl⟩, by rw [hm, ← point_shift]; rfl⟩

/-- The point one unit below, if there is one, is a point of the grid. -/
theorem Canonical.exists_below (h : Canonical m e) (hm : m ≠ 0) :
    ∃ m' e', Canonical m' e' ∧ point m' e' = point m e - 2 ^ e := by
  obtain ⟨k, rfl⟩ := Nat.exists_eq_succ_of_ne_zero hm
  obtain ⟨m', e', hc, -, hp⟩ := exists_canonical (Nat.lt_of_succ_lt h.lt) h.least
  exact ⟨m', e', hc, by rw [hp, Nat.succ_eq_add_one, point_succ, add_sub_cancel_right]⟩

/-- **A nearest point is not farther than half its unit.** -/
theorem Nearest.within (h : Nearest q m e) (hq : 0 ≤ q) : |point m e - q| ≤ 2 ^ e / 2 := by
  have hu := unit_pos e
  rcases le_total (point m e) q with hle | hle
  · obtain ⟨m', e', hc, hp⟩ := h.canonical.exists_above
    have hclose := h.closest _ _ hc
    rw [hp] at hclose
    rw [abs_of_nonpos (by linarith)] at hclose ⊢
    rcases abs_cases (point m e + 2 ^ e - q) with ⟨ha, -⟩ | ⟨ha, -⟩ <;> linarith
  · by_cases hm : m = 0
    · have hz : point m e = 0 := by rw [hm, point_zero]
      rw [hz] at hle ⊢
      rw [le_antisymm hle hq, sub_self, abs_zero]
      linarith
    · obtain ⟨m', e', hc, hp⟩ := h.canonical.exists_below hm
      have hclose := h.closest _ _ hc
      rw [hp] at hclose
      rw [abs_of_nonneg (by linarith)] at hclose ⊢
      rcases abs_cases (point m e - 2 ^ e - q) with ⟨ha, -⟩ | ⟨ha, -⟩ <;> linarith

/-! ## Two grids -/

section Grids

variable {places : Nat}

theorem abs_mul_places_sub (k : Nat) (y : ℚ) (places : Nat) :
    |(k : ℚ) - y * 10 ^ places| = |y - k / 10 ^ places| * 10 ^ places := by
  have hten : (0 : ℚ) < 10 ^ places := by positivity
  rw [← abs_of_pos hten, ← abs_mul, abs_of_pos hten, sub_mul, div_mul_cancel₀ _ hten.ne',
    abs_sub_comm]

/-- **Where the doubles stand closer together than the decimals**, the double that a decimal is
read as has no other decimal. -/
theorem eq_of_fine (h : Nearest (n / 10 ^ places) m e) (hfine : 2 ^ e * 10 ^ places < (1 : ℚ))
    (hr : HalfEven (point m e * 10 ^ places) r) : r = n := by
  refine hr.eq_of_abs_lt ?_
  have hwithin := h.within (by positivity)
  have hten : (0 : ℚ) < 10 ^ places := by positivity
  rw [abs_mul_places_sub]
  calc |point m e - n / 10 ^ places| * 10 ^ places ≤ 2 ^ e / 2 * 10 ^ places :=
        mul_le_mul_of_nonneg_right hwithin hten.le
    _ < 1 / 2 := by linarith

/-- A point that is a whole number is its own decimal. -/
theorem HalfEven.eq_of_whole {k : Nat} (hr : HalfEven (point m e * 10 ^ places) r)
    (hk : point m e = k) : (r : ℚ) / 10 ^ places = point m e := by
  have hten : (10 : ℚ) ^ places ≠ 0 := by positivity
  have hnat : r = k * 10 ^ places := by
    refine hr.eq_of_abs_lt ?_
    rw [hk]
    push_cast
    rw [sub_self, abs_zero]
    norm_num
  rw [hnat, hk]
  push_cast
  rw [mul_div_cancel_right₀ _ hten]

theorem Canonical.nearest_self (h : Canonical m e) : Nearest (point m e) m e := by
  have hg := Canonical.gapBelow_pos m e
  have hu := unit_pos e
  refine nearest_of_within h (by linarith) (by linarith) ?_
  rintro (hx | hx) <;> linarith

/-- **Where the decimals stand closer together than the doubles**, the decimal of a double reads
back to it. Below a power of two the doubles stand twice as close, but such a power is a whole
number. -/
theorem nearest_of_coarse (h : Canonical m e) (hcoarse : 1 < (2 : ℚ) ^ e * 10 ^ places)
    (hplaces : (10 : ℚ) ^ places ≤ 2 ^ 52) (hr : HalfEven (point m e * 10 ^ places) r) :
    Nearest (r / 10 ^ places) m e := by
  have hten : (0 : ℚ) < 10 ^ places := by positivity
  by_cases hnarrow : m = 2 ^ 52 ∧ -1074 < e
  -- half a unit is too far below a power of two, but its decimal is the power itself
  · have hexp : -52 < e := by
      by_contra hle
      have hsmall : (2 : ℚ) ^ e ≤ 2 ^ (-52 : Int) := unit_le (by omega)
      have : (2 : ℚ) ^ e * 10 ^ places ≤ 2 ^ (-52 : Int) * 2 ^ 52 :=
        mul_le_mul hsmall hplaces hten.le (by positivity)
      norm_num at this
      linarith
    have hwhole : point m e = (2 ^ (52 + e).toNat : Nat) := by
      obtain ⟨k, hk⟩ : ∃ k : Nat, e = -52 + k := ⟨(e + 52).toNat, by omega⟩
      rw [hnarrow.1, hk, point_shift, point, show (52 + (-52 + (k : Int))).toNat = k by omega]
      push_cast
      rw [mul_right_comm]
      norm_num
    rw [hr.eq_of_whole hwhole]
    exact h.nearest_self
  · have hgap : Canonical.gapBelow m e = 2 ^ e := if_neg hnarrow
    have hw := hr.within
    rw [abs_mul_places_sub] at hw
    have hlt : |point m e - r / 10 ^ places| < 2 ^ e / 2 := by
      refine lt_of_mul_lt_mul_right ?_ hten.le
      linarith
    have hlt := abs_lt.mp hlt
    refine nearest_of_within h (by rw [hgap]; linarith) (by linarith) ?_
    rw [hgap]
    rintro (hx | hx) <;> linarith

end Grids

end Double

/-! ## The decimal of a double -/

/-- The magnitude as a quotient of naturals. -/
theorem Exact.steps_div (v : Exact) :
    (v.steps 0 : ℚ) / (Nat.pow 2 (-v.exponent).toNat : Nat) =
      Double.point v.mantissa v.exponent := by
  obtain ⟨negative, m, e⟩ := v
  unfold steps Double.point
  dsimp only
  rw [Nat.cast_mul, cast_natPow, cast_natPow, Nat.cast_ofNat, Int.sub_zero]
  rcases le_total 0 e with he | he
  · lift e to Nat using he
    rw [Int.toNat_natCast, show (-(e : Int)).toNat = 0 by omega, pow_zero, div_one, zpow_natCast]
  · obtain ⟨k, rfl⟩ : ∃ k : Nat, e = -k := ⟨(-e).toNat, by omega⟩
    rw [neg_neg, Int.toNat_natCast, show (-(k : Int)).toNat = 0 by omega, pow_zero, mul_one,
      zpow_neg, zpow_natCast, div_eq_mul_inv]

/-- **A value is rounded to a nearest decimal**, halves to even. -/
theorem Decimal.rounded_halfEven (places : Nat) (v : Exact) :
    Double.HalfEven (Double.point v.mantissa v.exponent * 10 ^ places)
      (Decimal.rounded places v).digits := by
  have hden : 0 < Nat.pow 2 (-v.exponent).toNat := Nat.pow_pos (by decide)
  have h := roundDiv_halfEven (v.steps 0 * Nat.pow 10 places) hden
  rwa [Nat.cast_mul, cast_natPow, Nat.cast_ofNat, mul_div_right_comm, v.steps_div] at h

end Abacus
