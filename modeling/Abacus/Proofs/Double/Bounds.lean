import Abacus.Proofs.Double.Arithmetic

/-!
# Doubles without sign, up to a bound

Sums, products and conversions of numbers that are not negative are doubles without a minus sign.
If what is rounded is not above a bound that is a double itself, the rounding is not above it
either. A sum that starts at the negative zero loses its sign with the first summand.

`UpTo b x` says all of it: the double is finite and without minus sign, and its value is not above
the bound. The bounds are chosen on the grid, as powers of two and their small multiples, so nothing
has to be known of the rounded values but that rounding keeps the order (`Rounding.le_of_le`).

Results:
* `UpTo.of_nearest`: the rounding of what is not above the bound.
* `UpTo.ofNat`, `UpTo.mul`, `UpTo.add`: conversions, products and sums.

Used for the total of a molar mass (`Proofs/Matter/Total`).
-/

namespace Abacus.Double

open Float.Model.UnpackedFloat

/-- The double is finite and without minus sign, and its value is not above the bound. -/
structure UpTo (b : ℚ) (x : Float) : Prop where
  unsigned : Unsigned x
  stands : ∃ a, Stands x a ∧ a ≤ b

variable {x y : Float} {a b p q : ℚ} {m : Nat} {e : Int}

/-- A finite double without minus sign is the double at a point without sign. -/
theorem exists_ofPoint_of_unsigned (h : Stands x a) (hx : Unsigned x) :
    ∃ m e, Canonical m e ∧ e ≤ 971 ∧ x = ofPoint .positive m e ∧ a = point m e := by
  obtain ⟨v, hv, rfl⟩ := h
  obtain ⟨m, e, hc, he, rfl⟩ := exists_ofPoint_positive hv (hx v hv)
  rw [exact_ofPoint .positive hc he] at hv
  cases hv
  exact ⟨m, e, hc, he, rfl, point_exact m e⟩

theorem nonneg_of_unsigned (h : Stands x a) (hx : Unsigned x) : 0 ≤ a := by
  obtain ⟨m, e, -, -, -, rfl⟩ := exists_ofPoint_of_unsigned h hx
  exact point_nonneg m e

/-- Points with few enough bits are no overflow. -/
theorem point_lt_overflow (hm : m < 2 ^ 53) (he : -1074 ≤ e) (he' : e ≤ 971) :
    point m e < overflow := by
  obtain ⟨m', e', hc, hle, hp⟩ := exists_canonical hm he
  exact hp ▸ hc.nearest_self.lt_overflow (hle.trans he')

namespace UpTo

theorem nonneg (h : UpTo b x) : 0 ≤ b := by
  obtain ⟨a, hx, ha⟩ := h.stands
  exact (nonneg_of_unsigned hx h.unsigned).trans ha

/-- **The rounding of what is not above the bound.** -/
theorem of_nearest (h : Nearest q m e) (h0 : 0 ≤ q) (hq : q ≤ b) (hgrid : OnGrid b)
    (hsize : b < overflow) : UpTo b (ofPoint .positive m e) := by
  have habs : |q| < overflow := by
    rw [abs_of_nonneg h0]
    exact hq.trans_lt hsize
  obtain ⟨r, hr, hs⟩ := (Delivers.of_nearest .positive h0 h).stands habs
  exact ⟨(rounds_ofPoint h0 h).unsigned, r, hs, hr.le_of_le hgrid hq⟩

theorem ofNat {n : Nat} (hn : (n : ℚ) ≤ b) (hgrid : OnGrid b) (hsize : b < overflow) :
    UpTo b (Float.ofNat n) := by
  obtain ⟨m, e, h, hx⟩ := ofNat_nearest n
  exact hx ▸ of_nearest h (Nat.cast_nonneg n) hn hgrid hsize

theorem mul (hx : UpTo p x) (hy : UpTo q y) (hgrid : OnGrid (p * q)) (hsize : p * q < overflow) :
    UpTo (p * q) (x * y) := by
  obtain ⟨a, ha, hap⟩ := hx.stands
  obtain ⟨b, hb, hbq⟩ := hy.stands
  have hb0 := nonneg_of_unsigned hb hy.unsigned
  obtain ⟨m₁, e₁, hc₁, he₁, rfl, rfl⟩ := exists_ofPoint_of_unsigned ha hx.unsigned
  obtain ⟨m₂, e₂, hc₂, he₂, rfl, rfl⟩ := exists_ofPoint_of_unsigned hb hy.unsigned
  obtain ⟨m, e, h, heq⟩ := mul_ofPoint hc₁ he₁ hc₂ he₂
  rw [heq]
  exact of_nearest h (mul_nonneg (point_nonneg _ _) hb0) (mul_le_mul hap hbq hb0 hx.nonneg)
    hgrid hsize

/-- A zero of any sign and the zero without sign have a sum without sign. -/
theorem exact_zero_add (sign : Sign) :
    Exact.of? (ofPoint sign 0 (-1074) + ofPoint .positive 0 (-1074)) = some ⟨false, 0, 0⟩ := by
  cases sign <;> decide +kernel

/-- **Adding a double without sign** to one that is not negative, though it may be the negative
zero, gives a double without sign. -/
theorem add (hx : Stands x a) (h0 : 0 ≤ a) (hap : a ≤ p) (hy : UpTo q y) (hgrid : OnGrid (p + q))
    (hsize : p + q < overflow) : UpTo (p + q) (x + y) := by
  obtain ⟨b, hb, hbq⟩ := hy.stands
  have hb0 := nonneg_of_unsigned hb hy.unsigned
  rcases (add_nonneg h0 hb0).eq_or_lt with hzero | hpos
  -- only zeros add up to zero
  · obtain ⟨rfl, rfl⟩ : a = 0 ∧ b = 0 := ⟨by linarith, by linarith⟩
    obtain ⟨sign, m₁, e₁, hc₁, -, rfl, hp₁⟩ := stands_iff.mp hx
    obtain ⟨m₂, e₂, hc₂, -, rfl, hp₂⟩ := exists_ofPoint_of_unsigned hb hy.unsigned
    have hp₁ : point 0 (-1074) = point m₁ e₁ := by
      rw [point_zero, ← abs_signed sign (point_nonneg m₁ e₁), ← hp₁, abs_zero]
    obtain ⟨rfl, rfl⟩ := nearest_zero.canonical.ext hc₁ hp₁
    obtain ⟨rfl, rfl⟩ := nearest_zero.canonical.ext hc₂ (by rw [point_zero, hp₂])
    have hsum := exact_zero_add sign
    refine ⟨fun v hv => ?_, 0, ⟨_, hsum, by norm_num [value, point]⟩, by linarith⟩
    rw [hsum] at hv
    cases hv
    rfl
  · obtain ⟨sign, m, e, hnear, hsum, hsign, -⟩ := hx.add hb
    rw [abs_of_pos hpos] at hnear
    rw [hsum, hsign hpos]
    exact of_nearest hnear hpos.le (add_le_add hap hbq) hgrid hsize

end UpTo

end Abacus.Double
