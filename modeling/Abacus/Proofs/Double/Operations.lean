import Abacus.Proofs.Double.Packing

/-!
# Products and quotients of doubles

The product and the quotient of two magnitudes are rounded once: the result is the grid point
nearest to the exact one. The product of two mantissas is exact before it is rounded. A quotient is
not: it is cut off at an exponent at which it has enough bits (`quotientExponent`), and what is left
is kept as the accuracy, which tells how to round.

The statements are about unpacked doubles, of points with signs. What the results are as words, and
when they are infinite, is `Proofs/Double/Packing`; sums are in `Proofs/Double/Arithmetic`.

Results:
* `mul_nearest`, `div_nearest`: products and quotients of unpacked doubles.
* `exists_nearest`: every rational that is not negative has a nearest point, which is found by
  dividing its numerator by its denominator.
-/

namespace Abacus.Double

open Float.Model Float.Model.UnpackedFloat

/-! ## Products -/

theorem mul_nearest {m₁ m₂ : Nat} {e₁ e₂ : Int} (s₁ s₂ : Sign) (h₁ : 0 < m₁) (h₂ : 0 < m₂)
    (he : e₁ + e₂ ≤ target (m₁ * m₂) (e₁ + e₂)) :
    ∃ m e, Nearest (point m₁ e₁ * point m₂ e₂) m e ∧
      UnpackedFloat.mul Format.binary64 (.finite s₁ m₁ e₁ h₁) (.finite s₂ m₂ e₂ h₂) =
        unpacked (s₁ * s₂) m e := by
  obtain ⟨m, e, hn, hr⟩ := roundWithAccuracy_nearest (s₁ * s₂) (holds_exact (m₁ * m₂)) he
  refine ⟨m, e, ?_, hr⟩
  have hvalue : ((m₁ * m₂ : Nat) : ℚ) * 2 ^ (e₁ + e₂) = point m₁ e₁ * point m₂ e₂ := by
    rw [point, point, zpow_add₀ two_ne_zero, Nat.cast_mul]
    ring
  rwa [hvalue] at hn

/-! ## Quotients -/

/-- What is left of a division tells how the quotient goes on. -/
theorem holds_fraction {q r d : Nat} (hr : r < d) :
    Holds (.ofMantissaAndAccuracy q (accuracyOfFraction r d)) (q + r / d) := by
  have hd : (0 : ℚ) < d := by exact_mod_cast (Nat.zero_le r).trans_lt hr
  unfold accuracyOfFraction
  by_cases h0 : r = 0
  · rw [if_pos h0, h0, Nat.cast_zero, zero_div, add_zero]
    exact holds_exact q
  rw [if_neg h0]
  have hpos : (0 : ℚ) < r / d := div_pos (by exact_mod_cast Nat.pos_of_ne_zero h0) hd
  have hone : (r : ℚ) / d < 1 := (div_lt_one hd).mpr (by exact_mod_cast hr)
  rcases lt_trichotomy (2 * r) d with h | h | h
  · have hhalf : (r : ℚ) / d < 1 / 2 := by
      rw [div_lt_div_iff₀ hd two_pos]
      exact_mod_cast (by omega : r * 2 < 1 * d)
    rw [Nat.compare_eq_lt.mpr h]
    show (q : ℚ) < q + r / d ∧ (q : ℚ) + r / d < q + 1 / 2
    exact ⟨by linarith, by linarith⟩
  · have hhalf : (r : ℚ) / d = 1 / 2 := by
      rw [div_eq_div_iff hd.ne' two_ne_zero]
      exact_mod_cast (by omega : r * 2 = 1 * d)
    rw [Nat.compare_eq_eq.mpr h, hhalf]
    rfl
  · have hhalf : 1 / 2 < (r : ℚ) / d := by
      rw [div_lt_div_iff₀ two_pos hd]
      exact_mod_cast (by omega : 1 * d < r * 2)
    rw [Nat.compare_eq_gt.mpr h]
    show (q : ℚ) + 1 / 2 < q + r / d ∧ (q : ℚ) + r / d < q + 1
    exact ⟨by linarith, by linarith⟩

/-- The exponent at which a quotient has enough bits. -/
def quotientExponent (m₁ : Nat) (e₁ : Int) (m₂ : Nat) (e₂ : Int) : Int :=
  min (e₁ - e₂)
    (Format.binary64.targetExponent (totalExponent m₁ e₁ - totalExponent m₂ e₂))

theorem quotientExponent_le (m₁ : Nat) (e₁ : Int) (m₂ : Nat) (e₂ : Int) :
    quotientExponent m₁ e₁ m₂ e₂ ≤ e₁ - e₂ := min_le_left _ _

/-- At this exponent the quotient has no fewer bits than a double. -/
theorem quotientExponent_le_target {m₁ m₂ : Nat} (e₁ e₂ : Int) (h₁ : m₁ ≠ 0) (h₂ : m₂ ≠ 0)
    {k : Nat} (hk : quotientExponent m₁ e₁ m₂ e₂ + k = e₁ - e₂) :
    quotientExponent m₁ e₁ m₂ e₂ ≤
      target ((m₁ <<< k) / m₂) (quotientExponent m₁ e₁ m₂ e₂) := by
  have hmin : Format.binary64.minExponent = -1074 := by decide
  have hbits : (Format.binary64.mantissaBits : Int) = 53 := by decide
  have hq : quotientExponent m₁ e₁ m₂ e₂ =
      min (e₁ - e₂) (max (m₁.log2 + e₁ - (m₂.log2 + e₂) - 53) (-1074)) := by
    unfold quotientExponent totalExponent Format.targetExponent
    rw [hmin, hbits]
    omega
  rw [target_eq]
  generalize quotientExponent m₁ e₁ m₂ e₂ = t at hk hq
  by_cases hsmall : t ≤ -1074
  · exact hsmall.trans (le_max_right _ _)
  · have hbitsLeft : m₂.log2 + 53 ≤ m₁.log2 + k := by omega
    have hm₂ : m₂ < 2 ^ (m₂.log2 + 1) := Nat.lt_log2_self
    have hm₁ : 2 ^ (m₁.log2 + k) ≤ m₁ <<< k := by
      rw [Nat.shiftLeft_eq, pow_add]
      exact Nat.mul_le_mul_right _ (Nat.log2_self_le h₁)
    have hle : 2 ^ 52 ≤ (m₁ <<< k) / m₂ := by
      rw [Nat.le_div_iff_mul_le (Nat.pos_of_ne_zero h₂)]
      calc 2 ^ 52 * m₂ ≤ 2 ^ 52 * 2 ^ (m₂.log2 + 1) := Nat.mul_le_mul_left _ hm₂.le
        _ = 2 ^ (m₂.log2 + 53) := by rw [← pow_add, Nat.add_comm, Nat.add_assoc]
        _ ≤ 2 ^ (m₁.log2 + k) := Nat.pow_le_pow_right two_pos hbitsLeft
        _ ≤ m₁ <<< k := hm₁
    have hlog : 52 ≤ ((m₁ <<< k) / m₂).log2 := (Nat.le_log2 (by omega)).mpr hle
    omega

theorem div_nearest {m₁ m₂ : Nat} (e₁ e₂ : Int) (s₁ s₂ : Sign) (h₁ : 0 < m₁) (h₂ : 0 < m₂) :
    ∃ m e, Nearest (point m₁ e₁ / point m₂ e₂) m e ∧
      UnpackedFloat.div Format.binary64 (.finite s₁ m₁ e₁ h₁) (.finite s₂ m₂ e₂ h₂) =
        unpacked (s₁ / s₂) m e := by
  obtain ⟨k, hk⟩ := Int.le.dest (quotientExponent_le m₁ e₁ m₂ e₂)
  have htarget := quotientExponent_le_target e₁ e₂ h₁.ne' h₂.ne' hk
  have hdiv : UnpackedFloat.div Format.binary64 (.finite s₁ m₁ e₁ h₁) (.finite s₂ m₂ e₂ h₂) =
      roundWithAccuracy Format.binary64 (s₁ / s₂)
        ((m₁ <<< (e₁ - e₂ - quotientExponent m₁ e₁ m₂ e₂).toNat) / m₂)
        (quotientExponent m₁ e₁ m₂ e₂)
        (accuracyOfFraction ((m₁ <<< (e₁ - e₂ - quotientExponent m₁ e₁ m₂ e₂).toNat) % m₂) m₂) :=
    rfl
  rw [show (e₁ - e₂ - quotientExponent m₁ e₁ m₂ e₂).toNat = k by omega] at hdiv
  generalize quotientExponent m₁ e₁ m₂ e₂ = t at hk htarget hdiv
  obtain ⟨m, e, hn, hr⟩ := roundWithAccuracy_nearest (s₁ / s₂)
    (holds_fraction (Nat.mod_lt (m₁ <<< k) h₂)) htarget
  refine ⟨m, e, ?_, hdiv.trans hr⟩
  have hd : (m₂ : ℚ) ≠ 0 := by exact_mod_cast h₂.ne'
  have hquot : (((m₁ <<< k) / m₂ : Nat) : ℚ) + ((m₁ <<< k) % m₂ : Nat) / m₂ =
      (m₁ <<< k : Nat) / m₂ := by
    rw [eq_div_iff hd, add_mul, div_mul_cancel₀ _ hd]
    exact_mod_cast Nat.div_add_mod' (m₁ <<< k) m₂
  have hvalue : ((m₁ <<< k : Nat) : ℚ) / m₂ * 2 ^ t = point m₁ e₁ / point m₂ e₂ := by
    have he : (2 : ℚ) ^ e₁ = 2 ^ t * 2 ^ k * 2 ^ e₂ := by
      rw [← zpow_natCast, ← zpow_add₀ two_ne_zero, ← zpow_add₀ two_ne_zero, hk, Int.sub_add_cancel]
    have := (unit_pos e₂).ne'
    rw [point, point, he, Nat.shiftLeft_eq]
    push_cast
    field_simp
  rwa [hquot, hvalue] at hn

/-! ## Nearest points exist -/

theorem nearest_zero : Nearest 0 0 (-1074) := by
  refine nearest_of_within ⟨by decide, le_rfl, .inr rfl⟩ ?_ ?_ fun _ => rfl
  · have := Canonical.gapBelow_pos 0 (-1074)
    rw [point_zero]
    linarith
  · have := unit_pos (-1074)
    rw [point_zero]
    linarith

/-- Every rational that is not negative has a nearest point. -/
theorem exists_nearest {q : ℚ} (hq : 0 ≤ q) : ∃ m e, Nearest q m e := by
  rcases eq_or_lt_of_le hq with rfl | hpos
  · exact ⟨_, _, nearest_zero⟩
  · have hnum : 0 < q.num.toNat := by
      have := Rat.num_pos.mpr hpos
      omega
    obtain ⟨m, e, hn, -⟩ := div_nearest 0 0 .positive .positive hnum q.den_pos
    refine ⟨m, e, ?_⟩
    have hvalue : point q.num.toNat 0 / point q.den 0 = q := by
      have hcast : ((q.num.toNat : Nat) : ℚ) = q.num := by
        exact_mod_cast Int.toNat_of_nonneg (Rat.num_nonneg.mpr hq)
      rw [point, point, zpow_zero, mul_one, mul_one, hcast]
      exact Rat.num_div_den q
    rwa [hvalue] at hn

end Abacus.Double
