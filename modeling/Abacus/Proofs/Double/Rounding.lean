import Abacus.Proofs.Double.Grid

/-!
# Rounding a mantissa

The bits that are shifted out of a mantissa are kept as a round bit and a sticky bit. `Holds` says
which rationals such an extended mantissa stands for: one value, a half between two, or an open
interval on one side of the half. Shifting halves them, so after any number of shifts the two bits
still tell how to round.

* `target`: the exponent of the double with the leading bit of a point.
* `unpacked`: the point as an unpacked double with a sign.

All operations that round end in `roundWithAccuracy`, so this is the one place where it is opened.
What it asks for is a mantissa with no fewer bits than a double has, or an exact one.

Results:
* `Holds.halfEven`: an extended mantissa is rounded to the nearest integer, halves to even.
* `roundWithAccuracy_nearest`: rounding to a double gives the nearest point of the grid.
-/

namespace Abacus.Double

open Float.Model Float.Model.UnpackedFloat

/-- The rational has this mantissa and these two bits behind it. -/
def Holds (em : ExtendedMantissa) (s : ℚ) : Prop :=
  match em.roundBit, em.stickyBit with
  | false, false => s = em.mantissa
  | false, true => em.mantissa < s ∧ s < em.mantissa + 1 / 2
  | true, false => s = em.mantissa + 1 / 2
  | true, true => em.mantissa + 1 / 2 < s ∧ s < em.mantissa + 1

namespace Holds

variable {em : ExtendedMantissa} {s : ℚ}

theorem mantissa_le (h : Holds em s) : (em.mantissa : ℚ) ≤ s := by
  obtain ⟨m, r, st⟩ := em
  cases r <;> cases st <;> simp only [Holds] at h <;> linarith

theorem lt_mantissa_succ (h : Holds em s) : s < em.mantissa + 1 := by
  obtain ⟨m, r, st⟩ := em
  cases r <;> cases st <;> simp only [Holds] at h <;> linarith

/-- The bit that is shifted out becomes the round bit, and the one before it sticks. -/
theorem shiftRightOne (h : Holds em s) : Holds em.shiftRightOne (s / 2) := by
  obtain ⟨m, r, st⟩ := em
  have hm : (2 * (m / 2 : Nat) + (m % 2 : Nat) : ℚ) = m := by exact_mod_cast Nat.div_add_mod m 2
  unfold ExtendedMantissa.shiftRightOne
  rcases Nat.mod_two_eq_zero_or_one m with hb | hb
  · rw [hb, Nat.cast_zero, add_zero] at hm
    rw [hb]
    cases r <;> cases st <;> simp only [Holds] at h
    · show s / 2 = _
      linarith
    all_goals exact ⟨by linarith, by linarith⟩
  · rw [hb, Nat.cast_one] at hm
    rw [hb]
    cases r <;> cases st <;> simp only [Holds] at h
    · show s / 2 = _
      linarith
    all_goals exact ⟨by linarith, by linarith⟩

theorem shiftRight (h : Holds em s) (k : Nat) : Holds (em >>> k) (s / 2 ^ k) := by
  show Holds (k.repeat ExtendedMantissa.shiftRightOne em) _
  induction k with
  | zero =>
    rw [pow_zero, div_one]
    exact h
  | succ k ih =>
    rw [pow_succ, ← div_div]
    exact ih.shiftRightOne

/-- **The two bits decide the rounding.** -/
theorem halfEven (h : Holds em s) : HalfEven s em.roundedMantissa := by
  obtain ⟨m, r, st⟩ := em
  unfold ExtendedMantissa.roundedMantissa
  cases r <;> cases st <;> simp only [Holds] at h
  · show HalfEven s m
    refine .of_lt ?_
    rw [h, sub_self, abs_zero]
    norm_num
  · show HalfEven s m
    exact .of_lt (abs_lt.mpr ⟨by linarith, by linarith⟩)
  · show HalfEven s (m + m % 2)
    refine ⟨?_, fun _ => by omega⟩
    rcases Nat.mod_two_eq_zero_or_one m with hb | hb
    · rw [hb, h, Nat.add_zero]
      exact abs_le.mpr ⟨by linarith, by linarith⟩
    · rw [hb, h, Nat.cast_succ]
      exact abs_le.mpr ⟨by linarith, by linarith⟩
  · show HalfEven s (m + 1)
    refine .of_lt ?_
    rw [Nat.cast_succ]
    exact abs_lt.mpr ⟨by linarith, by linarith⟩

end Holds

/-! ## Shifting to the exponent of a double -/

/-- The exponent that a double with this leading bit has. -/
def target (m : Nat) (e : Int) : Int := Format.binary64.targetExponent (totalExponent m e)

theorem target_eq (m : Nat) (e : Int) : target m e = max (m.log2 + e - 52) (-1074) := by
  have hmin : Format.binary64.minExponent = -1074 := by decide
  have hbits : (Format.binary64.mantissaBits : Int) = 53 := by decide
  unfold target totalExponent Format.targetExponent
  rw [hmin, hbits]
  omega

theorem shiftToTargetExponent_eq (m : Nat) (e : Int) (acc : Accuracy) :
    shiftToTargetExponent Format.binary64 m e acc =
      (ExtendedMantissa.ofMantissaAndAccuracy m acc >>> (target m e - e).toNat,
        e + (target m e - e).toNat) := rfl

theorem mantissa_ofMantissaAndAccuracy (m : Nat) (acc : Accuracy) :
    (ExtendedMantissa.ofMantissaAndAccuracy m acc).mantissa = m := by
  rcases acc with _ | o
  · rfl
  · cases o <;> rfl

section Shift

variable {m k : Nat} {e : Int} {s : ℚ}

/-- The shift leaves no more than the bits of a double. -/
theorem shifted_lt (hk : e + k = target m e) (hs : s < m + 1) : s / 2 ^ k < 2 ^ 53 := by
  have ht := target_eq m e
  have hlog : m + 1 ≤ 2 ^ (53 + k) :=
    (Nat.lt_log2_self (n := m)).trans_le (Nat.pow_le_pow_right two_pos (by omega))
  rw [div_lt_iff₀ (by positivity), ← pow_add]
  exact hs.trans_le (by exact_mod_cast hlog)

/-- The shift leaves all the bits of a double, or the exponent is the least one. -/
theorem le_shifted (hk : e + k = target m e) (hs : m ≤ s) :
    2 ^ 52 ≤ s / 2 ^ k ∨ target m e = -1074 := by
  have ht := target_eq m e
  by_cases hmin : target m e = -1074
  · exact .inr hmin
  · refine .inl ((le_div_iff₀ (by positivity)).mpr ?_)
    have hne : m ≠ 0 := by
      rintro rfl
      simp at ht
      omega
    have hlog : 2 ^ (52 + k) ≤ m := by
      rw [show 52 + k = m.log2 by omega]
      exact Nat.log2_self_le hne
    rw [← pow_add]
    exact le_trans (by exact_mod_cast hlog) hs

end Shift

/-- Behind the rounding only a carry has to be shifted. -/
theorem shiftToTargetExponent_rounded {r : Nat} {e : Int} (hr : r ≤ 2 ^ 53) (he : -1074 ≤ e) :
    (shiftToTargetExponent Format.binary64 r e .exact).1.mantissa = (carry r e).1 ∧
      (shiftToTargetExponent Format.binary64 r e .exact).2 = (carry r e).2 := by
  rw [shiftToTargetExponent_eq]
  by_cases hlt : r < 2 ^ 53
  · have hlog : r.log2 < 53 := by
      rcases Nat.eq_zero_or_pos r with rfl | hpos
      · decide
      · exact (Nat.log2_lt hpos.ne').mpr hlt
    have hk : (target r e - e).toNat = 0 := by
      rw [target_eq]
      omega
    rw [carry, if_pos hlt, hk]
    exact ⟨rfl, by simp⟩
  · have hr : r = 2 ^ 53 := by omega
    have hk : (target r e - e).toNat = 1 := by
      rw [target_eq, hr, Nat.log2_two_pow]
      omega
    rw [carry, if_neg hlt, hk, hr]
    exact ⟨rfl, by simp⟩

/-- The point as an unpacked double with a sign. -/
def unpacked (sign : Sign) (m : Nat) (e : Int) : UnpackedFloat :=
  if h : m = 0 then .zero sign else .finite sign m e (Nat.pos_of_ne_zero h)

/-- Rounding shifts, rounds to a whole mantissa and shifts once more. -/
theorem roundWithAccuracy_eq (sign : Sign) (m : Nat) (e : Int) (acc : Accuracy) :
    roundWithAccuracy Format.binary64 sign m e acc =
      let shifted := shiftToTargetExponent Format.binary64 m e acc
      let rounded :=
        shiftToTargetExponent Format.binary64 shifted.1.roundedMantissa shifted.2 .exact
      unpacked sign rounded.1.mantissa rounded.2 := rfl

/-- **Rounding to a double gives the nearest point of the grid**, if the mantissa has no fewer
bits than a double. -/
theorem roundWithAccuracy_nearest {m : Nat} {e : Int} {acc : Accuracy} {s : ℚ} (sign : Sign)
    (h : Holds (.ofMantissaAndAccuracy m acc) s) (he : e ≤ target m e) :
    ∃ m' e', Nearest (s * 2 ^ e) m' e' ∧
      roundWithAccuracy Format.binary64 sign m e acc = unpacked sign m' e' := by
  obtain ⟨k, hk⟩ := Int.le.dest he
  have hkn : (target m e - e).toNat = k := by omega
  have hge := h.mantissa_le
  have hlt := h.lt_mantissa_succ
  rw [mantissa_ofMantissaAndAccuracy] at hge hlt
  have hrounded := (h.shiftRight k).halfEven
  have hup := shifted_lt hk hlt
  have hleast : -1074 ≤ target m e := by
    rw [target_eq]
    exact le_max_right _ _
  have hnear := nearest_of_halfEven hrounded hup hleast (le_shifted hk hge)
  have hvalue : s / 2 ^ k * 2 ^ target m e = s * 2 ^ e := by
    rw [← hk, zpow_add₀ two_ne_zero, zpow_natCast]
    field_simp
  rw [hvalue] at hnear
  refine ⟨_, _, hnear, ?_⟩
  have hcarry := shiftToTargetExponent_rounded (hrounded.le_of_lt (by exact_mod_cast hup)) hleast
  rw [roundWithAccuracy_eq, shiftToTargetExponent_eq m e acc, hkn, hk]
  exact congrArg₂ (unpacked sign) hcarry.1 hcarry.2

/-! ## Exact mantissas -/

theorem holds_exact (m : Nat) : Holds (.ofMantissaAndAccuracy m .exact) m := rfl

theorem log2_shiftLeft {m : Nat} (hm : m ≠ 0) (k : Nat) : (m <<< k).log2 = m.log2 + k := by
  induction k with
  | zero => rfl
  | succ k ih =>
    have hk : m <<< k ≠ 0 := by
      rw [Nat.shiftLeft_eq]
      exact Nat.mul_ne_zero hm (Nat.two_pow_pos k).ne'
    rw [Nat.shiftLeft_succ, Nat.log2_two_mul hk, ih, Nat.add_assoc]

/-- An exact magnitude is rounded to the nearest point, whatever its exponent. -/
theorem round_nearest {m : Nat} (hm : m ≠ 0) (e : Int) (sign : Sign) :
    ∃ m' e', Nearest (point m e) m' e' ∧
      Float.Model.UnpackedFloat.round Format.binary64 sign m e = unpacked sign m' e' := by
  have hround : Float.Model.UnpackedFloat.round Format.binary64 sign m e =
      roundWithAccuracy Format.binary64 sign (m <<< (e - target m e).toNat)
        (e - (e - target m e).toNat) .exact := rfl
  generalize hk : (e - target m e).toNat = k at hround
  have hlog := log2_shiftLeft hm k
  have he : e - k ≤ target (m <<< k) (e - k) := by
    have ht := target_eq m e
    have ht' := target_eq (m <<< k) (e - k)
    rw [hlog] at ht'
    omega
  obtain ⟨m', e', hn, hr⟩ := roundWithAccuracy_nearest sign (holds_exact (m <<< k)) he
  refine ⟨m', e', ?_, hround.trans hr⟩
  have hvalue : ((m <<< k : Nat) : ℚ) * 2 ^ (e - k) = point m e := by
    have := point_shift m (e - k) k
    rw [Int.sub_add_cancel] at this
    rw [this, Nat.shiftLeft_eq]
    rfl
  rwa [hvalue] at hn

end Abacus.Double
