import Abacus.Decimal.Basic
import Abacus.Proofs.Double.Rounds

/-!
# Reading a decimal as a double

A decimal is read with a single rounding. Few digits with a small exponent are read by one
operation on two doubles that are exact, all others by one operation on unrounded numbers. This
module shows that either way gives the same double, the correct rounding of the decimal.

* `Decimal.value`: the number that a decimal stands for.
* `powerMantissa`, `powerExponent`: the points of the small powers of ten, which are exact.
* The way through unrounded numbers has two shortcuts for exponents far off: a decimal that is too
  great for any double is infinite, and one that is too small is zero, whatever its digits are.

Results:
* `mul_unpacked`, `div_unpacked`: the operations on points with signs.
* `ofScientific_nearest`: the way through unrounded numbers, with its two shortcuts.
* `Decimal.toFloat_rounds`: reading a decimal is correct rounding.

The decimal of a spelling is `Proofs/Token/Numeral`.
-/

namespace Abacus

open Float.Model Float.Model.UnpackedFloat

namespace Double

/-! ## Operations on doubles -/

section Operations

variable {m₁ m₂ : Nat} {e₁ e₂ : Int}

theorem unpacked_zero (sign : Sign) (e : Int) : unpacked sign 0 e = .zero sign := dif_pos rfl

theorem unpacked_pos (sign : Sign) {m : Nat} (e : Int) (hm : 0 < m) :
    unpacked sign m e = .finite sign m e hm := dif_neg hm.ne'

/-- A product of two doubles has no fewer bits than a double. -/
theorem Canonical.add_le_target (h₁ : Canonical m₁ e₁) (h₂ : Canonical m₂ e₂) (hm₁ : 0 < m₁)
    (hm₂ : 0 < m₂) : e₁ + e₂ ≤ target (m₁ * m₂) (e₁ + e₂) := by
  rw [target_eq]
  have hfull {a b : Nat} (ha : 2 ^ 52 ≤ a) (hb : 0 < b) : 52 ≤ (a * b).log2 := by
    refine (Nat.le_log2 (Nat.mul_pos (by omega) hb).ne').mpr ?_
    exact ha.trans (Nat.le_mul_of_pos_right a hb)
  rcases h₁.full with hf | hf
  · have := hfull hf hm₂
    omega
  rcases h₂.full with hf' | hf'
  · have := hfull hf' hm₁
    rw [Nat.mul_comm] at this
    omega
  · omega

/-- The product of two points is rounded once, and its sign is the product of their signs. -/
theorem mul_unpacked (s₁ s₂ : Sign) (h₁ : Canonical m₁ e₁) (h₂ : Canonical m₂ e₂) :
    ∃ m e, Nearest (point m₁ e₁ * point m₂ e₂) m e ∧
      UnpackedFloat.mul Format.binary64 (unpacked s₁ m₁ e₁) (unpacked s₂ m₂ e₂) =
        unpacked (s₁ * s₂) m e := by
  rcases Nat.eq_zero_or_pos m₁ with rfl | hm₁
  · rw [point_zero, zero_mul, unpacked_zero]
    refine ⟨0, -1074, nearest_zero, ?_⟩
    rcases Nat.eq_zero_or_pos m₂ with rfl | hm₂
    · rw [unpacked_zero, unpacked_zero]
      rfl
    · rw [unpacked_pos s₂ e₂ hm₂, unpacked_zero]
      rfl
  rcases Nat.eq_zero_or_pos m₂ with rfl | hm₂
  · rw [point_zero, mul_zero, unpacked_pos s₁ e₁ hm₁, unpacked_zero]
    exact ⟨0, -1074, nearest_zero, rfl⟩
  · rw [unpacked_pos s₁ e₁ hm₁, unpacked_pos s₂ e₂ hm₂]
    exact mul_nearest s₁ s₂ hm₁ hm₂ (h₁.add_le_target h₂ hm₁ hm₂)

/-- The quotient of two points is rounded once, and its sign is the quotient of their signs. -/
theorem div_unpacked (s₁ s₂ : Sign) (m₁ : Nat) (e₁ : Int) (hm₂ : 0 < m₂) (e₂ : Int) :
    ∃ m e, Nearest (point m₁ e₁ / point m₂ e₂) m e ∧
      UnpackedFloat.div Format.binary64 (unpacked s₁ m₁ e₁) (unpacked s₂ m₂ e₂) =
        unpacked (s₁ / s₂) m e := by
  rw [unpacked_pos s₂ e₂ hm₂]
  rcases Nat.eq_zero_or_pos m₁ with rfl | hm₁
  · rw [point_zero, zero_div, unpacked_zero]
    exact ⟨0, -1074, nearest_zero, rfl⟩
  · rw [unpacked_pos s₁ e₁ hm₁]
    exact div_nearest e₁ e₂ s₁ s₂ hm₁ hm₂

theorem mul_ofPoint (h₁ : Canonical m₁ e₁) (he₁ : e₁ ≤ 971) (h₂ : Canonical m₂ e₂)
    (he₂ : e₂ ≤ 971) :
    ∃ m e, Nearest (point m₁ e₁ * point m₂ e₂) m e ∧
      ofPoint .positive m₁ e₁ * ofPoint .positive m₂ e₂ = ofPoint .positive m e := by
  have hmul : ofPoint .positive m₁ e₁ * ofPoint .positive m₂ e₂ =
      .ofModel (.pack (UnpackedFloat.mul Format.binary64 (ofPoint .positive m₁ e₁).toModel.unpack
        (ofPoint .positive m₂ e₂).toModel.unpack)) := rfl
  obtain ⟨m, e, hn, hr⟩ := mul_unpacked .positive .positive h₁ h₂
  exact ⟨m, e, hn, by rw [hmul, unpack_ofPoint _ h₁ he₁, unpack_ofPoint _ h₂ he₂, hr]; rfl⟩

theorem div_ofPoint (h₁ : Canonical m₁ e₁) (he₁ : e₁ ≤ 971) (h₂ : Canonical m₂ e₂)
    (he₂ : e₂ ≤ 971) (hm₂ : 0 < m₂) :
    ∃ m e, Nearest (point m₁ e₁ / point m₂ e₂) m e ∧
      ofPoint .positive m₁ e₁ / ofPoint .positive m₂ e₂ = ofPoint .positive m e := by
  have hdiv : ofPoint .positive m₁ e₁ / ofPoint .positive m₂ e₂ =
      .ofModel (.pack (UnpackedFloat.div Format.binary64 (ofPoint .positive m₁ e₁).toModel.unpack
        (ofPoint .positive m₂ e₂).toModel.unpack)) := rfl
  obtain ⟨m, e, hn, hr⟩ := div_unpacked .positive .positive m₁ e₁ hm₂ e₂
  exact ⟨m, e, hn, by rw [hdiv, unpack_ofPoint _ h₁ he₁, unpack_ofPoint _ h₂ he₂, hr]; rfl⟩

end Operations

/-! ## Few digits and a small exponent -/

/-- A natural below `2 ^ 53` is a double. -/
theorem toFloat_toUInt64 {n : Nat} (hn : n < 2 ^ 53) :
    ∃ m e, Canonical m e ∧ e ≤ 971 ∧ point m e = n ∧
      n.toUInt64.toFloat = ofPoint .positive m e := by
  have hcast : n.toUInt64.toNat = n := Nat.mod_eq_of_lt (by omega)
  have hmodel : n.toUInt64.toFloat = .ofModel
      (.pack (UnpackedFloat.normalize Format.binary64 (n.toUInt64.toNat : Int) 0 .positive)) :=
    rfl
  rw [hmodel, hcast]
  rcases Nat.eq_zero_or_pos n with rfl | hpos
  · exact ⟨0, -1074, ⟨by decide, le_rfl, .inr rfl⟩, by decide, by simp [point], rfl⟩
  obtain ⟨m', e', hc', he', hp'⟩ := exists_canonical (e := 0) hn (by decide)
  have hvalue : point n 0 = n := by rw [point, zpow_zero, mul_one]
  obtain ⟨m, e, hn', hr⟩ := round_nearest hpos.ne' 0 .positive
  have hp := hn'.point_eq hc' hp'
  obtain ⟨rfl, rfl⟩ := hn'.canonical.ext hc' (hp.trans hp'.symm)
  have hcompare : compare (n : Int) 0 = .gt := Int.compare_eq_gt.mpr (by omega)
  refine ⟨m, e, hc', by omega, hp.trans hvalue, ?_⟩
  unfold UnpackedFloat.normalize ofPoint
  rw [hcompare, ← hr]
  rfl

/-- The mantissa of a power of ten with all its bits. -/
def powerMantissa (e : Nat) : Nat := 5 ^ e * 2 ^ (52 - (5 ^ e).log2)

/-- The exponent of a power of ten at this mantissa. -/
def powerExponent (e : Nat) : Int := e - (52 - (5 ^ e).log2 : Nat)

/-- The powers of ten in the table are doubles. -/
theorem powerOfTen_eq (e : Fin Float.exactlyRepresentablePowersOfTen.size) :
    Float.exactlyRepresentablePowersOfTen[e] =
        ofPoint .positive (powerMantissa e) (powerExponent e) ∧
      2 ^ 52 ≤ powerMantissa e ∧ powerMantissa e < 2 ^ 53 := by
  revert e
  decide +kernel

theorem point_powerMantissa (e : Nat) : point (powerMantissa e) (powerExponent e) = 10 ^ e := by
  rw [powerMantissa, powerExponent, ← point_shift, Int.sub_add_cancel, point, zpow_natCast,
    Nat.cast_pow, ← mul_pow]
  norm_num

theorem canonical_power (e : Fin Float.exactlyRepresentablePowersOfTen.size) :
    Canonical (powerMantissa e) (powerExponent e) ∧ powerExponent e ≤ 971 := by
  obtain ⟨-, hlow, hhigh⟩ := powerOfTen_eq e
  have he : e.val < 23 := e.isLt
  unfold powerExponent
  exact ⟨⟨hhigh, by omega, .inl hlow⟩, by omega⟩

/-! ## Unrounded numbers -/

/-- Nothing but zero is nearest to a magnitude up to half of the least double. -/
theorem nearest_of_le {q : ℚ} (h0 : 0 ≤ q) (hq : q ≤ 2 ^ (-1074 : Int) / 2) :
    Nearest q 0 (-1074) := by
  have hg := Canonical.gapBelow_pos 0 (-1074)
  have hz := point_zero (-1074)
  refine nearest_of_within ⟨by decide, le_rfl, .inr rfl⟩ ?_ ?_ fun _ => rfl
  · rw [hz]
    linarith
  · rw [hz, zero_add]
    exact hq

/-- Beyond the doubles the point that is nearest is packed as infinity. -/
theorem nearest_of_overflow_le {q : ℚ} (hq : overflow ≤ q) :
    ∃ m e, Nearest q m e ∧ infinity = ofPoint .positive m e := by
  have h0 : 0 ≤ q := (point_nonneg _ _).trans hq
  obtain ⟨m, e, h⟩ := exists_nearest h0
  refine ⟨m, e, h, (ofPoint_overflow h.canonical (lt_of_not_ge fun he => ?_)).symm⟩
  exact absurd (h.lt_overflow he) (not_lt.mpr hq)

theorem two_pow_le_ten_pow (k : Nat) : (2 : ℚ) ^ (3 * k) ≤ 10 ^ k := by
  rw [pow_mul]
  exact pow_le_pow_left₀ (by norm_num) (by norm_num) k

theorem overflow_le_scientific {n k : Nat} (hn : 0 < n) (hk : 2048 < k) :
    overflow ≤ n * 10 ^ (k : Int) := by
  have hone : (1 : ℚ) ≤ n := by exact_mod_cast hn
  have hover : overflow ≤ 2 ^ (1024 : Nat) := by
    have h := point_shift 1 970 54
    have hle : overflow ≤ point (1 * 2 ^ 54) 970 := point_le_point.mpr (by decide)
    rw [← h] at hle
    refine hle.trans_eq ?_
    rw [point, Nat.cast_one, one_mul, ← zpow_natCast]
    rfl
  calc overflow ≤ 2 ^ (1024 : Nat) := hover
    _ ≤ 2 ^ (3 * k) := pow_le_pow_right₀ one_le_two (by omega)
    _ ≤ 10 ^ k := two_pow_le_ten_pow k
    _ ≤ n * 10 ^ k := le_mul_of_one_le_left (by positivity) hone
    _ = n * 10 ^ (k : Int) := by rw [zpow_natCast]

theorem scientific_le {n k : Nat} (hk : 2048 + n.log2 < k) :
    (n : ℚ) * 10 ^ (-(k : Int)) ≤ 2 ^ (-1074 : Int) / 2 := by
  have hn : (n : ℚ) * 2 ^ 1075 ≤ 10 ^ k := by
    calc (n : ℚ) * 2 ^ 1075 ≤ 2 ^ (n.log2 + 1) * 2 ^ 1075 :=
          mul_le_mul_of_nonneg_right (by exact_mod_cast Nat.lt_log2_self.le) (by positivity)
      _ = 2 ^ (n.log2 + 1 + 1075) := (pow_add _ _ _).symm
      _ ≤ 2 ^ (3 * k) := pow_le_pow_right₀ one_le_two (by omega)
      _ ≤ 10 ^ k := two_pow_le_ten_pow k
  have hinv : (2 : ℚ) ^ (-1074 : Int) / 2 = (2 ^ 1075)⁻¹ := by
    rw [show (-1074 : Int) = -1075 + 1 from rfl, unit_succ, mul_div_cancel_left₀ _ two_ne_zero]
    rfl
  rw [zpow_neg, zpow_natCast, hinv, ← div_eq_mul_inv, div_le_iff₀ (by positivity),
    inv_mul_eq_div, le_div_iff₀ (by positivity)]
  exact hn

/-- The two shortcuts for exponents far off give what the arithmetic would give. -/
theorem ofScientific_nearest (n : Nat) (e : Int) :
    ∃ m' e', Nearest (n * 10 ^ e) m' e' ∧
      Float.ofModel (.ofScientific n e) = ofPoint .positive m' e' := by
  have hmodel : Float.ofModel (.ofScientific n e) =
      .ofModel (.pack (UnpackedFloat.ofScientific Format.binary64 n e)) := rfl
  rw [hmodel]
  unfold UnpackedFloat.ofScientific
  by_cases h0 : n = 0
  · rw [dif_pos h0, h0, Nat.cast_zero, zero_mul]
    exact ⟨_, _, nearest_zero, rfl⟩
  have hn := Nat.pos_of_ne_zero h0
  rw [dif_neg h0]
  by_cases hbig : e > 2 ^ Format.binary64.exponentBits
  · rw [if_pos hbig, ← infinity_eq]
    have hbig : 2048 < e := hbig
    lift e to Nat using by omega
    exact nearest_of_overflow_le (overflow_le_scientific hn (by omega))
  rw [if_neg hbig]
  by_cases hsmall : e < -((2 ^ Format.binary64.exponentBits : Int) + n.log2)
  · rw [if_pos hsmall]
    have hsmall : e < -(2048 + n.log2) := hsmall
    obtain ⟨k, rfl⟩ : ∃ k : Nat, e = -k := ⟨(-e).toNat, by omega⟩
    exact ⟨_, _, nearest_of_le (by positivity) (scientific_le (by omega)), rfl⟩
  rw [if_neg hsmall]
  by_cases hpos : 0 ≤ e
  · rw [if_pos hpos]
    lift e to Nat using hpos
    -- the digits are shifted so that the product has enough bits
    have hshift : n <<< Format.binary64.mantissaBits ≠ 0 := by
      rw [Nat.shiftLeft_eq]
      exact Nat.mul_ne_zero h0 (Nat.two_pow_pos _).ne'
    have hten : 0 < 10 ^ (e : Int).toNat := Nat.pow_pos (by decide)
    have hlog : 53 ≤ (n <<< Format.binary64.mantissaBits * 10 ^ (e : Int).toNat).log2 := by
      refine (Nat.le_log2 (Nat.mul_ne_zero hshift hten.ne')).mpr ?_
      refine le_trans ?_ (Nat.le_mul_of_pos_right _ hten)
      rw [Nat.shiftLeft_eq]
      exact Nat.le_mul_of_pos_left _ hn
    have htarget : (-Format.binary64.mantissaBits : Int) + 0 ≤
        target (n <<< Format.binary64.mantissaBits * 10 ^ (e : Int).toNat)
          (-Format.binary64.mantissaBits + 0) := by
      have hbits : (Format.binary64.mantissaBits : Int) = 53 := by decide
      rw [target_eq, hbits]
      omega
    obtain ⟨m', e', hn', hr⟩ :=
      mul_nearest .positive .positive (Nat.pos_of_ne_zero hshift) hten htarget
    refine ⟨m', e', ?_, by rw [hr]; rfl⟩
    have hvalue : point (n <<< Format.binary64.mantissaBits) (-Format.binary64.mantissaBits) *
        point (10 ^ (e : Int).toNat) 0 = n * 10 ^ (e : Int) := by
      rw [Nat.shiftLeft_eq, ← point_shift, Int.add_left_neg, point, point, zpow_zero, mul_one,
        mul_one, Int.toNat_natCast, zpow_natCast]
      push_cast
      rfl
    rwa [hvalue] at hn'
  · rw [if_neg hpos]
    obtain ⟨k, rfl⟩ : ∃ k : Nat, e = -k := ⟨(-e).toNat, by omega⟩
    have hten : 0 < 10 ^ (- -(k : Int)).toNat := Nat.pow_pos (by decide)
    obtain ⟨m', e', hn', hr⟩ := div_nearest 0 0 .positive .positive hn hten
    refine ⟨m', e', ?_, by rw [hr]; rfl⟩
    have hvalue : point n 0 / point (10 ^ (- -(k : Int)).toNat) 0 = n * 10 ^ (-(k : Int)) := by
      rw [point, point, zpow_zero, mul_one, mul_one, neg_neg, Int.toNat_natCast, zpow_neg,
        zpow_natCast, div_eq_mul_inv]
      push_cast
      rfl
    rwa [hvalue] at hn'

end Double

/-! ## Decimals -/

namespace Decimal

open Double

/-- The number that a decimal stands for. -/
def value (d : Decimal) : ℚ := d.digits * 10 ^ d.exponent

theorem value_nonneg (d : Decimal) : 0 ≤ d.value := by
  unfold value
  positivity

theorem value_ofNat (n k : Nat) : value ⟨n, k⟩ = n * 10 ^ k := by rw [value, zpow_natCast]

theorem value_neg (n k : Nat) : value ⟨n, -k⟩ = n / 10 ^ k := by
  rw [value, zpow_neg, zpow_natCast, div_eq_mul_inv]

/-- Few digits and a small exponent are read by one operation on exact doubles. -/
theorem nearest_of_fast {n k : Nat} (hn : n < 2 ^ 53)
    (hk : k < Float.exactlyRepresentablePowersOfTen.size) :
    (∃ m e, Nearest (n * 10 ^ k) m e ∧
      n.toUInt64.toFloat * Float.exactlyRepresentablePowersOfTen[k] = ofPoint .positive m e) ∧
    ∃ m e, Nearest (n / 10 ^ k) m e ∧
      n.toUInt64.toFloat / Float.exactlyRepresentablePowersOfTen[k] = ofPoint .positive m e := by
  obtain ⟨m₁, e₁, hc₁, he₁, hp₁, hx₁⟩ := toFloat_toUInt64 hn
  obtain ⟨hx₂, hlow, -⟩ := powerOfTen_eq ⟨k, hk⟩
  obtain ⟨hc₂, he₂⟩ := canonical_power ⟨k, hk⟩
  have hm₂ : 0 < powerMantissa k := (Nat.two_pow_pos 52).trans_le hlow
  have hx₂ : Float.exactlyRepresentablePowersOfTen[k] =
      ofPoint .positive (powerMantissa k) (powerExponent k) := hx₂
  rw [hx₁, hx₂, ← hp₁, ← point_powerMantissa k]
  exact ⟨mul_ofPoint hc₁ he₁ hc₂ he₂, div_ofPoint hc₁ he₁ hc₂ he₂ hm₂⟩

theorem toFloat_nearest (d : Decimal) :
    ∃ m e, Nearest d.value m e ∧ d.toFloat = ofPoint .positive m e := by
  obtain ⟨n, e⟩ := d
  unfold toFloat Float.ofScientific
  dsimp only
  by_cases he : e < 0
  · obtain ⟨k, rfl⟩ : ∃ k : Nat, e = -k := ⟨e.natAbs, by omega⟩
    rw [decide_eq_true he, Int.natAbs_neg, Int.natAbs_natCast]
    by_cases hfast : n < 2 ^ 53 ∧ k ≤ 22
    · rw [dif_pos hfast, if_pos rfl, value_neg]
      exact (nearest_of_fast hfast.1 (Nat.lt_succ_of_le hfast.2)).2
    · rw [dif_neg hfast, if_pos rfl]
      exact ofScientific_nearest n (-k)
  · obtain ⟨k, rfl⟩ := Int.eq_ofNat_of_zero_le (Int.not_lt.mp he)
    rw [decide_eq_false he, Int.natAbs_natCast]
    by_cases hfast : n < 2 ^ 53 ∧ k ≤ 22
    · rw [dif_pos hfast, if_neg Bool.false_ne_true, value_ofNat]
      exact (nearest_of_fast hfast.1 (Nat.lt_succ_of_le hfast.2)).1
    · rw [dif_neg hfast, if_neg Bool.false_ne_true]
      exact ofScientific_nearest n k

/-- **Reading a decimal rounds correctly.** -/
theorem toFloat_rounds (d : Decimal) : Rounds d.value d.toFloat := by
  obtain ⟨m, e, hn, hx⟩ := d.toFloat_nearest
  rw [hx]
  exact rounds_ofPoint d.value_nonneg hn

end Decimal

end Abacus
