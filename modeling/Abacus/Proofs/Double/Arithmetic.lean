import Abacus.Proofs.Double.Reading
import Abacus.Proofs.Double.Signed
import Abacus.Proofs.Double.Signs

/-!
# Arithmetic on finite doubles

Sums, differences, products and quotients of finite doubles are the exact results, rounded once.
They are finite below `overflow`, and infinite from there on. The operations are those of the
language, on its model of doubles as words; nothing is assumed of them.

* `Stands x a`: the double is finite and has the value `a`, a rational. Both zeros have the value 0.
* `Delivers q x`: the double is at the nearest point of the grid, with the sign of `q`. It may be an
  infinity, and a zero may have any sign.

Every statement about values of programs goes through these two: an operation on doubles that stand
for rationals delivers the rational it should, and what was delivered stands for its rounding.

Results:
* `Delivers.stands`, `Delivers.infinite`: what a rounding is as a double.
* `Stands.add`, `Stands.sub`, `Stands.mul`, `Stands.div`: the operations.
* `Stands.le_iff`, `Stands.beq_iff`: finite doubles are compared by their values.

Out of scope: operations on infinities and on what is no number, and the functions that are not
arithmetic.
-/

namespace Abacus.Double

open Float.Model Float.Model.UnpackedFloat

/-! ## Values -/

/-- The rational with a magnitude and a sign. -/
def signed : Sign → ℚ → ℚ
  | .positive, q => q
  | .negative, q => -q

/-- The double is finite and has this value. -/
def Stands (x : Float) (a : ℚ) : Prop := ∃ v, Exact.of? x = some v ∧ value v = a

/-- The double at the nearest point with the sign of the rational; a zero has any sign. -/
def Delivers (q : ℚ) (x : Float) : Prop :=
  ∃ sign m e, Nearest |q| m e ∧ x = ofPoint sign m e ∧
    (0 < q → sign = .positive) ∧ (q < 0 → sign = .negative)

variable {x y z : Float} {a b q p : ℚ} {m m₁ m₂ : Nat} {e e₁ e₂ : Int}

theorem signed_zero (sign : Sign) : signed sign 0 = 0 := by
  cases sign with
  | positive => rfl
  | negative => exact neg_zero

theorem signed_point (sign : Sign) (m : Nat) (e : Int) :
    signed sign (point m e) = sign.apply m * 2 ^ e := by
  cases sign with
  | positive => rfl
  | negative =>
    rw [signed, point, Sign.apply]
    push_cast
    ring

theorem abs_signed (sign : Sign) (h : 0 ≤ q) : |signed sign q| = q := by
  cases sign with
  | positive => exact abs_of_nonneg h
  | negative => exact (abs_neg q).trans (abs_of_nonneg h)

theorem signed_neg (sign : Sign) (q : ℚ) : signed (-sign) q = -signed sign q := by
  cases sign with
  | positive => rfl
  | negative => exact (neg_neg q).symm

theorem signed_mul (s₁ s₂ : Sign) (p q : ℚ) :
    signed (s₁ * s₂) (p * q) = signed s₁ p * signed s₂ q := by
  cases s₁ with
  | positive =>
    cases s₂ with
    | positive => rfl
    | negative => exact (mul_neg p q).symm
  | negative =>
    cases s₂ with
    | positive => exact (neg_mul p q).symm
    | negative => exact (neg_mul_neg p q).symm

theorem signed_div (s₁ s₂ : Sign) (p q : ℚ) :
    signed (s₁ / s₂) (p / q) = signed s₁ p / signed s₂ q := by
  cases s₁ with
  | positive =>
    cases s₂ with
    | positive => rfl
    | negative => exact (div_neg p).symm
  | negative =>
    cases s₂ with
    | positive => exact (neg_div q p).symm
    | negative => exact (neg_div_neg_eq p q).symm

theorem signed_point_eq_zero_iff (sign : Sign) : signed sign (point m e) = 0 ↔ m = 0 := by
  have hpoint : point m e = 0 ↔ m = 0 := by rw [← point_zero e, point_inj]
  cases sign with
  | positive => exact hpoint
  | negative => exact neg_eq_zero.trans hpoint

/-- The magnitude of a value. -/
theorem abs_value (v : Exact) : |value v| = point v.mantissa v.exponent := by
  unfold value
  split
  · rw [abs_neg, abs_of_nonneg (point_nonneg _ _)]
  · exact abs_of_nonneg (point_nonneg _ _)

/-- A value is negative if it has the sign and is not zero. -/
theorem value_neg_iff (v : Exact) : value v < 0 ↔ v.negative = true ∧ value v ≠ 0 := by
  have := point_nonneg v.mantissa v.exponent
  unfold value
  split
  · rename_i h
    rw [neg_lt_zero, h, this.lt_iff_ne', neg_ne_zero]
    exact (and_iff_right rfl).symm
  · rename_i h
    exact ⟨fun hlt => absurd this hlt.not_ge, fun hneg => absurd hneg.1 h⟩

/-- The value of a finite double is a point of the grid with a sign. -/
theorem stands_iff : Stands x a ↔ ∃ sign m e, Canonical m e ∧ e ≤ 971 ∧ x = ofPoint sign m e ∧
    a = signed sign (point m e) := by
  have hvalue (sign : Sign) (m : Nat) (e : Int) :
      value ⟨sign == .negative, m, if m = 0 then 0 else e⟩ = signed sign (point m e) := by
    cases sign with
    | positive => exact point_exact m e
    | negative => exact congrArg Neg.neg (point_exact m e)
  constructor
  · rintro ⟨v, hv, rfl⟩
    obtain ⟨sign, m, e, hc, he, rfl⟩ := exists_ofPoint hv
    rw [exact_ofPoint sign hc he] at hv
    cases hv
    exact ⟨sign, m, e, hc, he, rfl, hvalue sign m e⟩
  · rintro ⟨sign, m, e, hc, he, rfl, rfl⟩
    exact ⟨_, exact_ofPoint sign hc he, hvalue sign m e⟩

namespace Stands

theorem of_isFinite (h : x.isFinite = true) : ∃ a, Stands x a := by
  obtain ⟨v, hv⟩ := exists_exact h
  exact ⟨_, v, hv, rfl⟩

theorem isFinite (h : Stands x a) : x.isFinite = true := by
  obtain ⟨sign, m, e, hc, he, rfl, -⟩ := stands_iff.mp h
  exact isFinite_ofPoint sign hc he

/-- What the operations find in the double. -/
theorem unpack (h : Stands x a) : ∃ sign m e, Canonical m e ∧
    x.toModel.unpack = unpacked sign m e ∧ a = signed sign (point m e) := by
  obtain ⟨sign, m, e, hc, he, rfl, ha⟩ := stands_iff.mp h
  exact ⟨sign, m, e, hc, unpack_ofPoint sign hc he, ha⟩

theorem unique (h : Stands x a) (h' : Stands x b) : a = b := by
  obtain ⟨v, hv, rfl⟩ := h
  obtain ⟨w, hw, rfl⟩ := h'
  rw [hv] at hw
  cases hw
  rfl

theorem onGrid (h : Stands x a) : OnGrid a := by
  obtain ⟨sign, m, e, hc, -, -, rfl⟩ := stands_iff.mp h
  exact ⟨m, e, hc, abs_signed sign (point_nonneg m e)⟩

/-- A finite double stays below the overflow, and does so with one added to it. -/
theorem abs_add_one_lt (h : Stands x a) : |a| + 1 < overflow := by
  obtain ⟨sign, m, e, hc, he, -, rfl⟩ := stands_iff.mp h
  rw [abs_signed sign (point_nonneg m e)]
  obtain ⟨u, hu, hlast, -⟩ := exists_overflow_eq
  have hle := hc.le_greatest he
  linarith

theorem abs_lt (h : Stands x a) : |a| < overflow := (lt_add_one |a|).trans h.abs_add_one_lt

end Stands

/-- Only numbers of different signs are further apart than doubles go. -/
theorem signs_of_overflow (hx : Stands x a) (hy : Stands y b) (h : overflow ≤ b - a) :
    a ≤ 0 ∧ 0 ≤ b := by
  have hlow := abs_lt.mp hx.abs_lt
  have hhigh := abs_lt.mp hy.abs_lt
  exact ⟨by linarith, by linarith⟩

/-! ## Roundings as doubles -/

namespace Delivers

theorem of_nearest (sign : Sign) (hq : 0 ≤ q) (h : Nearest q m e) :
    Delivers (signed sign q) (ofPoint sign m e) := by
  refine ⟨sign, m, e, (abs_signed sign hq).symm ▸ h, rfl, fun hpos => ?_, fun hneg => ?_⟩
  · cases sign with
    | positive => rfl
    | negative => exact absurd hpos (not_lt.mpr (neg_nonpos.mpr hq))
  · cases sign with
    | positive => exact absurd hneg (not_lt.mpr hq)
    | negative => rfl

/-- **Below the overflow a rounding is finite.** -/
theorem stands (h : Delivers q x) (ho : |q| < overflow) : ∃ r, Rounding q r ∧ Stands x r := by
  obtain ⟨sign, m, e, hn, rfl, hpos, hneg⟩ := h
  have hstands := stands_iff.mpr ⟨sign, m, e, hn.canonical, hn.exponent_le ho, rfl, rfl⟩
  refine ⟨_, ⟨m, e, hn, ?_⟩, hstands⟩
  rcases lt_trichotomy q 0 with h0 | rfl | h0
  · rw [hneg h0, if_neg (not_le.mpr h0)]
    rfl
  · rw [abs_zero] at hn
    rw [if_pos le_rfl, nearest_point_zero hn, signed_zero]
  · rw [hpos h0, if_pos h0.le]
    rfl

/-- Between finite doubles it is finite, and stays between them. -/
theorem between (h : Delivers q x) (hy : Stands y a) (hz : Stands z b) (ha : a ≤ q) (hb : q ≤ b) :
    ∃ r, Rounding q r ∧ Stands x r ∧ a ≤ r ∧ r ≤ b := by
  have hlow := (abs_lt.mp hy.abs_lt).1
  have hhigh := (abs_lt.mp hz.abs_lt).2
  obtain ⟨r, hr, hx⟩ := h.stands (abs_lt.mpr ⟨by linarith, by linarith⟩)
  exact ⟨r, hr, hx, hr.ge_of_ge hy.onGrid ha, hr.le_of_le hz.onGrid hb⟩

/-- From the overflow on it is infinite. -/
theorem infinite (h : Delivers q x) (ho : overflow ≤ q) : x = infinity := by
  have hpos : 0 < q := lt_of_lt_of_le (by unfold overflow point; positivity) ho
  obtain ⟨sign, m, e, hn, rfl, hsign, -⟩ := h
  rw [abs_of_pos hpos] at hn
  rw [hsign hpos]
  exact ofPoint_overflow hn.canonical
    (lt_of_not_ge fun he => absurd (hn.lt_overflow he) (not_lt.mpr ho))

end Delivers

/-! ## Operations -/

theorem delivers_zero (sign : Sign) : Delivers 0 (.ofModel (.pack (.zero sign))) := by
  have h := Delivers.of_nearest sign le_rfl nearest_zero
  rwa [signed_zero] at h

theorem delivers_self (sign : Sign) (h : Canonical m e) :
    Delivers (signed sign (point m e)) (.ofModel (.pack (unpacked sign m e))) :=
  .of_nearest sign (point_nonneg m e) h.nearest_self

/-- A sum of whole multiples of a unit is rounded once. -/
theorem delivers_normalize (k : Int) (e : Int) :
    Delivers (k * 2 ^ e) (.ofModel (.pack (.normalize .binary64 k e .positive))) := by
  unfold UnpackedFloat.normalize
  rcases lt_trichotomy k 0 with hk | rfl | hk
  · rw [Int.compare_eq_lt.mpr hk]
    obtain ⟨n, rfl⟩ : ∃ n : Nat, k = -n := ⟨k.natAbs, by omega⟩
    obtain ⟨m', e', hn, hr⟩ := round_nearest (m := n) (by omega) e .negative
    have h := Delivers.of_nearest .negative (point_nonneg n e) hn
    have hvalue : signed .negative (point n e) = (-n : Int) * 2 ^ e := by
      rw [signed, point]
      push_cast
      ring
    rw [hvalue] at h
    dsimp only
    rw [neg_neg, Int.toNat_natCast, hr]
    exact h
  · rw [Int.compare_eq_eq.mpr rfl, Int.cast_zero, zero_mul]
    exact delivers_zero .positive
  · rw [Int.compare_eq_gt.mpr hk]
    obtain ⟨n, rfl⟩ := Int.eq_ofNat_of_zero_le hk.le
    obtain ⟨m', e', hn, hr⟩ := round_nearest (m := n) (by omega) e .positive
    have h := Delivers.of_nearest .positive (point_nonneg n e) hn
    dsimp only
    rw [Int.toNat_natCast, hr]
    exact h

/-- A greater mantissa takes a smaller exponent. -/
theorem point_decreaseExponent (m : Nat) {e e' : Int} (h : e' ≤ e) :
    point (decreaseExponent m e e').1 e' = point m e := by
  obtain ⟨k, rfl⟩ := Int.le.dest h
  have hk : (decreaseExponent m (e' + k) e').1 = m <<< (e' + k - e').toNat := rfl
  rw [hk, show (e' + k - e').toNat = k by omega, Nat.shiftLeft_eq, point_shift]

theorem delivers_add (s₁ s₂ : Sign) (h₁ : Canonical m₁ e₁) (h₂ : Canonical m₂ e₂) :
    Delivers (signed s₁ (point m₁ e₁) + signed s₂ (point m₂ e₂))
      (.ofModel (.pack (.add .binary64 (unpacked s₁ m₁ e₁) (unpacked s₂ m₂ e₂)))) := by
  rcases Nat.eq_zero_or_pos m₁ with rfl | hm₁
  · rw [point_zero, signed_zero, zero_add, unpacked_zero]
    rcases Nat.eq_zero_or_pos m₂ with rfl | hm₂
    · rw [point_zero, signed_zero, unpacked_zero]
      show Delivers 0 (.ofModel (.pack (if s₁ == s₂ then .zero s₁ else .zero .positive)))
      split
      · exact delivers_zero s₁
      · exact delivers_zero .positive
    · have h := delivers_self s₂ h₂
      rw [unpacked_pos s₂ e₂ hm₂] at h ⊢
      exact h
  rcases Nat.eq_zero_or_pos m₂ with rfl | hm₂
  · have h := delivers_self s₁ h₁
    rw [unpacked_pos s₁ e₁ hm₁] at h ⊢
    rw [point_zero, signed_zero, add_zero, unpacked_zero]
    exact h
  · rw [unpacked_pos s₁ e₁ hm₁, unpacked_pos s₂ e₂ hm₂,
      ← point_decreaseExponent m₁ (min_le_left e₁ e₂),
      ← point_decreaseExponent m₂ (min_le_right e₁ e₂), signed_point, signed_point, ← add_mul,
      ← Int.cast_add]
    exact delivers_normalize _ _

theorem unpacked_sub (u v : UnpackedFloat) :
    UnpackedFloat.sub .binary64 u v = .add .binary64 u v.neg := by
  have happly (s₁ s₂ : Sign) (k₁ k₂ : Int) :
      s₁.apply k₁ - s₂.apply k₂ = s₁.apply k₁ + (-s₂).apply k₂ := by
    cases s₂ with
    | positive => exact Int.sub_eq_add_neg
    | negative => exact Int.sub_neg _ _
  cases u with
  | finite s₁ m₁ e₁ h₁ =>
    cases v with
    | finite s₂ m₂ e₂ h₂ =>
      exact congrArg (UnpackedFloat.normalize .binary64 · _ .positive) (happly s₁ s₂ _ _)
    | notANumber | infinity | zero => rfl
  | notANumber | infinity | zero => cases v <;> rfl

namespace Stands

/-- **Sums are rounded once.** -/
theorem add (hx : Stands x a) (hy : Stands y b) : Delivers (a + b) (x + y) := by
  obtain ⟨s₁, m₁, e₁, hc₁, hu, rfl⟩ := hx.unpack
  obtain ⟨s₂, m₂, e₂, hc₂, hv, rfl⟩ := hy.unpack
  show Delivers _ (.ofModel (.pack (.add .binary64 x.toModel.unpack y.toModel.unpack)))
  rw [hu, hv]
  exact delivers_add s₁ s₂ hc₁ hc₂

/-- **Differences are rounded once.** -/
theorem sub (hx : Stands x a) (hy : Stands y b) : Delivers (a - b) (x - y) := by
  obtain ⟨s₁, m₁, e₁, hc₁, hu, rfl⟩ := hx.unpack
  obtain ⟨s₂, m₂, e₂, hc₂, hv, rfl⟩ := hy.unpack
  show Delivers _ (.ofModel (.pack (.sub .binary64 x.toModel.unpack y.toModel.unpack)))
  rw [hu, hv, unpacked_sub, neg_unpacked, sub_eq_add_neg, ← signed_neg]
  exact delivers_add s₁ (-s₂) hc₁ hc₂

/-- **Products are rounded once.** -/
theorem mul (hx : Stands x a) (hy : Stands y b) : Delivers (a * b) (x * y) := by
  obtain ⟨s₁, m₁, e₁, hc₁, hu, rfl⟩ := hx.unpack
  obtain ⟨s₂, m₂, e₂, hc₂, hv, rfl⟩ := hy.unpack
  show Delivers _ (.ofModel (.pack (.mul .binary64 x.toModel.unpack y.toModel.unpack)))
  obtain ⟨m, e, hn, hr⟩ := mul_unpacked s₁ s₂ hc₁ hc₂
  rw [hu, hv, hr, ← signed_mul]
  exact .of_nearest _ (mul_nonneg (point_nonneg _ _) (point_nonneg _ _)) hn

/-- **Quotients are rounded once.** -/
theorem div (hx : Stands x a) (hy : Stands y b) (hb : b ≠ 0) : Delivers (a / b) (x / y) := by
  obtain ⟨s₁, m₁, e₁, hc₁, hu, rfl⟩ := hx.unpack
  obtain ⟨s₂, m₂, e₂, hc₂, hv, rfl⟩ := hy.unpack
  have hm₂ : 0 < m₂ := Nat.pos_of_ne_zero fun h => hb (by rw [h, point_zero, signed_zero])
  show Delivers _ (.ofModel (.pack (.div .binary64 x.toModel.unpack y.toModel.unpack)))
  obtain ⟨m, e, hn, hr⟩ := div_unpacked s₁ s₂ m₁ e₁ hm₂ e₂
  rw [hu, hv, hr, ← signed_div]
  exact .of_nearest _ (div_nonneg (point_nonneg _ _) (point_nonneg _ _)) hn

end Stands

/-- A positive double divides infinity into infinity. -/
theorem infinity_div (hy : Stands y b) (hb : 0 < b) : infinity / y = infinity := by
  obtain ⟨sign, m, e, hc, hv, rfl⟩ := hy.unpack
  have hinf : infinity.toModel.unpack = .infinity .positive := by with_unfolding_all rfl
  have hm : 0 < m := Nat.pos_of_ne_zero fun h => by
    rw [h, point_zero, signed_zero] at hb
    exact lt_irrefl _ hb
  show Float.ofModel (.pack (.div .binary64 infinity.toModel.unpack y.toModel.unpack)) = _
  rw [hinf, hv, unpacked_pos sign e hm, infinity_eq]
  cases sign with
  | positive => rfl
  | negative => exact absurd hb (not_lt.mpr (neg_nonpos.mpr (point_nonneg m e)))

theorem isFinite_infinity : infinity.isFinite = false := by decide +kernel

/-! ## Order -/

/-- Canonical points are compared by their exponents first. -/
theorem compare_point (h₁ : Canonical m₁ e₁) (h₂ : Canonical m₂ e₂) :
    (compare e₁ e₂).then (compare m₁ m₂) = compare (point m₁ e₁) (point m₂ e₂) := by
  have hbelow {m₁ m₂ : Nat} {e₁ e₂ : Int} (h₁ : Canonical m₁ e₁) (h₂ : Canonical m₂ e₂)
      (he : e₁ < e₂) : point m₁ e₁ < point m₂ e₂ := by
    have hfull : 2 ^ 52 ≤ m₂ := h₂.full.resolve_right (by have := h₁.least; omega)
    exact (h₁.point_lt_of_lt he).trans_le (point_le_point.mpr hfull)
  rcases lt_trichotomy e₁ e₂ with he | rfl | he
  · rw [compare_lt_iff_lt.mpr he, compare_lt_iff_lt.mpr (hbelow h₁ h₂ he)]
    rfl
  · rw [compare_eq_iff_eq.mpr (rfl : e₁ = e₁)]
    show compare m₁ m₂ = _
    rcases lt_trichotomy m₁ m₂ with hm | rfl | hm
    · rw [compare_lt_iff_lt.mpr hm, compare_lt_iff_lt.mpr (point_lt_point.mpr hm)]
    · rw [compare_eq_iff_eq.mpr rfl, compare_eq_iff_eq.mpr rfl]
    · rw [compare_gt_iff_gt.mpr hm, compare_gt_iff_gt.mpr (point_lt_point.mpr hm)]
  · rw [compare_gt_iff_gt.mpr he, compare_gt_iff_gt.mpr (hbelow h₂ h₁ he)]
    rfl

theorem compare_neg_neg (a b : ℚ) : compare (-a) (-b) = (compare a b).swap := by
  rcases lt_trichotomy a b with h | rfl | h
  · rw [compare_lt_iff_lt.mpr h, compare_gt_iff_gt.mpr (neg_lt_neg h)]
    rfl
  · rw [compare_eq_iff_eq.mpr rfl, compare_eq_iff_eq.mpr rfl]
    rfl
  · rw [compare_gt_iff_gt.mpr h, compare_lt_iff_lt.mpr (neg_lt_neg h)]
    rfl

/-- Unpacked points are compared by their values. -/
theorem compare_unpacked (s₁ s₂ : Sign) (h₁ : Canonical m₁ e₁) (h₂ : Canonical m₂ e₂) :
    (unpacked s₁ m₁ e₁).compare (unpacked s₂ m₂ e₂) =
      some (compare (signed s₁ (point m₁ e₁)) (signed s₂ (point m₂ e₂))) := by
  have hpos {m : Nat} (e : Int) (hm : 0 < m) : 0 < point m e := by
    unfold point
    positivity
  rcases Nat.eq_zero_or_pos m₁ with rfl | hm₁
  · rw [unpacked_zero, point_zero, signed_zero]
    rcases Nat.eq_zero_or_pos m₂ with rfl | hm₂
    · rw [unpacked_zero, point_zero, signed_zero, compare_eq_iff_eq.mpr rfl]
      rfl
    · rw [unpacked_pos s₂ e₂ hm₂]
      cases s₂ with
      | positive => rw [signed, compare_lt_iff_lt.mpr (hpos e₂ hm₂)]; rfl
      | negative => rw [signed, compare_gt_iff_gt.mpr (neg_lt_zero.mpr (hpos e₂ hm₂))]; rfl
  rcases Nat.eq_zero_or_pos m₂ with rfl | hm₂
  · rw [unpacked_zero, point_zero, signed_zero, unpacked_pos s₁ e₁ hm₁]
    cases s₁ with
    | positive => rw [signed, compare_gt_iff_gt.mpr (hpos e₁ hm₁)]; rfl
    | negative => rw [signed, compare_lt_iff_lt.mpr (neg_lt_zero.mpr (hpos e₁ hm₁))]; rfl
  rw [unpacked_pos s₁ e₁ hm₁, unpacked_pos s₂ e₂ hm₂]
  have h₁' := hpos e₁ hm₁
  have h₂' := hpos e₂ hm₂
  cases s₁ with
  | positive =>
    cases s₂ with
    | positive => exact congrArg some (compare_point h₁ h₂)
    | negative =>
      rw [signed, signed, compare_gt_iff_gt.mpr (by linarith)]
      rfl
  | negative =>
    cases s₂ with
    | positive =>
      rw [signed, signed, compare_lt_iff_lt.mpr (by linarith)]
      rfl
    | negative =>
      rw [signed, signed, compare_neg_neg, ← compare_point h₁ h₂]
      rfl

/-- **Finite doubles are compared by their values.** -/
theorem Stands.le_iff (hx : Stands x a) (hy : Stands y b) : x ≤ y ↔ a ≤ b := by
  obtain ⟨s₁, m₁, e₁, hc₁, hu, rfl⟩ := hx.unpack
  obtain ⟨s₂, m₂, e₂, hc₂, hv, rfl⟩ := hy.unpack
  show Float.le x y = true ↔ _
  unfold Float.le
  rw [decide_eq_true_iff]
  show x.toModel.unpack.le y.toModel.unpack = true ↔ _
  rw [hu, hv, UnpackedFloat.le, compare_unpacked s₁ s₂ hc₁ hc₂, Option.any_some,
    Ordering.isLE_iff_ne_gt]
  exact compare_le_iff_le

/-- Finite doubles are equal when their values are, so the two zeros are. -/
theorem Stands.beq_iff (hx : Stands x a) (hy : Stands y b) : (x == y) = true ↔ a = b := by
  obtain ⟨s₁, m₁, e₁, hc₁, hu, rfl⟩ := hx.unpack
  obtain ⟨s₂, m₂, e₂, hc₂, hv, rfl⟩ := hy.unpack
  show (x.toModel.unpack.compare y.toModel.unpack == some .eq) = true ↔ _
  rw [hu, hv, compare_unpacked s₁ s₂ hc₁ hc₂, beq_iff_eq, Option.some_inj]
  exact compare_eq_iff_eq

/-! ## Naturals -/

theorem le_overflow : (2 : ℚ) ^ 53 ≤ overflow := by
  have hone : (1 : ℚ) ≤ 2 ^ (970 : Int) := one_le_zpow₀ one_le_two (by decide)
  calc (2 : ℚ) ^ 53 ≤ (2 ^ 54 - 1 : Nat) * 1 := by norm_num
    _ ≤ (2 ^ 54 - 1 : Nat) * 2 ^ (970 : Int) := mul_le_mul_of_nonneg_left hone (Nat.cast_nonneg _)

/-- A natural is converted to the nearest double. -/
theorem ofNat_nearest (n : Nat) : ∃ m e, Nearest n m e ∧ Float.ofNat n = ofPoint .positive m e := by
  obtain ⟨m, e, hn, hx⟩ := Decimal.toFloat_nearest ⟨n, 0⟩
  rw [Decimal.value, zpow_zero, mul_one] at hn
  exact ⟨m, e, hn, hx⟩

/-- Naturals with few enough bits are doubles. -/
theorem Stands.ofNat {n : Nat} (h : n < 2 ^ 53) : Stands (Float.ofNat n) n := by
  obtain ⟨m, e, hn, hx⟩ := ofNat_nearest n
  have hgrid : OnGrid n := by
    have hp := OnGrid.of_lt h (by decide : (-1074 : Int) ≤ 0)
    rwa [point, zpow_zero, mul_one] at hp
  have hsmall : |(n : ℚ)| < overflow := by
    rw [abs_of_nonneg (Nat.cast_nonneg n)]
    exact lt_of_lt_of_le (by exact_mod_cast h) le_overflow
  have hd : Delivers n (Float.ofNat n) := hx ▸ .of_nearest .positive (Nat.cast_nonneg n) hn
  obtain ⟨r, hr, hs⟩ := hd.stands hsmall
  rwa [hr.unique (.self hgrid)] at hs

theorem stands_zero : Stands 0 0 := by exact_mod_cast Stands.ofNat (by decide : 0 < 2 ^ 53)

theorem stands_one : Stands 1 1 := by exact_mod_cast Stands.ofNat (by decide : 1 < 2 ^ 53)

end Abacus.Double
