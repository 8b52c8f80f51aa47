import Abacus.Function
import Abacus.Proofs.Double.Arithmetic
import Mathlib.Data.Rat.Floor

/-!
# Rounding to integers

A finite double that is no integer is smaller than `2 ^ 52`, so its floor and the integer above are
doubles, and both are found exactly. What is left above the floor is a double as well, save for
small negative numbers: there it is more than a half, and its rounding is no less than a half. So a
half is told from less than a half although the difference is rounded.

The function `round` of the expressions goes up at a half, also for negative numbers, and is
`Double.halfUp`: the floor, with one added if what is left is at least a half. It is compared with
the integer that the exact value asks for, the floor of the value and a half.

Results:
* `Stands.floor`: the floor is exact.
* `Stands.half_le_iff`: the comparison with a half decides as it would without rounding.
* `halfUp_spec`: rounding to the nearest integer, a half going up.

Adding a half and taking the floor would not do, since the sum is rounded; the number just below a
half is one where it goes wrong.
-/

namespace Abacus.Double

open Float.Model Float.Model.UnpackedFloat

variable {x : Float} {a : ℚ} {n : Nat}

/-! ## Integers and what is left above them -/

/-- Integers with few enough bits are on the grid. -/
theorem OnGrid.of_int {k : ℤ} (h : |k| < 2 ^ 53) : OnGrid k := by
  have hnat (n : Nat) (hn : n < 2 ^ 53) : OnGrid (n : ℚ) := by
    have h := OnGrid.of_lt hn (by decide : (-1074 : Int) ≤ 0)
    rwa [point, zpow_zero, mul_one] at h
  obtain ⟨hlow, hhigh⟩ := abs_lt.mp h
  obtain ⟨n, rfl | rfl⟩ := k.eq_nat_or_neg
  · exact_mod_cast hnat n (by omega)
  · exact_mod_cast (hnat n (by omega)).neg

/-- A double is a whole multiple of its unit. -/
theorem signed_point_eq_mul (sign : Sign) (m : Nat) (e : Int) :
    ∃ k : ℤ, |k| = m ∧ signed sign (point m e) = k * 2 ^ e := by
  refine ⟨sign.apply m, ?_, signed_point sign m e⟩
  cases sign with
  | positive => exact abs_of_nonneg (Int.natCast_nonneg m)
  | negative => exact (abs_neg _).trans (abs_of_nonneg (Int.natCast_nonneg m))

/-- The integers around a small number have few enough bits. -/
theorem abs_floor_lt (h : |a| < 2 ^ 52) : |⌊a⌋| < 2 ^ 53 ∧ |⌊a⌋ + 1| < 2 ^ 53 := by
  obtain ⟨hlow, hhigh⟩ := abs_lt.mp h
  have hle : -(2 : ℤ) ^ 52 ≤ ⌊a⌋ := Int.le_floor.mpr (by push_cast; exact hlow.le)
  have hlt : ⌊a⌋ < (2 : ℤ) ^ 52 := Int.floor_lt.mpr (by push_cast; exact hhigh)
  exact ⟨abs_lt.mpr ⟨by omega, by omega⟩, abs_lt.mpr ⟨by omega, by omega⟩⟩

theorem abs_floor_le (a : ℚ) : |(⌊a⌋ : ℚ)| ≤ |a| + 1 := by
  have hlow := Int.floor_le a
  have hhigh := Int.lt_floor_add_one a
  have := neg_abs_le a
  have := le_abs_self a
  exact abs_le.mpr ⟨by linarith, by linarith⟩

namespace Stands

/-- **A finite double that is no integer is small.** -/
theorem whole_or_small (h : Stands x a) : (∃ k : ℤ, a = k) ∨ |a| < 2 ^ 52 := by
  obtain ⟨sign, m, e, hc, -, -, rfl⟩ := stands_iff.mp h
  rcases le_or_gt 0 e with he | he
  · left
    lift e to Nat using he
    refine ⟨sign.apply m * 2 ^ e, ?_⟩
    rw [signed_point, zpow_natCast]
    push_cast
    rfl
  · right
    have hm : (m : ℚ) < 2 ^ 53 := by exact_mod_cast hc.lt
    have hhalf : (2 : ℚ) ^ e ≤ 2 ^ (-1 : Int) := unit_le (by omega)
    rw [abs_signed sign (point_nonneg m e), point]
    calc (m : ℚ) * 2 ^ e < 2 ^ 53 * 2 ^ e := mul_lt_mul_of_pos_right hm (unit_pos e)
      _ ≤ 2 ^ 53 * 2 ^ (-1 : Int) := mul_le_mul_of_nonneg_left hhalf (by positivity)
      _ = 2 ^ 52 := by norm_num

/-- The floor of a double is on the grid. -/
theorem onGrid_floor (h : Stands x a) : OnGrid (⌊a⌋ : ℚ) := by
  rcases h.whole_or_small with ⟨k, rfl⟩ | hsmall
  · rw [Int.floor_intCast]
    exact h.onGrid
  · exact .of_int (abs_floor_lt hsmall).1

/-- What is left above the floor is on the grid, unless the double is a small negative one. -/
theorem onGrid_fract (h : Stands x a) : OnGrid (Int.fract a) ∨ (-(1 / 2) < a ∧ a < 0) := by
  obtain ⟨sign, m, e, hc, -, -, ha⟩ := stands_iff.mp h
  obtain ⟨k, hk, hvalue⟩ := signed_point_eq_mul sign m e
  have hm : (m : ℚ) < 2 ^ 53 := by exact_mod_cast hc.lt
  rcases le_or_gt 0 e with he | he
  -- an integer leaves nothing
  · left
    lift e to Nat using he
    have hint : a = ((k * 2 ^ e : ℤ) : ℚ) := by
      rw [ha, hvalue, zpow_natCast]
      push_cast
      rfl
    rw [hint, Int.fract_intCast]
    exact .zero
  rcases le_or_gt (-53) e with hfine | hsmall
  -- the unit divides one into no more steps than there are mantissas
  · left
    obtain ⟨n, rfl⟩ : ∃ n : Nat, e = -n := ⟨(-e).toNat, by omega⟩
    have hpos : (0 : ℤ) < (2 ^ n : Nat) := by positivity
    have hfract : Int.fract a = (k % (2 ^ n : Nat) : ℤ) / (2 ^ n : Nat) := by
      rw [← Int.fract_div_intCast_eq_div_intCast_mod, ha, hvalue, zpow_neg, zpow_natCast,
        div_eq_mul_inv]
      push_cast
      rfl
    obtain ⟨j, hj⟩ := Int.eq_ofNat_of_zero_le (Int.emod_nonneg k hpos.ne')
    have hlt : j < 2 ^ 53 := by
      have hmod := Int.emod_lt_of_pos k hpos
      have hle : 2 ^ n ≤ 2 ^ 53 := Nat.pow_le_pow_right two_pos (by omega)
      omega
    have hpoint : Int.fract a = point j (-n) := by
      rw [hfract, hj, point, zpow_neg, zpow_natCast, div_eq_mul_inv]
      push_cast
      rfl
    rw [hpoint]
    exact .of_lt hlt hc.least
  -- smaller than a half: the floor is zero or minus one
  · have habs : |a| < 1 / 2 := by
      have hunit : (2 : ℚ) ^ e ≤ 2 ^ (-54 : Int) := unit_le (by omega)
      rw [ha, abs_signed sign (point_nonneg m e), point]
      calc (m : ℚ) * 2 ^ e < 2 ^ 53 * 2 ^ e := mul_lt_mul_of_pos_right hm (unit_pos e)
        _ ≤ 2 ^ 53 * 2 ^ (-54 : Int) := mul_le_mul_of_nonneg_left hunit (by positivity)
        _ = 1 / 2 := by norm_num
    rcases lt_or_ge a 0 with hneg | hpos
    · exact .inr ⟨neg_lt_of_abs_lt habs, hneg⟩
    · left
      rw [Int.fract_eq_self.mpr ⟨hpos, (lt_of_abs_lt habs).trans (by norm_num)⟩]
      exact h.onGrid

end Stands

/-! ## The floor -/

/-- An integer on the grid is the value of its double. -/
theorem stands_toFloat {negative : Bool} {n : Nat} {k : ℤ}
    (hk : k = if negative then -(n : ℤ) else n) (hgrid : OnGrid (k : ℚ))
    (hsize : |(k : ℚ)| < overflow) : Stands (Exact.mk negative n 0).toFloat k := by
  obtain ⟨sign, hsign, hvalue⟩ : ∃ sign : Sign,
      (if negative then Sign.negative else .positive) = sign ∧ signed sign n = k := by
    rw [hk]
    cases negative with
    | true => exact ⟨_, rfl, by simp [signed]⟩
    | false => exact ⟨_, rfl, by simp [signed]⟩
  have hd : Delivers k (Exact.mk negative n 0).toFloat := by
    unfold Exact.toFloat
    dsimp only
    rw [hsign, ← hvalue]
    rcases Nat.eq_zero_or_pos n with rfl | hpos
    · rw [if_pos rfl, Nat.cast_zero, signed_zero]
      exact delivers_zero sign
    · obtain ⟨m, e, hnear, hround⟩ := round_nearest hpos.ne' 0 sign
      rw [point, zpow_zero, mul_one] at hnear
      rw [if_neg hpos.ne', hround]
      exact .of_nearest sign (Nat.cast_nonneg n) hnear
  obtain ⟨r, hr, hs⟩ := hd.stands hsize
  rwa [hr.unique (.self hgrid)] at hs

/-- The floor of a mixed fraction with a sign. -/
theorem floor_mixed (negative : Bool) (whole : Nat) {rest unit : Nat} (h : rest < unit) :
    ⌊if negative then -((whole : ℚ) + rest / unit) else whole + rest / unit⌋ =
      if negative && rest != 0 then -((whole + 1 : Nat) : ℤ)
      else if negative then -(whole : ℤ) else whole := by
  have hunit : (0 : ℚ) < unit := by exact_mod_cast (Nat.zero_le rest).trans_lt h
  have hnonneg : (0 : ℚ) ≤ rest / unit := by positivity
  have hone : (rest : ℚ) / unit < 1 := (div_lt_one hunit).mpr (by exact_mod_cast h)
  rw [Int.floor_eq_iff]
  cases negative with
  | false =>
    simp only [Bool.false_and, Bool.false_eq_true, if_false, Int.cast_natCast]
    exact ⟨by linarith, by linarith⟩
  | true =>
    rcases Nat.eq_zero_or_pos rest with rfl | hpos
    · simp
    · have hpos' : (0 : ℚ) < rest / unit := div_pos (by exact_mod_cast hpos) hunit
      have hne : (rest != 0) = true := by simp [hpos.ne']
      simp only [Bool.true_and, hne, if_true]
      push_cast
      exact ⟨by linarith, by linarith⟩

/-- The floor of the value of a finite double, as it is computed. -/
theorem floor_value (v : Exact) {unit : Nat} (hunit : unit = Nat.pow 2 (-v.exponent).toNat) :
    ⌊value v⌋ =
      if v.negative && v.steps 0 % unit != 0 then -((v.steps 0 / unit + 1 : Nat) : ℤ)
      else if v.negative then -((v.steps 0 / unit : Nat) : ℤ) else (v.steps 0 / unit : Nat) := by
  have hpos : 0 < unit := hunit ▸ Nat.pow_pos (by decide)
  have hpos' : (unit : ℚ) ≠ 0 := by exact_mod_cast hpos.ne'
  have hquot : (v.steps 0 : ℚ) / unit =
      (v.steps 0 / unit : Nat) + (v.steps 0 % unit : Nat) / unit := by
    rw [div_eq_iff hpos', add_mul, div_mul_cancel₀ _ hpos']
    exact_mod_cast (Nat.div_add_mod' (v.steps 0) unit).symm
  rw [← floor_mixed _ _ (Nat.mod_lt (v.steps 0) hpos), ← hquot, hunit, v.steps_div]
  rfl

namespace Stands

/-- **The floor of a finite double is exact.** -/
theorem floor (h : Stands x a) : Stands (floor x) (⌊a⌋ : ℚ) := by
  have hgrid := h.onGrid_floor
  have hsize := (abs_floor_le a).trans_lt h.abs_add_one_lt
  obtain ⟨v, hv, rfl⟩ := h
  have hfloor := floor_value v rfl
  unfold Double.floor
  rw [hv]
  dsimp only
  split
  · rename_i hleft
    rw [if_pos hleft] at hfloor
    exact stands_toFloat hfloor hgrid hsize
  · rename_i hleft
    rw [if_neg hleft] at hfloor
    exact stands_toFloat hfloor hgrid hsize

end Stands

/-! ## Halves -/

theorem stands_half : Stands 0.5 (1 / 2) := by
  have h : Exact.of? 0.5 = some ⟨false, 2 ^ 52, -53⟩ := by decide +kernel
  exact ⟨_, h, by norm_num [value, point]⟩

/-- **What is left above the floor is compared with a half as if it were not rounded.** -/
theorem Stands.half_le_iff (h : Stands x a) : 0.5 ≤ x - Double.floor x ↔ 1 / 2 ≤ Int.fract a := by
  have hnonneg := Int.fract_nonneg a
  have hlt : |a - ⌊a⌋| < overflow := by
    have hone := Int.fract_lt_one a
    rw [Int.self_sub_floor, abs_of_nonneg hnonneg]
    exact hone.trans_le ((by norm_num : (1 : ℚ) ≤ 2 ^ 53).trans le_overflow)
  obtain ⟨r, hr, hs⟩ := (h.sub h.floor).stands hlt
  rw [Int.self_sub_floor] at hr
  rw [stands_half.le_iff hs]
  rcases h.onGrid_fract with hgrid | ⟨hlow, hneg⟩
  · rw [hr.unique (.self hgrid)]
  · have hfloor : ⌊a⌋ = -1 := Int.floor_eq_iff.mpr ⟨by push_cast; linarith, by push_cast; linarith⟩
    have hfract : 1 / 2 ≤ Int.fract a := by
      rw [Int.fract, hfloor]
      push_cast
      linarith
    exact iff_of_true (hr.ge_of_ge stands_half.onGrid hfract) hfract

/-- The integer above a double that is no integer is exact, too. -/
theorem Stands.floor_add_one (h : Stands x a) (hfract : 0 < Int.fract a) :
    Stands (Double.floor x + 1) ((⌊a⌋ + 1 : ℤ) : ℚ) := by
  have hsmall : |a| < 2 ^ 52 := by
    refine h.whole_or_small.resolve_left ?_
    rintro ⟨k, rfl⟩
    rw [Int.fract_intCast] at hfract
    exact lt_irrefl _ hfract
  have hbits := (abs_floor_lt hsmall).2
  have hsize : |(⌊a⌋ : ℚ) + 1| < overflow := by
    refine lt_of_lt_of_le ?_ le_overflow
    exact_mod_cast hbits
  obtain ⟨r, hr, hs⟩ := (h.floor.add stands_one).stands hsize
  have hself : OnGrid ((⌊a⌋ : ℚ) + 1) := by exact_mod_cast OnGrid.of_int hbits
  rw [hr.unique (.self hself)] at hs
  exact_mod_cast hs

/-- **Rounding to an integer is exact.** The result is the greatest integer that is not above the
number and a half, so a half goes toward positive infinity; neither the rounded difference nor the
rounded sum on the way to it moves a number across a half. -/
theorem halfUp_spec (h : Stands x a) :
    Function.round.value? [x] = some (halfUp x) ∧ Stands (halfUp x) (⌊a + 1 / 2⌋ : ℚ) ∧
      (0.5 ≤ x - Double.floor x ↔ 1 / 2 ≤ a - ⌊a⌋) := by
  have hhalf := h.half_le_iff
  refine ⟨rfl, ?_, hhalf⟩
  have hlow := Int.floor_le a
  have hhigh := Int.lt_floor_add_one a
  unfold halfUp
  by_cases hfract : 1 / 2 ≤ Int.fract a
  · have hup : ⌊a + 1 / 2⌋ = ⌊a⌋ + 1 := by
      rw [Int.fract] at hfract
      exact Int.floor_eq_iff.mpr ⟨by push_cast; linarith, by push_cast; linarith⟩
    rw [if_pos (hhalf.mpr hfract), hup]
    exact h.floor_add_one (by linarith)
  · have hdown : ⌊a + 1 / 2⌋ = ⌊a⌋ := by
      rw [Int.fract] at hfract
      exact Int.floor_eq_iff.mpr ⟨by linarith, by linarith⟩
    rw [if_neg (hhalf.not.mpr hfract), hdown]
    exact h.floor

/-- The greatest double below a half, where adding a half first would give one; a negative half; and
the greatest double that is no integer. -/
theorem halfUp_spec_edges :
    Stands 0.49999999999999994 ((2 ^ 53 - 1) / 2 ^ 54) ∧ Stands (halfUp 0.49999999999999994) 0 ∧
      Stands (-2.5) (-5 / 2) ∧ Stands (halfUp (-2.5)) (-2) ∧
      Stands 4503599627370495.5 (2 ^ 52 - 1 / 2) ∧ Stands (halfUp 4503599627370495.5) (2 ^ 52) := by
  have below : Stands 0.49999999999999994 ((2 ^ 53 - 1) / 2 ^ 54) := by
    have h : Exact.of? 0.49999999999999994 = some ⟨false, 2 ^ 53 - 1, -54⟩ := by decide +kernel
    exact ⟨_, h, by norm_num [value, point]⟩
  have negative : Stands (-2.5) (-5 / 2) := by
    have h : Exact.of? (-2.5) = some ⟨true, 5 * 2 ^ 50, -51⟩ := by decide +kernel
    exact ⟨_, h, by norm_num [value, point]⟩
  have greatest : Stands 4503599627370495.5 (2 ^ 52 - 1 / 2) := by
    have h : Exact.of? 4503599627370495.5 = some ⟨false, 2 ^ 53 - 1, -1⟩ := by decide +kernel
    exact ⟨_, h, by norm_num [value, point]⟩
  refine ⟨below, ?_, negative, ?_, greatest, ?_⟩
  · have h := (halfUp_spec below).2.1
    norm_num at h
    exact h
  · have h := (halfUp_spec negative).2.1
    norm_num at h
    exact h
  · have h := (halfUp_spec greatest).2.1
    norm_num at h ⊢
    exact h

end Abacus.Double
