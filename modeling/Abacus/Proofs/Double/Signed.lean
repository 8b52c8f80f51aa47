import Abacus.Proofs.Double.Places

/-!
# Rounding rationals of both signs

A rational is rounded to the point nearest to its magnitude, on its own side of zero. Nothing is
said of overflow here: the grid goes on beyond the greatest double.

* `Rounding q r`: `r` is `q` rounded to the grid. Both are rationals, so roundings can be added and
  compared without a word on doubles.
* `OnGrid`: the rational is a point of the grid, or the negative of one.
* `accuracy`: what is left of a number when the greatest error of a rounding with all its bits is
  taken off.

Results:
* `Rounding.exists_of`, `Rounding.unique`: every rational has one rounding.
* `Rounding.mono`: rounding keeps the order.
* `Rounding.self`: points of the grid are their own roundings, so a rounding stays between points
  of the grid (`Rounding.le_of_le`, `Rounding.ge_of_ge`).
* `Rounding.le_or_small`: how far a rounding is too great at most.

What a rounding is as a double is `Proofs/Double/Arithmetic`.
-/

namespace Abacus.Double

/-- The rational is a point of the grid, or the negative of one. -/
def OnGrid (a : ℚ) : Prop := ∃ m e, Canonical m e ∧ |a| = point m e

/-- The second rational is the first one rounded to the grid, on the same side of zero. -/
def Rounding (q r : ℚ) : Prop :=
  ∃ m e, Nearest |q| m e ∧ r = if 0 ≤ q then point m e else -point m e

/-- What is left of a number when the greatest error of a rounding with all its bits is taken off,
which is one part in `2 ^ 53`. -/
def accuracy : ℚ := 1 - 1 / 2 ^ 53

theorem accuracy_pos : 0 < accuracy := by norm_num [accuracy]

theorem accuracy_le_one : accuracy ≤ 1 := by norm_num [accuracy]

variable {q q' r r' a : ℚ} {m m' : Nat} {e e' : Int}

/-- **Nearest points keep the order.** -/
theorem Nearest.mono (h : Nearest q m e) (h' : Nearest q' m' e') (hq : q ≤ q') :
    point m e ≤ point m' e' := by
  by_contra hlt
  have hlt := lt_of_not_ge hlt
  have hclose := h.closest _ _ h'.canonical
  have hclose' := h'.closest _ _ h.canonical
  -- each of the two is on the far side of the middle between the points
  have hfar : point m e + point m' e' ≤ 2 * q := by
    rcases abs_cases (point m e - q) with ⟨ha, hs⟩ | ⟨ha, hs⟩ <;>
      rcases abs_cases (point m' e' - q) with ⟨hb, hs'⟩ | ⟨hb, hs'⟩ <;> linarith
  have hnear : 2 * q' ≤ point m e + point m' e' := by
    rcases abs_cases (point m e - q') with ⟨ha, hs⟩ | ⟨ha, hs⟩ <;>
      rcases abs_cases (point m' e' - q') with ⟨hb, hs'⟩ | ⟨hb, hs'⟩ <;> linarith
  obtain rfl : q = q' := by linarith
  obtain ⟨rfl, rfl⟩ := h.unique h'
  exact lt_irrefl _ hlt

theorem nearest_point_zero (h : Nearest 0 m e) : point m e = 0 := by
  obtain ⟨rfl, rfl⟩ := h.unique nearest_zero
  exact point_zero _

namespace OnGrid

theorem zero : OnGrid 0 :=
  ⟨0, -1074, nearest_zero.canonical, by rw [abs_zero, point_zero]⟩

theorem neg (h : OnGrid a) : OnGrid (-a) := by
  obtain ⟨m, e, hc, ha⟩ := h
  exact ⟨m, e, hc, by rw [abs_neg, ha]⟩

theorem of_canonical (h : Canonical m e) : OnGrid (point m e) :=
  ⟨m, e, h, abs_of_nonneg (point_nonneg m e)⟩

/-- Points with few enough bits are on the grid. -/
theorem of_lt (hm : m < 2 ^ 53) (he : -1074 ≤ e) : OnGrid (point m e) := by
  obtain ⟨m', e', hc, -, hp⟩ := exists_canonical hm he
  exact hp ▸ of_canonical hc

theorem one : OnGrid 1 := by
  have h : OnGrid (point 1 0) := of_lt (by decide) (by decide)
  rwa [point, Nat.cast_one, zpow_zero, one_mul] at h

end OnGrid

namespace Rounding

theorem exists_of (q : ℚ) : ∃ r, Rounding q r := by
  obtain ⟨m, e, h⟩ := exists_nearest (abs_nonneg q)
  exact ⟨_, m, e, h, rfl⟩

theorem onGrid (h : Rounding q r) : OnGrid r := by
  obtain ⟨m, e, hn, rfl⟩ := h
  split
  · exact .of_canonical hn.canonical
  · exact (OnGrid.of_canonical hn.canonical).neg

/-- **Rounding keeps the order.** -/
theorem mono (h : Rounding q r) (h' : Rounding q' r') (hq : q ≤ q') : r ≤ r' := by
  obtain ⟨m, e, hn, rfl⟩ := h
  obtain ⟨m', e', hn', rfl⟩ := h'
  have hpos := point_nonneg m e
  have hpos' := point_nonneg m' e'
  rcases le_or_gt 0 q with h0 | h0
  · rw [if_pos h0, if_pos (h0.trans hq)]
    rw [abs_of_nonneg h0] at hn
    rw [abs_of_nonneg (h0.trans hq)] at hn'
    exact hn.mono hn' hq
  · rw [if_neg (not_le.mpr h0)]
    split
    · linarith
    · rename_i h0'
      have h0' := lt_of_not_ge h0'
      rw [abs_of_neg h0] at hn
      rw [abs_of_neg h0'] at hn'
      exact neg_le_neg (hn'.mono hn (neg_le_neg hq))

/-- **No rational has two roundings.** -/
theorem unique (h : Rounding q r) (h' : Rounding q r') : r = r' :=
  le_antisymm (h.mono h' le_rfl) (h'.mono h le_rfl)

/-- **What is on the grid is its own rounding.** -/
theorem self (h : OnGrid a) : Rounding a a := by
  obtain ⟨m, e, hc, ha⟩ := h
  refine ⟨m, e, ha ▸ hc.nearest_self, ?_⟩
  split
  · rename_i h0
    rw [← ha, abs_of_nonneg h0]
  · rename_i h0
    rw [← ha, abs_of_neg (lt_of_not_ge h0), neg_neg]

theorem le_of_le (h : Rounding q r) (ha : OnGrid a) (hq : q ≤ a) : r ≤ a := h.mono (self ha) hq

theorem ge_of_ge (h : Rounding q r) (ha : OnGrid a) (hq : a ≤ q) : a ≤ r := (self ha).mono h hq

theorem nonneg (h : Rounding q r) (hq : 0 ≤ q) : 0 ≤ r := h.ge_of_ge .zero hq

/-- A rounding with all its bits is not too great by more than the greatest error; all others are
smaller than the least such point. -/
theorem le_or_small (h : Rounding q r) (hq : 0 ≤ q) :
    r * accuracy ≤ q ∨ r < 2 ^ (-1022 : Int) := by
  obtain ⟨m, e, hn, rfl⟩ := h
  rw [if_pos hq]
  rw [abs_of_nonneg hq] at hn
  rcases Nat.lt_or_ge m (2 ^ 52) with hm | hm
  · right
    obtain rfl : e = -1074 := hn.canonical.full.resolve_left (by omega)
    have hleast : point (1 * 2 ^ 52) (-1074) = 2 ^ (-1022 : Int) := by
      rw [← point_shift, point, Nat.cast_one, one_mul]
      rfl
    rw [← hleast, Nat.one_mul]
    exact point_lt_point.mpr hm
  · left
    have hw := (abs_le.mp (hn.within hq)).2
    have hm : (2 : ℚ) ^ 52 ≤ m := by exact_mod_cast hm
    have hu : 2 ^ e * 2 ^ 52 ≤ point m e := by
      rw [point, mul_comm]
      exact mul_le_mul_of_nonneg_right hm (unit_pos e).le
    have hhalf : (2 : ℚ) ^ e / 2 ≤ point m e * (1 / 2 ^ 53) := by
      rw [mul_one_div, le_div_iff₀ (by positivity)]
      calc (2 : ℚ) ^ e / 2 * 2 ^ 53 = 2 ^ e * 2 ^ 52 := by ring
        _ ≤ point m e := hu
    rw [accuracy, mul_sub, mul_one]
    linarith

end Rounding

end Abacus.Double
