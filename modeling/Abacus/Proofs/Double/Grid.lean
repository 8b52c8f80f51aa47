import Mathlib.Algebra.Order.Field.Power
import Mathlib.Data.Rat.Cast.Order
import Mathlib.Tactic.FieldSimp
import Mathlib.Tactic.Linarith
import Mathlib.Tactic.Positivity
import Mathlib.Tactic.Ring

/-!
# The grid of the doubles

The magnitudes of doubles are the points `m · 2 ^ e` with `m` below `2 ^ 53` and `e` not below
`-1074`. A point has one canonical mantissa and exponent: the mantissa has all its 53 bits, or the
exponent is the least one. The exponent is not bounded above here, so that rounding and overflow
can be looked at one after the other.

* `point m e`: the magnitude, a rational. `Canonical m e`: the mantissa and the exponent are those a
  double would have.
* `gapBelow`: the distance to the next point below, which is half the unit at a power of two.
* `Nearest q m e`: no point is nearer to the magnitude of `q`, and of two that are as near it is the
  one with the even mantissa.
* `HalfEven s r`: the same for naturals. `carry`: a mantissa that was rounded up to `2 ^ 53`.
* `overflow`: the first magnitude that is too great for a double.

Results:
* `Canonical.ext`: the canonical mantissa and exponent of a point are unique.
* `nearest_of_halfEven`: a mantissa rounded to an integer, halves to even, gives a nearest point.
* `nearest_of_within`: a point is nearest to everything within half a gap of it.
* `Nearest.unique`: no rational has two nearest points.
* `Nearest.exponent_le`, `Nearest.lt_overflow`: rounding stays among the doubles exactly below
  `overflow`.

Nothing here mentions doubles as words; those are `Proofs/Double/Packing`.
-/

namespace Abacus.Double

/-- The magnitude with a mantissa and an exponent. -/
def point (m : Nat) (e : Int) : ℚ := m * 2 ^ e

/-- The mantissa and the exponent that a double would have. -/
structure Canonical (m : Nat) (e : Int) : Prop where
  lt : m < 2 ^ 53
  least : -1074 ≤ e
  full : 2 ^ 52 ≤ m ∨ e = -1074

theorem unit_pos (e : Int) : (0 : ℚ) < 2 ^ e := by positivity

theorem unit_succ (e : Int) : (2 : ℚ) ^ (e + 1) = 2 * 2 ^ e := by
  rw [zpow_add₀ two_ne_zero, zpow_one, mul_comm]

theorem unit_le {e e' : Int} (h : e ≤ e') : (2 : ℚ) ^ e ≤ 2 ^ e' :=
  zpow_le_zpow_right₀ one_le_two h

theorem point_nonneg (m : Nat) (e : Int) : 0 ≤ point m e :=
  mul_nonneg (Nat.cast_nonneg m) (unit_pos e).le

theorem point_zero (e : Int) : point 0 e = 0 := by rw [point, Nat.cast_zero, zero_mul]

theorem point_succ (m : Nat) (e : Int) : point (m + 1) e = point m e + 2 ^ e := by
  rw [point, point, Nat.cast_succ, add_mul, one_mul]

theorem point_lt_point {m m' : Nat} {e : Int} : point m e < point m' e ↔ m < m' := by
  rw [point, point, mul_lt_mul_iff_left₀ (unit_pos e), Nat.cast_lt]

theorem point_le_point {m m' : Nat} {e : Int} : point m e ≤ point m' e ↔ m ≤ m' := by
  rw [point, point, mul_le_mul_iff_left₀ (unit_pos e), Nat.cast_le]

theorem point_inj {m m' : Nat} {e : Int} : point m e = point m' e ↔ m = m' := by
  rw [le_antisymm_iff, point_le_point, point_le_point, Nat.le_antisymm_iff]

/-- A smaller exponent takes a greater mantissa. -/
theorem point_shift (m : Nat) (e : Int) (k : Nat) : point m (e + k) = point (m * 2 ^ k) e := by
  rw [point, point, zpow_add₀ two_ne_zero, zpow_natCast]
  push_cast
  ring

/-- Every point of a greater exponent is a point of a smaller one. -/
theorem exists_point_eq {e e' : Int} (h : e ≤ e') (m' : Nat) :
    ∃ k, point m' e' = point k e := by
  obtain ⟨k, rfl⟩ := Int.le.dest h
  exact ⟨_, point_shift m' e k⟩

/-! ## Order on the grid -/

namespace Canonical

variable {m m' : Nat} {e e' : Int}

/-- Below a canonical point with all its bits stand all points of smaller exponents. -/
theorem point_lt_of_lt (h' : Canonical m' e') (he : e' < e) : point m' e' < point (2 ^ 52) e := by
  have hu : point (2 ^ 53) e' = point (2 ^ 52) (e' + 1) := (point_shift (2 ^ 52) e' 1).symm
  have hle : point (2 ^ 52) (e' + 1) ≤ point (2 ^ 52) e :=
    mul_le_mul_of_nonneg_left (unit_le he) (Nat.cast_nonneg _)
  calc point m' e' < point (2 ^ 53) e' := point_lt_point.mpr h'.lt
    _ = point (2 ^ 52) (e' + 1) := hu
    _ ≤ point (2 ^ 52) e := hle

theorem exponent_le (h : Canonical m e) (h' : Canonical m' e') (hp : point m e ≤ point m' e') :
    e ≤ e' := by
  by_contra hlt
  have he : e' < e := not_le.mp hlt
  have hfull : 2 ^ 52 ≤ m := by
    rcases h.full with hm | hm
    · exact hm
    · have := h'.least
      omega
  have hle : point (2 ^ 52) e ≤ point m e := point_le_point.mpr hfull
  exact absurd (h'.point_lt_of_lt he) (not_lt.mpr (hle.trans hp))

/-- The canonical mantissa and exponent of a point are unique. -/
theorem ext (h : Canonical m e) (h' : Canonical m' e') (hp : point m e = point m' e') :
    m = m' ∧ e = e' := by
  have he : e = e' := le_antisymm (h.exponent_le h' hp.le) (h'.exponent_le h hp.ge)
  subst he
  exact ⟨point_inj.mp hp, rfl⟩

/-- The next point is not nearer than the unit. -/
theorem add_unit_le (h : Canonical m e) (h' : Canonical m' e') (hp : point m e < point m' e') :
    point m e + 2 ^ e ≤ point m' e' := by
  obtain ⟨k, hk⟩ := exists_point_eq (h.exponent_le h' hp.le) m'
  rw [hk, point_lt_point] at hp
  rw [hk, ← point_succ]
  exact point_le_point.mpr hp

/-- The gap below a point: half of the gap above it, if the mantissa is the least one with all its
bits and the exponent is not the least one. -/
def gapBelow (m : Nat) (e : Int) : ℚ := if m = 2 ^ 52 ∧ -1074 < e then 2 ^ (e - 1) else 2 ^ e

theorem gapBelow_le (m : Nat) (e : Int) : gapBelow m e ≤ 2 ^ e := by
  unfold gapBelow
  split
  · exact unit_le (by omega)
  · exact le_rfl

theorem gapBelow_pos (m : Nat) (e : Int) : 0 < gapBelow m e := by
  unfold gapBelow
  split
  · exact unit_pos _
  · exact unit_pos _

/-- The last point before is not nearer than the gap below. -/
theorem add_gapBelow_le (h : Canonical m e) (h' : Canonical m' e')
    (hp : point m' e' < point m e) : point m' e' + gapBelow m e ≤ point m e := by
  rcases eq_or_lt_of_le (h'.exponent_le h hp.le) with rfl | he
  · have := h'.add_unit_le h hp
    have := gapBelow_le m e'
    linarith
  have hlast : point m' e' + 2 ^ (e - 1) ≤ point (2 ^ 52) e := by
    have hbound : point (2 ^ 53 - 1) e' + 2 ^ e' = point (2 ^ 53) e' := (point_succ _ _).symm
    have hm : point m' e' ≤ point (2 ^ 53 - 1) e' :=
      point_le_point.mpr (Nat.le_sub_one_of_lt h'.lt)
    have hd : point (2 ^ 52) e = point (2 ^ 53) (e - 1) := by
      have := point_shift (2 ^ 52) (e - 1) 1
      rwa [Int.natCast_one, Int.sub_add_cancel] at this
    have hu : (2 : ℚ) ^ e' ≤ 2 ^ (e - 1) := unit_le (by omega)
    have hv : (2 : ℚ) ^ e' * (2 ^ 53 - 1) ≤ 2 ^ (e - 1) * (2 ^ 53 - 1) :=
      mul_le_mul_of_nonneg_right hu (by norm_num)
    rw [hd]
    simp only [point] at hbound hm ⊢
    push_cast at hbound hm ⊢
    linarith
  rcases h.full with hm | hm
  · rcases eq_or_lt_of_le hm with rfl | hm
    · rw [gapBelow, if_pos ⟨rfl, lt_of_le_of_lt h'.least he⟩]
      exact hlast
    · have hs : point (2 ^ 52) e + 2 ^ e ≤ point m e := by
        rw [← point_succ]
        exact point_le_point.mpr hm
      have := gapBelow_le m e
      have := unit_pos (e - 1)
      linarith
  · have := h'.least
    omega

end Canonical

/-- A mantissa of no more bits than a double can be made canonical. -/
theorem exists_canonical {m : Nat} {e : Int} (hm : m < 2 ^ 53) (he : -1074 ≤ e) :
    ∃ m' e', Canonical m' e' ∧ e' ≤ e ∧ point m' e' = point m e := by
  by_cases h0 : m = 0
  · subst h0
    refine ⟨0, -1074, ⟨by decide, le_rfl, .inr rfl⟩, he, ?_⟩
    rw [point_zero, point_zero]
  have hlog : m.log2 < 53 := (Nat.log2_lt h0).mpr hm
  obtain ⟨k, hk⟩ : ∃ k : Nat, k = min (52 - m.log2) (e + 1074).toNat := ⟨_, rfl⟩
  refine ⟨m * 2 ^ k, e - k, ⟨?_, by omega, ?_⟩, by omega, ?_⟩
  · calc m * 2 ^ k < 2 ^ (m.log2 + 1) * 2 ^ k :=
          Nat.mul_lt_mul_of_pos_right Nat.lt_log2_self (Nat.two_pow_pos k)
      _ = 2 ^ (m.log2 + 1 + k) := (pow_add _ _ _).symm
      _ ≤ 2 ^ 53 := Nat.pow_le_pow_right two_pos (by omega)
  · by_cases hlow : k = 52 - m.log2
    · left
      calc 2 ^ 52 = 2 ^ m.log2 * 2 ^ k := by rw [← pow_add, hlow, Nat.add_sub_cancel' (by omega)]
        _ ≤ m * 2 ^ k := Nat.mul_le_mul_right _ (Nat.log2_self_le h0)
    · right
      omega
  · rw [← point_shift, Int.sub_add_cancel]

/-! ## Nearest points -/

/-- The point is nearest to the rational, and of two nearest points the one with the even
mantissa. -/
structure Nearest (q : ℚ) (m : Nat) (e : Int) : Prop where
  canonical : Canonical m e
  closest : ∀ m' e', Canonical m' e' → |point m e - q| ≤ |point m' e' - q|
  even : ∀ m' e', Canonical m' e' → |point m e - q| = |point m' e' - q| →
    point m' e' = point m e ∨ m % 2 = 0

/-- The natural is nearest to the rational, and even if the rational stands between two. -/
structure HalfEven (s : ℚ) (r : Nat) : Prop where
  within : |(r : ℚ) - s| ≤ 1 / 2
  even : |(r : ℚ) - s| = 1 / 2 → r % 2 = 0

theorem HalfEven.of_lt {s : ℚ} {r : Nat} (h : |(r : ℚ) - s| < 1 / 2) : HalfEven s r :=
  ⟨h.le, fun he => absurd he h.ne⟩

theorem HalfEven.le_of_lt {s : ℚ} {r n : Nat} (h : HalfEven s r) (hs : s < n) : r ≤ n := by
  have hw := (abs_le.mp h.within).2
  have : (r : ℚ) < n + 1 := by linarith
  exact Nat.le_of_lt_succ (by exact_mod_cast this)

/-- What is below one half is rounded to zero, and nothing above. -/
theorem HalfEven.eq_zero_iff {s : ℚ} {r : Nat} (h : HalfEven s r) (hhalf : s ≠ 1 / 2) :
    r = 0 ↔ s < 1 / 2 := by
  have hw := abs_le.mp h.within
  constructor
  · rintro rfl
    rw [Nat.cast_zero] at hw
    exact lt_of_le_of_ne (by linarith) hhalf
  · intro hlt
    have hr : (r : ℚ) < 1 := by linarith
    exact Nat.lt_one_iff.mp (by exact_mod_cast hr)

/-- Below an even number is rounded what is more than a half below it. -/
theorem HalfEven.lt_iff {s : ℚ} {r n : Nat} (h : HalfEven s r) (hn : n % 2 = 0) :
    r < n ↔ s < n - 1 / 2 := by
  have hw := abs_le.mp h.within
  constructor
  · intro hlt
    have hle : (r : ℚ) + 1 ≤ n := by exact_mod_cast hlt
    refine lt_of_le_of_ne (by linarith) ?_
    rintro rfl
    -- the middle below an even number is rounded up to it
    have hsucc : (r : ℚ) + 1 = n := by linarith
    have hhalf : |(r : ℚ) - (n - 1 / 2)| = 1 / 2 := by
      rw [← hsucc, abs_eq (by norm_num)]
      exact .inr (by ring)
    have heven := h.even hhalf
    have : r + 1 = n := by exact_mod_cast hsucc
    omega
  · intro hlt
    have : (r : ℚ) < n := by linarith
    exact_mod_cast this

theorem HalfEven.closest {s : ℚ} {r : Nat} (h : HalfEven s r) {k : Nat} (hk : k ≠ r) :
    |(r : ℚ) - s| ≤ |(k : ℚ) - s| ∧ (|(r : ℚ) - s| = |(k : ℚ) - s| → r % 2 = 0) := by
  have hone : (1 : ℚ) ≤ |(k : ℚ) - r| := by
    have hi : (1 : ℤ) ≤ |(k : ℤ) - r| := Int.one_le_abs (by omega)
    exact_mod_cast hi
  have htri : |(k : ℚ) - r| ≤ |(k : ℚ) - s| + |(r : ℚ) - s| := by
    have := abs_sub_le (k : ℚ) s r
    rwa [abs_sub_comm s (r : ℚ)] at this
  have hw := h.within
  refine ⟨by linarith, fun he => h.even ?_⟩
  linarith

theorem abs_point_sub (k : Nat) (s : ℚ) (e : Int) :
    |point k e - s * 2 ^ e| = |(k : ℚ) - s| * 2 ^ e := by
  rw [point, ← sub_mul, abs_mul, abs_of_pos (unit_pos e)]

/-- The point of a mantissa rounded to an integer; a carry out of the 53 bits shifts it. -/
def carry (r : Nat) (e : Int) : Nat × Int := if r < 2 ^ 53 then (r, e) else (2 ^ 52, e + 1)

/-- **Rounding the mantissa rounds to a nearest point**, if it has all its bits or the exponent is
the least one. -/
theorem nearest_of_halfEven {s : ℚ} {r : Nat} {e : Int} (hr : HalfEven s r) (hs : s < 2 ^ 53)
    (he : -1074 ≤ e) (hf : 2 ^ 52 ≤ s ∨ e = -1074) :
    Nearest (s * 2 ^ e) (carry r e).1 (carry r e).2 := by
  have hw := abs_le.mp hr.within
  have hle : r ≤ 2 ^ 53 := hr.le_of_lt (by exact_mod_cast hs)
  have hge : 2 ^ 52 ≤ r ∨ e = -1074 := by
    rcases hf with hf | hf
    · have : (2 : ℚ) ^ 52 < r + 1 := by linarith
      exact .inl (Nat.le_of_lt_succ (by exact_mod_cast this))
    · exact .inr hf
  have hpoint : point (carry r e).1 (carry r e).2 = point r e := by
    unfold carry
    split
    · rfl
    · have hr : r = 2 ^ 53 := by omega
      have := point_shift (2 ^ 52) e 1
      rw [Int.natCast_one] at this
      rw [hr, this]
      rfl
  have hparity : r % 2 = 0 → (carry r e).1 % 2 = 0 := by
    unfold carry
    split
    · exact id
    · exact fun _ => by norm_num
  have hcanonical : Canonical (carry r e).1 (carry r e).2 := by
    unfold carry
    split
    · rename_i hlt
      exact ⟨hlt, he, hge⟩
    · exact ⟨by norm_num, by omega, .inl le_rfl⟩
  have key (m' : Nat) (e' : Int) (h' : Canonical m' e') :
      |point r e - s * 2 ^ e| ≤ |point m' e' - s * 2 ^ e| ∧
        (|point r e - s * 2 ^ e| = |point m' e' - s * 2 ^ e| →
          point m' e' = point r e ∨ r % 2 = 0) := by
    have hgrid (k : Nat) : |point r e - s * 2 ^ e| ≤ |point k e - s * 2 ^ e| ∧
        (|point r e - s * 2 ^ e| = |point k e - s * 2 ^ e| →
          point k e = point r e ∨ r % 2 = 0) := by
      by_cases hk : k = r
      · subst hk
        exact ⟨le_rfl, fun _ => .inl rfl⟩
      · rw [abs_point_sub, abs_point_sub]
        refine ⟨mul_le_mul_of_nonneg_right (hr.closest hk).1 (unit_pos e).le, fun h => ?_⟩
        exact .inr ((hr.closest hk).2 (mul_right_cancel₀ (unit_pos e).ne' h))
    rcases le_or_gt e e' with hle | hlt
    · obtain ⟨k, hk⟩ := exists_point_eq hle m'
      rw [hk]
      exact hgrid k
    · -- a point of a smaller exponent stands below `2 ^ 52`, and that one below the rational
      have hs' : (2 : ℚ) ^ 52 ≤ s := by
        rcases hf with hf | hf
        · exact hf
        · have := h'.least
          omega
      have hb := h'.point_lt_of_lt hlt
      have hq : point (2 ^ 52) e ≤ s * 2 ^ e := by
        rw [point]
        exact mul_le_mul_of_nonneg_right (by exact_mod_cast hs') (unit_pos e).le
      have hfar : |point (2 ^ 52) e - s * 2 ^ e| < |point m' e' - s * 2 ^ e| := by
        rw [abs_of_nonpos (by linarith), abs_of_neg (by linarith)]
        linarith
      have hnear := (hgrid (2 ^ 52)).1.trans_lt hfar
      exact ⟨hnear.le, fun h => absurd h hnear.ne⟩
  refine ⟨hcanonical, fun m' e' h' => ?_, fun m' e' h' h => ?_⟩
  · rw [hpoint]
    exact (key m' e' h').1
  · rw [hpoint] at h ⊢
    exact ((key m' e' h').2 h).imp id hparity

/-- **Within half a gap of a point it is nearest**; the ends of the interval belong to an even
mantissa. -/
theorem nearest_of_within {q : ℚ} {m : Nat} {e : Int} (hc : Canonical m e)
    (hlow : point m e - Canonical.gapBelow m e / 2 ≤ q) (hhigh : q ≤ point m e + 2 ^ e / 2)
    (hends : point m e - Canonical.gapBelow m e / 2 = q ∨ q = point m e + 2 ^ e / 2 →
      m % 2 = 0) : Nearest q m e := by
  have hg := Canonical.gapBelow_pos m e
  have hu := unit_pos e
  have key (m' : Nat) (e' : Int) (h' : Canonical m' e') :
      |point m e - q| ≤ |point m' e' - q| ∧
        (|point m e - q| = |point m' e' - q| → point m' e' = point m e ∨ m % 2 = 0) := by
    rcases lt_trichotomy (point m' e') (point m e) with hp | hp | hp
    · have hgap := hc.add_gapBelow_le h' hp
      have hfar : |point m' e' - q| = q - point m' e' := by
        rw [abs_of_nonpos (by linarith)]
        ring
      rw [hfar]
      constructor
      · exact abs_le.mpr ⟨by linarith, by linarith⟩
      · intro h
        rcases abs_cases (point m e - q) with ⟨ha, -⟩ | ⟨ha, -⟩
        · exact .inr (hends (.inl (by linarith)))
        · linarith
    · exact ⟨by rw [hp], fun _ => .inl hp⟩
    · have hgap := hc.add_unit_le h' hp
      have hfar : |point m' e' - q| = point m' e' - q := abs_of_nonneg (by linarith)
      rw [hfar]
      constructor
      · exact abs_le.mpr ⟨by linarith, by linarith⟩
      · intro h
        rcases abs_cases (point m e - q) with ⟨ha, -⟩ | ⟨ha, -⟩
        · linarith
        · exact .inr (hends (.inr (by linarith)))
  exact ⟨hc, fun m' e' h' => (key m' e' h').1, fun m' e' h' => (key m' e' h').2⟩

namespace Nearest

variable {q : ℚ} {m m' : Nat} {e e' : Int}

theorem not_lt (h : Nearest q m e) (h' : Nearest q m' e') : ¬ point m e < point m' e' := by
  intro hp
  have hd : |point m e - q| = |point m' e' - q| :=
    le_antisymm (h.closest _ _ h'.canonical) (h'.closest _ _ h.canonical)
  have hm : m % 2 = 0 := (h.even _ _ h'.canonical hd).resolve_left hp.ne'
  have hm' : m' % 2 = 0 := (h'.even _ _ h.canonical hd.symm).resolve_left hp.ne
  -- the next point is canonical with an odd mantissa, so it stands strictly between the two
  have hnext : Canonical (m + 1) e := by
    have := h.canonical.lt
    exact ⟨by omega, h.canonical.least, h.canonical.full.imp (Nat.le_succ_of_le) id⟩
  have hstep : point m e < point (m + 1) e := point_lt_point.mpr (Nat.lt_succ_self m)
  have hle : point (m + 1) e ≤ point m' e' := by
    rw [point_succ]
    exact h.canonical.add_unit_le h'.canonical hp
  have hne : point (m + 1) e ≠ point m' e' := by
    intro he
    have := (hnext.ext h'.canonical he).1
    omega
  have hlt : point (m + 1) e < point m' e' := lt_of_le_of_ne hle hne
  have hclose := h.closest _ _ hnext
  have hclose' := h'.closest _ _ hnext
  rcases abs_cases (point m e - q) with ⟨ha, hq⟩ | ⟨ha, hq⟩ <;>
    rcases abs_cases (point m' e' - q) with ⟨hb, hq'⟩ | ⟨hb, hq'⟩ <;>
    rcases abs_cases (point (m + 1) e - q) with ⟨hc, -⟩ | ⟨hc, -⟩ <;> linarith

/-- A rational that stands on the grid is its own nearest point. -/
theorem point_eq (h : Nearest q m e) (h' : Canonical m' e') (hq : point m' e' = q) :
    point m e = q := by
  have hclose := h.closest _ _ h'
  rw [hq, sub_self, abs_zero] at hclose
  exact sub_eq_zero.mp (abs_eq_zero.mp (le_antisymm hclose (abs_nonneg _)))

/-- **The nearest point is unique.** -/
theorem unique (h : Nearest q m e) (h' : Nearest q m' e') : m = m' ∧ e = e' :=
  h.canonical.ext h'.canonical
    (le_antisymm (le_of_not_gt (h'.not_lt h)) (le_of_not_gt (h.not_lt h')))

end Nearest

/-! ## Overflow -/

/-- The first magnitude that is too great for a double: half a unit above the greatest double. -/
def overflow : ℚ := point (2 ^ 54 - 1) 970

theorem canonical_greatest : Canonical (2 ^ 53 - 1) 971 := ⟨by decide, by decide, .inl (by decide)⟩

theorem Canonical.le_greatest {m : Nat} {e : Int} (h : Canonical m e) (he : e ≤ 971) :
    point m e ≤ point (2 ^ 53 - 1) 971 :=
  (point_le_point.mpr (Nat.le_sub_one_of_lt h.lt)).trans
    (mul_le_mul_of_nonneg_left (unit_le he) (Nat.cast_nonneg _))

theorem canonical_first : Canonical (2 ^ 52) 972 := ⟨by decide, by decide, .inl le_rfl⟩

/-- The bound stands in the middle between the greatest double and the next point, and more than
one away from both. -/
theorem exists_overflow_eq :
    ∃ u > 1, point (2 ^ 53 - 1) 971 = overflow - u ∧ point (2 ^ 52) 972 = overflow + u := by
  refine ⟨2 ^ (970 : Int), one_lt_zpow₀ one_lt_two (by decide), ?_, ?_⟩
  · rw [show (971 : Int) = 970 + (1 : Nat) from rfl, point_shift, eq_sub_iff_add_eq, ← point_succ]
    rfl
  · rw [show (972 : Int) = 970 + (2 : Nat) from rfl, point_shift, overflow, ← point_succ]
    rfl

namespace Nearest

variable {q : ℚ} {m : Nat} {e : Int}

/-- A point of a double is nearest to no rational from `overflow` on. -/
theorem lt_overflow (h : Nearest q m e) (he : e ≤ 971) : q < overflow := by
  obtain ⟨u, hu, hlast, hnext⟩ := exists_overflow_eq
  have hle := h.canonical.le_greatest he
  by_contra hq
  have hq := le_of_not_gt hq
  have hnear : |point m e - q| = q - point m e := by
    rw [abs_of_neg (by linarith)]
    ring
  have hclose := h.closest _ _ canonical_first
  rw [hnear, hnext] at hclose
  rcases eq_or_lt_of_le hq with rfl | hq
  · -- in the middle only the greatest double is as near as the next point, and it is odd
    have hd : |point m e - overflow| = |point (2 ^ 52) 972 - overflow| := by
      rw [hnear, hnext, abs_of_pos (by linarith)]
      rw [abs_of_pos (by linarith)] at hclose
      linarith
    rcases h.even _ _ canonical_first hd with hne | heven
    · linarith
    · have hp : point m e = point (2 ^ 53 - 1) 971 := by
        rw [hnear, hnext, abs_of_pos (by linarith)] at hd
        linarith
      rw [(h.canonical.ext canonical_greatest hp).1] at heven
      exact absurd heven (by decide)
  · rcases abs_cases (overflow + u - q) with ⟨ha, -⟩ | ⟨ha, -⟩ <;> linarith

/-- A point beyond the doubles is nearest to no rational below `overflow`. -/
theorem exponent_le (h : Nearest q m e) (hq : q < overflow) : e ≤ 971 := by
  obtain ⟨u, hu, hlast, hnext⟩ := exists_overflow_eq
  by_contra he
  have hge : point (2 ^ 52) 972 ≤ point m e := by
    by_contra hlt
    have hlt := lt_of_not_ge hlt
    have he' : e = 972 := by
      have := h.canonical.exponent_le canonical_first hlt.le
      omega
    rw [he', point_lt_point] at hlt
    rcases h.canonical.full with hm | hm
    · omega
    · omega
  have hclose := h.closest _ _ canonical_greatest
  rw [abs_of_nonneg (by linarith), hlast] at hclose
  rcases abs_cases (overflow - u - q) with ⟨ha, -⟩ | ⟨ha, -⟩ <;> linarith

end Nearest

end Abacus.Double
