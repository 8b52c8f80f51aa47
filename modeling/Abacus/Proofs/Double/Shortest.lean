import Abacus.Decimal.Shortest
import Abacus.Proofs.Double.Reading

/-!
# The shortest decimal reads back

The interval in which the search for few digits takes place is the interval of the rationals to
which the double is nearest. Whatever the search finds in it reads back to the double.

* `Readings.ofExact`: that interval, in units small enough for its ends to be naturals. The ends
  belong to it if the mantissa is even.
* `quartersBelow`: the interval reaches down half as far at a power of two, where the doubles below
  stand twice as close.
* `coarsest`: the search, from coarse grids to fine ones. The finest holds the value itself, so it
  always ends.

Results:
* `Readings.exists_contains_of_coarsest`: the search ends inside the interval.
* `Decimal.shortest_rounds`: the double is the correct rounding of its shortest decimal.
* `Decimal.toFloat_shortest`: so its shortest decimal reads back to it.

That nothing shorter would read back is `Proofs/Double/Fewest`.
-/

namespace Abacus

theorem cast_natPow (a n : Nat) : ((Nat.pow a n : Nat) : ℚ) = (a : ℚ) ^ n := Nat.cast_pow a n

/-! ## The search -/

namespace Readings

/-- A grid point that is hit lies inside the interval. -/
theorem contains_of_hit? {r : Readings} {tie : Tie} {grid d : Nat} (h : r.hit? tie grid = some d) :
    r.contains (d * grid) = true := by
  unfold hit? at h
  dsimp only at h
  split at h
  · rename_i hbelow habove
    cases h
    unfold roundDiv
    dsimp only
    split
    · exact hbelow
    · exact habove
    · exact habove
    · rcases Nat.mod_two_eq_zero_or_one (r.value / grid) with hp | hp
      · rw [hp]
        exact hbelow
      · rw [hp]
        exact habove
  · rename_i hbelow _
    cases h
    exact hbelow
  · rename_i _ habove
    cases h
    exact habove
  · cases h

/-- **The search ends inside the interval**, since the finest grid holds the value. -/
theorem exists_contains_of_coarsest {r : Readings} (tie : Tie) (h : r.contains r.value = true)
    (s : Nat) :
    ∃ n, r.contains n = true ∧ (r.coarsest tie s).value = n * 10 ^ r.exponent := by
  induction s with
  | zero => exact ⟨r.value, h, rfl⟩
  | succ s ih =>
    unfold coarsest
    split
    · rename_i d hd
      refine ⟨_, contains_of_hit? hd, ?_⟩
      have hten : (10 : ℚ) ≠ 0 := by norm_num
      unfold Decimal.value
      rw [zpow_add₀ hten, zpow_natCast, Nat.cast_mul, cast_natPow]
      push_cast
      ring
    · exact ih

/-- A multiple inside the interval is not beyond its ends, and at an end only if that belongs to
the interval. -/
theorem contains_iff {r : Readings} {n : Nat} (hlt : r.low < r.high) :
    r.contains n = true ↔
      r.low ≤ n ∧ n ≤ r.high ∧ (n = r.low ∨ n = r.high → r.closed = true) := by
  unfold contains
  cases r.closed <;> simp <;> omega

end Readings

/-! ## The interval of a double -/

namespace Double

/-- The unit of the interval, a quarter of the unit of the double. -/
theorem readings_unit (q : Int) :
    ((Nat.pow 2 q.toNat * Nat.pow 5 (-q).toNat : Nat) : ℚ) * 10 ^ min q 0 = 2 ^ q := by
  rw [Nat.cast_mul, cast_natPow, cast_natPow, Nat.cast_ofNat, Nat.cast_ofNat]
  rcases le_total 0 q with hq | hq
  · lift q to Nat using hq
    rw [min_eq_right (by omega), zpow_zero, mul_one, Int.toNat_natCast, zpow_natCast,
      show (-(q : Int)).toNat = 0 by omega, pow_zero, mul_one]
  · obtain ⟨k, rfl⟩ : ∃ k : Nat, q = -k := ⟨(-q).toNat, by omega⟩
    have hten : (10 : ℚ) ^ k = 2 ^ k * 5 ^ k := by rw [← mul_pow]; norm_num
    rw [min_eq_left hq, neg_neg, Int.toNat_natCast, show (-(k : Int)).toNat = 0 by omega, pow_zero,
      one_mul, zpow_neg, zpow_neg, zpow_natCast, zpow_natCast, hten]
    field_simp

variable {m : Nat} {e : Int} {sign : Bool}

/-- How many quarters of a unit the interval reaches down. -/
def quartersBelow (m : Nat) (e : Int) : Nat := if m = 2 ^ 52 ∧ -1074 < e then 1 else 2

theorem quartersBelow_le (m : Nat) (e : Int) : quartersBelow m e ≤ 2 := by
  unfold quartersBelow
  split <;> decide

theorem ofExact_low (m : Nat) (e : Int) (sign : Bool) :
    (Readings.ofExact ⟨sign, m, e⟩).low =
      (4 * m - quartersBelow m e) * (Nat.pow 2 (e - 2).toNat * Nat.pow 5 (-(e - 2)).toNat) := by
  unfold Readings.ofExact quartersBelow
  by_cases h : m = 2 ^ 52 ∧ -1074 < e
  · have hb : (m == Nat.pow 2 52 && decide (-1074 < e)) = true := by
      rw [Bool.and_eq_true, beq_iff_eq, decide_eq_true_eq]
      exact h
    simp only [hb, if_pos h, if_true]
  · have hb : ¬ (m == Nat.pow 2 52 && decide (-1074 < e)) = true := by
      rw [Bool.and_eq_true, beq_iff_eq, decide_eq_true_eq]
      exact h
    simp only [if_neg hb, if_neg h]

/-- Half of the gap below is as many quarters of the unit. -/
theorem gapBelow_eq (m : Nat) (e : Int) :
    Canonical.gapBelow m e / 2 = quartersBelow m e * 2 ^ (e - 2) := by
  have h₁ : (2 : ℚ) ^ (e - 1) = 2 * 2 ^ (e - 2) := by
    rw [show e - 1 = e - 2 + 1 by omega, unit_succ]
  have h₂ : (2 : ℚ) ^ e = 2 * 2 ^ (e - 1) := by
    rw [← unit_succ, Int.sub_add_cancel]
  unfold Canonical.gapBelow quartersBelow
  split
  · rw [h₁]
    push_cast
    ring
  · rw [h₂, h₁]
    push_cast
    ring

/-- The ends of the interval and the double in it. -/
theorem ofExact_spec (hm : m ≠ 0) :
    ((Readings.ofExact ⟨sign, m, e⟩).low : ℚ) * 10 ^ (Readings.ofExact ⟨sign, m, e⟩).exponent =
        point m e - Canonical.gapBelow m e / 2 ∧
      ((Readings.ofExact ⟨sign, m, e⟩).high : ℚ) * 10 ^ (Readings.ofExact ⟨sign, m, e⟩).exponent =
        point m e + 2 ^ e / 2 := by
  have hunit := readings_unit (e - 2)
  have hquarter : (2 : ℚ) ^ e = 4 * 2 ^ (e - 2) := by
    have h := point_shift 1 (e - 2) 2
    rw [show e - 2 + ((2 : Nat) : Int) = e by omega] at h
    simp only [point] at h
    push_cast at h
    linarith
  have hle : quartersBelow m e ≤ 4 * m := (quartersBelow_le m e).trans (by omega)
  constructor
  · rw [ofExact_low, gapBelow_eq, Nat.cast_mul, mul_assoc]
    change _ * (_ * 10 ^ min (e - 2) 0) = _
    rw [hunit, Nat.cast_sub hle, point, hquarter]
    push_cast
    ring
  · change (((4 * m + 2) * (Nat.pow 2 (e - 2).toNat * Nat.pow 5 (-(e - 2)).toNat) : Nat) : ℚ) *
      10 ^ min (e - 2) 0 = _
    rw [Nat.cast_mul, mul_assoc, hunit, point, hquarter]
    push_cast
    ring

theorem ofExact_lt (hm : m ≠ 0) :
    (Readings.ofExact ⟨sign, m, e⟩).low < (Readings.ofExact ⟨sign, m, e⟩).value ∧
      (Readings.ofExact ⟨sign, m, e⟩).value < (Readings.ofExact ⟨sign, m, e⟩).high := by
  have hpos : 0 < Nat.pow 2 (e - 2).toNat * Nat.pow 5 (-(e - 2)).toNat :=
    Nat.mul_pos (Nat.pow_pos (by decide)) (Nat.pow_pos (by decide))
  have hquarters : 0 < quartersBelow m e := by
    unfold quartersBelow
    split <;> decide
  rw [ofExact_low]
  have hlow : 4 * m - quartersBelow m e < 4 * m := by omega
  have hhigh : 4 * m < 4 * m + 2 := by omega
  exact ⟨Nat.mul_lt_mul_of_pos_right hlow hpos, Nat.mul_lt_mul_of_pos_right hhigh hpos⟩

theorem contains_value (hm : m ≠ 0) :
    (Readings.ofExact ⟨sign, m, e⟩).contains (Readings.ofExact ⟨sign, m, e⟩).value = true := by
  obtain ⟨hlow, hhigh⟩ := @ofExact_lt m e sign hm
  exact (Readings.contains_iff (hlow.trans hhigh)).mpr ⟨hlow.le, hhigh.le, fun h => by omega⟩

/-- **What is inside the interval has the double as its nearest.** -/
theorem nearest_of_contains (h : Canonical m e) (hm : m ≠ 0) {n : Nat}
    (hn : (Readings.ofExact ⟨sign, m, e⟩).contains n = true) :
    Nearest (n * 10 ^ (Readings.ofExact ⟨sign, m, e⟩).exponent) m e := by
  obtain ⟨hlow, hhigh⟩ := @ofExact_lt m e sign hm
  obtain ⟨hle, hge, hends⟩ := (Readings.contains_iff (hlow.trans hhigh)).mp hn
  obtain ⟨hl, hh⟩ := @ofExact_spec m e sign hm
  have hclosed : (Readings.ofExact ⟨sign, m, e⟩).closed = true → m % 2 = 0 := beq_iff_eq.mp
  generalize Readings.ofExact ⟨sign, m, e⟩ = r at *
  have hten : (0 : ℚ) < 10 ^ r.exponent := by positivity
  refine nearest_of_within h ?_ ?_ fun hx => hclosed (hends ?_)
  · rw [← hl]
    exact mul_le_mul_of_nonneg_right (by exact_mod_cast hle) hten.le
  · rw [← hh]
    exact mul_le_mul_of_nonneg_right (by exact_mod_cast hge) hten.le
  · rw [← hl, ← hh] at hx
    rcases hx with hx | hx
    · exact .inl (by exact_mod_cast (mul_right_cancel₀ hten.ne' hx).symm)
    · exact .inr (by exact_mod_cast mul_right_cancel₀ hten.ne' hx)

end Double

/-- **The shortest decimal of a double reads back to it.** -/
theorem Decimal.shortest_rounds (tie : Tie) {x : Float} {v : Exact} (hx : Exact.of? x = some v)
    (hs : v.negative = false) : Double.Rounds (Decimal.shortest tie v).value x := by
  obtain ⟨m, e, hc, he, rfl⟩ := Double.exists_ofPoint_positive hx hs
  rw [Double.exact_ofPoint .positive hc he] at hx
  cases hx
  unfold Decimal.shortest
  by_cases hm : m = 0
  · rw [if_pos hm]
    have hz : Decimal.value ⟨0, 0⟩ = 0 := by simp [Decimal.value]
    have he : e = -1074 := by
      have := hc.full
      omega
    rw [hz, hm, he]
    exact Double.rounds_ofPoint le_rfl Double.nearest_zero
  · simp only [if_neg hm]
    obtain ⟨n, hn, hv⟩ := Readings.exists_contains_of_coarsest tie
      (Double.contains_value hm) _
    rw [hv]
    exact Double.rounds_ofPoint (by positivity) (Double.nearest_of_contains hc hm hn)

/-- Reading the shortest decimal of a double gives the double. -/
theorem Decimal.toFloat_shortest (tie : Tie) {x : Float} {v : Exact} (hx : Exact.of? x = some v)
    (hs : v.negative = false) : (Decimal.shortest tie v).toFloat = x :=
  (Decimal.toFloat_rounds _).unique (Decimal.shortest_rounds tie hx hs) (Decimal.value_nonneg _)

end Abacus
