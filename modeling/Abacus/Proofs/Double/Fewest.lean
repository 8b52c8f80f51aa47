import Abacus.Proofs.Double.Places

/-!
# No coarser decimal reads back

The search for few digits goes from coarse grids to fine ones, and on each it tests the two points
next to the double. The interval of the readings has no holes, so if any point of a grid lies
inside, one of those two does. The search therefore ends on the coarsest grid that meets the
interval.

* `Readings.Sound`: the double lies inside the interval, which keeps away from zero and from twice
  the double.
* A grid is the multiples of a power of ten. A decimal on a coarser grid has fewer digits, or ends
  in zeros that could be left off.

`Proofs/Double/Shortest` shows that what is found reads back. Here the converse is shown: whatever
reads back lies in the interval, so nothing coarser was missed.

Results:
* `Readings.exists_hit?`: no grid that meets the interval is passed over.
* `Nearest.contains`: everything that rounds to the double lies in the interval.
* `Decimal.exponent_le_shortest`: no decimal that reads back to the double is coarser.
* `Decimal.digits_shortest`: the last digit is not zero.

Which of two decimals on the coarsest grid is taken depends on the tie rule and is not looked at.
-/

namespace Abacus

/-! ## The search -/

namespace Readings

/-- The double lies inside the interval, and the interval keeps away from zero and from twice the
double. -/
structure Sound (r : Readings) : Prop where
  pos : 0 < r.low
  low_lt : r.low < r.value
  lt_high : r.value < r.high
  high_le : r.high ≤ 2 * r.value

variable {r : Readings} {n k t s grid : Nat} {tie : Tie}

namespace Sound

theorem contains_of_le_value (h : r.Sound) (hn : r.contains n = true) (hle : n ≤ k)
    (hk : k ≤ r.value) : r.contains k = true := by
  have hlt := h.low_lt
  have hgt := h.lt_high
  obtain ⟨hlow, -, hends⟩ := (contains_iff (hlt.trans hgt)).mp hn
  exact (contains_iff (hlt.trans hgt)).mpr ⟨hlow.trans hle, by omega, fun hk' =>
    hends (.inl (by omega))⟩

theorem contains_of_value_le (h : r.Sound) (hn : r.contains n = true) (hle : k ≤ n)
    (hk : r.value ≤ k) : r.contains k = true := by
  have hlt := h.low_lt
  have hgt := h.lt_high
  obtain ⟨-, hhigh, hends⟩ := (contains_iff (hlt.trans hgt)).mp hn
  exact (contains_iff (hlt.trans hgt)).mpr ⟨by omega, hle.trans hhigh, fun hk' =>
    hends (.inr (by omega))⟩

/-- **A grid that meets the interval is hit**, since one of the two points next to the double lies
between it and any point inside. -/
theorem exists_hit? (h : r.Sound) (tie : Tie) (hgrid : 0 < grid)
    (hk : r.contains (k * grid) = true) : ∃ d, r.hit? tie grid = some d := by
  have hbelow : r.value / grid * grid ≤ r.value := Nat.div_mul_le_self _ _
  have habove : r.value < (r.value / grid + 1) * grid := by
    rw [← Nat.div_lt_iff_lt_mul hgrid]
    exact Nat.lt_succ_self _
  have hnext : r.contains (r.value / grid * grid) = true ∨
      r.contains ((r.value / grid + 1) * grid) = true := by
    rcases Nat.lt_or_ge (r.value / grid) k with hlt | hge
    · exact .inr (h.contains_of_value_le hk (Nat.mul_le_mul_right grid hlt) habove.le)
    · exact .inl (h.contains_of_le_value hk (Nat.mul_le_mul_right grid hge) hbelow)
  unfold hit?
  dsimp only
  split
  · exact ⟨_, rfl⟩
  · exact ⟨_, rfl⟩
  · exact ⟨_, rfl⟩
  · rename_i hno hno'
    rw [hno, hno'] at hnext
    simp at hnext

/-- No grid coarser than the number of digits of the double meets the interval. -/
theorem le_length_repr (h : r.Sound) (hk : r.contains (k * 10 ^ t) = true) :
    t ≤ r.value.repr.length := by
  obtain ⟨hlow, hhigh, -⟩ := (contains_iff (h.low_lt.trans h.lt_high)).mp hk
  have hpos : 0 < k * 10 ^ t := h.pos.trans_le hlow
  have hle : 10 ^ t ≤ k * 10 ^ t := Nat.le_mul_of_pos_left _ (Nat.pos_of_mul_pos_right hpos)
  have hdigits : r.value < 10 ^ r.value.repr.length :=
    (Nat.length_repr_le_iff Nat.length_repr_pos).mp le_rfl
  have htwice := h.high_le
  by_contra hlt
  have hpow : 10 ^ (r.value.repr.length + 1) ≤ 10 ^ t :=
    Nat.pow_le_pow_right (by decide) (Nat.lt_of_not_le hlt)
  rw [Nat.pow_succ] at hpow
  omega

/-- **The search ends on no finer grid** than one that meets the interval. -/
theorem le_exponent_coarsest (h : r.Sound) (hk : r.contains (k * 10 ^ t) = true) (ht : t ≤ s) :
    r.exponent + t ≤ (r.coarsest tie s).exponent := by
  induction s with
  | zero =>
    obtain rfl := Nat.le_zero.mp ht
    exact (add_zero _).le
  | succ s ih =>
    unfold coarsest
    split
    · dsimp only
      omega
    · rename_i hnone
      refine ih (Nat.le_of_lt_succ (lt_of_le_of_ne ht ?_))
      rintro rfl
      obtain ⟨d, hd⟩ := h.exists_hit? tie (Nat.pow_pos (by decide)) hk
      exact absurd (hd.symm.trans hnone) (by simp)

/-- **The last digit is not zero**, for otherwise the next coarser grid would have been hit. -/
theorem digits_coarsest (h : r.Sound) (hs : ∀ k, r.contains (k * 10 ^ (s + 1)) = false) :
    (r.coarsest tie s).digits % 10 ≠ 0 := by
  induction s with
  | zero =>
    intro hzero
    have hvalue : r.value / 10 * 10 ^ (0 + 1) = r.value :=
      Nat.div_mul_cancel (Nat.dvd_of_mod_eq_zero hzero)
    have hlt := h.low_lt
    have hgt := h.lt_high
    have hin : r.contains r.value = true :=
      (contains_iff (hlt.trans hgt)).mpr ⟨hlt.le, hgt.le, by omega⟩
    rw [← hvalue, hs] at hin
    cases hin
  | succ s ih =>
    unfold coarsest
    split
    · rename_i d hd
      intro hzero
      have hin := contains_of_hit? hd
      have hnext : d / 10 * 10 ^ (s + 1 + 1) = d * Nat.pow 10 (s + 1) := by
        have hd10 : d / 10 * 10 = d := Nat.div_mul_cancel (Nat.dvd_of_mod_eq_zero hzero)
        have hpow : Nat.pow 10 (s + 1) = 10 ^ (s + 1) := rfl
        rw [hpow, Nat.pow_succ', ← Nat.mul_assoc, hd10]
      rw [← hnext, hs] at hin
      cases hin
    · rename_i hnone
      refine ih fun k => Bool.eq_false_iff.mpr fun hk => ?_
      obtain ⟨d, hd⟩ := h.exists_hit? tie (Nat.pow_pos (by decide)) hk
      exact absurd (hd.symm.trans hnone) (by simp)

end Sound

/-- The search does not end below the finest grid. -/
theorem exponent_le_coarsest (r : Readings) (tie : Tie) (s : Nat) :
    r.exponent ≤ (r.coarsest tie s).exponent := by
  induction s with
  | zero => exact le_rfl
  | succ s ih =>
    unfold coarsest
    split
    · dsimp only
      omega
    · exact ih

end Readings

/-! ## The interval of a double -/

namespace Double

variable {q : ℚ} {m n : Nat} {e : Int}

theorem ofExact_sound (hm : m ≠ 0) (sign : Bool) (e : Int) :
    (Readings.ofExact ⟨sign, m, e⟩).Sound := by
  obtain ⟨hlow, hhigh⟩ := @ofExact_lt m e sign hm
  have hunit : 0 < Nat.pow 2 (e - 2).toNat * Nat.pow 5 (-(e - 2)).toNat :=
    Nat.mul_pos (Nat.pow_pos (by decide)) (Nat.pow_pos (by decide))
  refine ⟨?_, hlow, hhigh, ?_⟩
  · have := quartersBelow_le m e
    rw [ofExact_low]
    exact Nat.mul_pos (by omega) hunit
  · have hle : 4 * m + 2 ≤ 2 * (4 * m) := by omega
    exact (Nat.mul_le_mul_right _ hle).trans_eq (Nat.mul_assoc _ _ _)

/-- The point before a canonical one, if there is one, stands at the end of the gap below. -/
theorem Canonical.exists_gapBelow (h : Canonical m e) (hm : m ≠ 0) :
    ∃ m' e', Canonical m' e' ∧ point m' e' = point m e - Canonical.gapBelow m e := by
  by_cases hnarrow : m = 2 ^ 52 ∧ -1074 < e
  · obtain ⟨rfl, he⟩ := hnarrow
    refine ⟨2 ^ 53 - 1, e - 1, ⟨by decide, by omega, .inl (by decide)⟩, ?_⟩
    have hsucc : point (2 ^ 53) (e - 1) = point (2 ^ 53 - 1) (e - 1) + 2 ^ (e - 1) :=
      point_succ (2 ^ 53 - 1) (e - 1)
    have hshift := point_shift (2 ^ 52) (e - 1) 1
    rw [Int.natCast_one, Int.sub_add_cancel] at hshift
    rw [Canonical.gapBelow, if_pos ⟨rfl, he⟩, hshift]
    exact eq_sub_of_add_eq hsucc.symm
  · rw [Canonical.gapBelow, if_neg hnarrow]
    exact h.exists_below hm

/-- **What rounds to a point lies within half a gap of it**, and at the end of that interval only if
the mantissa is even. -/
theorem Nearest.within_gap (h : Nearest q m e) (hm : m ≠ 0) :
    (point m e - Canonical.gapBelow m e / 2 ≤ q ∧ q ≤ point m e + 2 ^ e / 2) ∧
      (q = point m e - Canonical.gapBelow m e / 2 ∨ q = point m e + 2 ^ e / 2 → m % 2 = 0) := by
  have hgap := Canonical.gapBelow_pos m e
  have hunit := unit_pos e
  obtain ⟨m₁, e₁, hc₁, hp₁⟩ := h.canonical.exists_gapBelow hm
  obtain ⟨m₂, e₂, hc₂, hp₂⟩ := h.canonical.exists_above
  have hbelow := h.closest _ _ hc₁
  have habove := h.closest _ _ hc₂
  rw [hp₁] at hbelow
  rw [hp₂] at habove
  refine ⟨⟨?_, ?_⟩, ?_⟩
  · rcases abs_cases (point m e - q) with ⟨ha, hs⟩ | ⟨ha, hs⟩ <;>
      rcases abs_cases (point m e - Canonical.gapBelow m e - q) with ⟨hb, hs'⟩ | ⟨hb, hs'⟩ <;>
      linarith
  · rcases abs_cases (point m e - q) with ⟨ha, hs⟩ | ⟨ha, hs⟩ <;>
      rcases abs_cases (point m e + 2 ^ e - q) with ⟨hb, hs'⟩ | ⟨hb, hs'⟩ <;> linarith
  · rintro (rfl | rfl)
    · refine (h.even _ _ hc₁ ?_).resolve_left fun heq => by linarith
      rw [hp₁, abs_of_pos (by linarith), abs_of_neg (by linarith)]
      ring
    · refine (h.even _ _ hc₂ ?_).resolve_left fun heq => by linarith
      rw [hp₂, abs_of_neg (by linarith), abs_of_pos (by linarith)]
      ring

/-- **The interval holds whatever rounds to the double.** -/
theorem Nearest.contains (hm : m ≠ 0) {sign : Bool}
    (h : Nearest (n * 10 ^ (Readings.ofExact ⟨sign, m, e⟩).exponent) m e) :
    (Readings.ofExact ⟨sign, m, e⟩).contains n = true := by
  obtain ⟨hlow, hhigh⟩ := @ofExact_lt m e sign hm
  obtain ⟨hl, hh⟩ := @ofExact_spec m e sign hm
  obtain ⟨⟨hle, hge⟩, hends⟩ := h.within_gap hm
  have hclosed : m % 2 = 0 → (Readings.ofExact ⟨sign, m, e⟩).closed = true := beq_iff_eq.mpr
  rw [Readings.contains_iff (hlow.trans hhigh)]
  generalize Readings.ofExact ⟨sign, m, e⟩ = r at *
  have hten : (0 : ℚ) < 10 ^ r.exponent := by positivity
  rw [← hl] at hle hends
  rw [← hh] at hge hends
  refine ⟨by exact_mod_cast le_of_mul_le_mul_right hle hten,
    by exact_mod_cast le_of_mul_le_mul_right hge hten, fun hn => hclosed (hends ?_)⟩
  exact hn.imp (fun hn => by rw [hn]) fun hn => by rw [hn]

end Double

/-! ## The shortest decimal -/

namespace Decimal

open Double

variable {m : Nat} {e : Int}

/-- **No decimal that reads back to a double is coarser than its shortest decimal.** -/
theorem exponent_le_shortest (tie : Tie) (sign : Bool) (hm : m ≠ 0) {d : Decimal}
    (h : Nearest d.value m e) : d.exponent ≤ (shortest tie ⟨sign, m, e⟩).exponent := by
  unfold shortest
  simp only [if_neg hm]
  have hsound := ofExact_sound hm sign e
  obtain hle | hlt := le_or_gt d.exponent (Readings.ofExact ⟨sign, m, e⟩).exponent
  · exact hle.trans (Readings.exponent_le_coarsest _ tie _)
  · obtain ⟨t, ht⟩ := Int.le.dest hlt.le
    have hvalue : d.value =
        (d.digits * 10 ^ t : Nat) * 10 ^ (Readings.ofExact ⟨sign, m, e⟩).exponent := by
      rw [value, ← ht, zpow_add₀ (by norm_num), zpow_natCast]
      push_cast
      ring
    rw [hvalue] at h
    have hin := h.contains hm
    rw [← ht]
    exact hsound.le_exponent_coarsest hin (hsound.le_length_repr hin)

/-- **The shortest decimal does not end in zero.** -/
theorem digits_shortest (tie : Tie) (sign : Bool) (hm : m ≠ 0) (e : Int) :
    (shortest tie ⟨sign, m, e⟩).digits % 10 ≠ 0 := by
  unfold shortest
  simp only [if_neg hm]
  have hsound := ofExact_sound hm sign e
  refine hsound.digits_coarsest fun k => Bool.eq_false_iff.mpr fun hk => ?_
  exact absurd (hsound.le_length_repr hk) (Nat.not_succ_le_self _)

/-- Zero has one shortest decimal. -/
theorem exponent_of_digits_zero (tie : Tie) (v : Exact) (h : (shortest tie v).digits = 0) :
    (shortest tie v).exponent = 0 := by
  obtain ⟨sign, m, e⟩ := v
  by_cases hm : m = 0
  · unfold shortest
    rw [if_pos hm]
  · exact absurd (congrArg (· % 10) h) (digits_shortest tie sign hm e)

end Decimal

end Abacus
