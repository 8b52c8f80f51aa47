import Mathlib.Data.Nat.Prime.Basic
import Mathlib.Tactic.LinearCombination
import Abacus.Proofs.Display
import Abacus.Proofs.Double.Arithmetic

/-!
# The form of a displayed number

Which texts `Keypad.shown?` can have, and for which values. The display rounds a value to its
decimals, reads the result as a double and shows the shortest decimal of that double. The rounded
decimal is read as the same double, so the shortest one is not finer: it has no more places than the
display.

Zero is the one value whose sign is not shown. What is rounded to zero is decided by the rounding to
decimals alone, since no decimal of ten places is so small that it is read as zero; and half of the
last place is no double, so there is no tie at this point.

* `exists_rounded_zero_iff`: which values are rounded to zero.
* `concise_rounded`: the digits of all others, in the form `Concise` of `Proofs/Decimal/Form`.
* `shown_form`: when a number is shown, and in which form.

That the digits that are shown are the right ones is not said here but by `Proofs/Keypad`, where
they are entered again.
-/

namespace Abacus.Keypad

open Float.Model.UnpackedFloat Double

variable {v : Exact} {x : Float} {m r : Nat} {e : Int}

/-! ## Zero -/

/-- No double stands in the middle between zero and the last decimal of the display: five does not
divide a power of two. -/
theorem point_ne_half (m : Nat) (e : Int) : point m e * 10 ^ places ≠ 1 / 2 := by
  intro h
  have hone : (m * 5 ^ 10 : Nat) * (2 : ℚ) ^ (e + 11) = 1 := by
    have hten : (10 : ℚ) ^ places = 5 ^ 10 * 2 ^ 10 := by norm_num [places]
    rw [point, hten] at h
    have heleven : (2 : ℚ) ^ (11 : Int) = 2 ^ 10 * 2 := by norm_num
    rw [zpow_add₀ two_ne_zero, heleven]
    push_cast
    linear_combination 2 * h
  have hfive : 5 ∣ m * 5 ^ 10 := Dvd.dvd.mul_left (by decide) m
  rcases Int.le_total 0 (e + 11) with he | he
  · obtain ⟨k, hk⟩ := Int.eq_ofNat_of_zero_le he
    rw [hk, zpow_natCast] at hone
    have hnat : m * 5 ^ 10 * 2 ^ k = 1 := by exact_mod_cast hone
    exact absurd (hnat ▸ hfive.mul_right (2 ^ k)) (by decide)
  · obtain ⟨k, hk⟩ := Int.eq_ofNat_of_zero_le (Int.neg_nonneg_of_nonpos he)
    have hpow : (2 : ℚ) ^ (e + 11) * 2 ^ k = 1 := by
      have hexp : e + 11 + (k : Int) = 0 := by omega
      rw [← zpow_natCast, ← zpow_add₀ two_ne_zero, hexp, zpow_zero]
    have hnat : m * 5 ^ 10 = 2 ^ k := by
      have : ((m * 5 ^ 10 : Nat) : ℚ) = 2 ^ k := by linear_combination 2 ^ k * hone - _ * hpow
      exact_mod_cast this
    exact absurd (Nat.prime_five.dvd_of_dvd_pow (hnat ▸ hfive)) (by decide)

/-- A decimal of the display is read as zero only if it is zero. -/
theorem eq_zero_iff_of_nearest (h : Nearest (r / 10 ^ places) m e) : m = 0 ↔ r = 0 := by
  constructor
  · rintro rfl
    have he : e = -1074 := h.canonical.full.resolve_left (by decide)
    have hwithin := h.within (by positivity)
    rw [point_zero, zero_sub, abs_neg, abs_of_nonneg (by positivity), he,
      div_le_iff₀ (by positivity)] at hwithin
    have hsmall : (2 : ℚ) ^ (-1074 : Int) / 2 * 10 ^ places < 1 := by
      have := unit_le (show (-1074 : Int) ≤ -34 by decide)
      have hlast : (2 : ℚ) ^ (-34 : Int) / 2 * 10 ^ places < 1 := by norm_num [places]
      refine lt_of_le_of_lt ?_ hlast
      gcongr
    have hr : (r : ℚ) < 1 := hwithin.trans_lt hsmall
    exact Nat.lt_one_iff.mp (by exact_mod_cast hr)
  · rintro rfl
    rw [Nat.cast_zero, zero_div] at h
    exact (h.unique nearest_zero).1

/-- The rounded double is zero exactly below half of the last decimal. -/
theorem exists_rounded_zero_iff (hx : Exact.of? x = some v) :
    ∃ (r m : Nat) (e : Int), Nearest (r / 10 ^ places) m e ∧ e ≤ 971 ∧
      rounded v = ofPoint (sign v) m e ∧ (m = 0 ↔ |value v| < 5 / 10 ^ 11) := by
  obtain ⟨r, m, e, hr, hn, he, hv⟩ := exists_rounded hx
  refine ⟨r, m, e, hn, he, hv, ?_⟩
  rw [eq_zero_iff_of_nearest hn, hr.eq_zero_iff (point_ne_half _ _), abs_value, places,
    ← lt_div_iff₀ (by positivity)]
  norm_num

/-! ## Digits -/

/-- **The digits that stand for a decimal of the display** have no more places than the display. -/
theorem concise_rounded (h : Nearest (r / 10 ^ places) m e) (he : e ≤ 971) (hm : m ≠ 0) :
    Concise places (plain.write (ofPoint .positive m e)) := by
  have hvalue : (⟨r, -(places : Nat)⟩ : Decimal).value = r / 10 ^ places := Decimal.value_neg _ _
  unfold Layout.write
  rw [exact_ofPoint .positive h.canonical he]
  dsimp only
  rw [if_neg hm, if_neg (by decide)]
  exact Decimal.concise_positional (Decimal.digits_shortest .up _ hm e)
    (Decimal.exponent_le_shortest .up _ hm (hvalue ▸ h))

/-- A single zero is written for zero only. -/
theorem write_ne_zero (h : Canonical m e) (he : e ≤ 971) (hm : m ≠ 0) :
    plain.write (ofPoint .positive m e) ≠ ['0'] := by
  intro hzero
  obtain ⟨-, -, -, hread⟩ := plain_reads (isFinite_ofPoint .positive h he) (unsigned_ofPoint h he)
  have hread' : (Decimal.read? ['0']).map Decimal.toFloat = some 0 := by with_unfolding_all rfl
  rw [hzero, hread'] at hread
  have hstands := stands_iff.mpr ⟨.positive, m, e, h, he, Option.some.inj hread, rfl⟩
  exact hm ((signed_point_eq_zero_iff .positive).mp (hstands.unique stands_zero))

/-- **The form of a displayed number.** A number is shown iff it is finite. It is shown as zero iff
it is nearer to zero than half of the last of ten decimals. Every other number is shown by its
digits, with a minus sign in front iff it is negative: an integer part without superfluous zeros,
and perhaps a point and one to ten digits that do not end in zero. -/
theorem shown_form (x : Float) :
    (shown? x = none ↔ x.isFinite = false) ∧
      ∀ a, Stands x a → ∃ d, shown? x = some d ∧ d ≠ "-0" ∧
        (d = "0" ↔ |a| < 5 / 10 ^ 11) ∧
        (d ≠ "0" → ∃ cs, Concise 10 cs ∧ d.toList = if a < 0 then '-' :: cs else cs) := by
  refine ⟨?_, ?_⟩
  · rw [← Option.not_isSome_iff_eq_none, shown?_isSome_iff, Bool.not_eq_true]
  rintro a ⟨v, hx, rfl⟩
  obtain ⟨r, m, e, hn, he, hv, hzero⟩ := exists_rounded_zero_iff hx
  have hstands := stands_iff.mpr ⟨sign v, m, e, hn.canonical, he, hv, rfl⟩
  have hbeq := (hstands.beq_iff stands_zero).trans (signed_point_eq_zero_iff (sign v))
  rw [shown?, hx, Option.map_some]
  refine ⟨_, rfl, ?_⟩
  dsimp only
  by_cases hm : m = 0
  · rw [if_pos (hbeq.mpr hm)]
    exact ⟨by decide, iff_of_true rfl (hzero.mp hm), fun h => absurd rfl h⟩
  · have hlarge := hzero.not.mp hm
    have hne : value v ≠ 0 := fun h => hlarge (by rw [h, abs_zero]; norm_num)
    have hconcise := concise_rounded hn he hm
    have hsingle := write_ne_zero hn.canonical he hm
    have htext : (plain.text (rounded v)).toList =
        if value v < 0 then '-' :: plain.write (ofPoint .positive m e)
        else plain.write (ofPoint .positive m e) := by
      rw [Layout.text, String.toList_ofList, hv, sign]
      simp only [value_neg_iff, and_iff_left hne]
      split
      · exact plain.write_negative hn.canonical he
      · rfl
    rw [if_neg (hbeq.not.mpr hm)]
    refine ⟨fun h => ?_, iff_of_false (fun h => ?_) hlarge, fun _ => ⟨_, hconcise, htext⟩⟩
    · rw [h] at htext
      split at htext
      · exact hsingle (List.cons.inj htext).2.symm
      · exact hconcise.minus_not_mem (htext ▸ List.mem_cons_self)
    · rw [h] at htext
      split at htext
      · cases htext
      · exact hsingle htext.symm

/-- A third is shown with all ten places. A negative double is shown with its sign if it lies at
half of the last place, and as zero if it lies nearer to zero. -/
theorem shown_form_third :
    (Stands (-1 / 3) (-(6004799503160661 / 2 ^ 54)) ∧
      ∃ cs, Concise 10 cs ∧ "-0.3333333333".toList = '-' :: cs) ∧
    (Stands (-5e-11) (-(7737125245533627 / 2 ^ 87)) ∧ shown? (-5e-11) ≠ some "0") ∧
    (Stands (-4e-11) (-(6189700196426901 / 2 ^ 87)) ∧ shown? (-4e-11) = some "0") := by
  have third : Stands (-1 / 3) (-(6004799503160661 / 2 ^ 54)) := by
    have h : Exact.of? (-1 / 3) = some ⟨true, 6004799503160661, -54⟩ := by decide +kernel
    exact ⟨_, h, by norm_num [value, point]⟩
  have half : Stands (-5e-11) (-(7737125245533627 / 2 ^ 87)) := by
    have h : Exact.of? (-5e-11) = some ⟨true, 7737125245533627, -87⟩ := by decide +kernel
    exact ⟨_, h, by norm_num [value, point]⟩
  have small : Stands (-4e-11) (-(6189700196426901 / 2 ^ 87)) := by
    have h : Exact.of? (-4e-11) = some ⟨true, 6189700196426901, -87⟩ := by decide +kernel
    exact ⟨_, h, by norm_num [value, point]⟩
  refine ⟨⟨third, ?_⟩, ⟨half, fun hzero => ?_⟩, small, ?_⟩
  · obtain ⟨d, hd, -, -, hdigits⟩ := (shown_form _).2 _ third
    have hthird : shown? (-1 / 3) = some "-0.3333333333" := by decide +kernel
    rw [hthird] at hd
    cases hd
    obtain ⟨cs, hcs, htext⟩ := hdigits (by decide)
    exact ⟨cs, hcs, htext.trans (if_pos (by norm_num))⟩
  · obtain ⟨d, hd, -, hiff, -⟩ := (shown_form _).2 _ half
    rw [hzero] at hd
    cases hd
    exact absurd (hiff.mp rfl) (by norm_num)
  · obtain ⟨d, hd, -, hiff, -⟩ := (shown_form _).2 _ small
    rw [hd, hiff.mpr (by norm_num)]

end Abacus.Keypad
