import Abacus.Proofs.Double.Operations

/-!
# Correct rounding

A double is the rounding of a rational if no finite double is nearer to it, and of two nearest
ones it is the one with the even mantissa. From `overflow` on the rounding is infinite. This says
nothing of how the rounding is found, and nothing of the grid: `Rounds q x` speaks of all finite
doubles, with their exact values.

* `Rounds`: correct rounding of a rational that is not negative, to a double without sign.
* `Unsigned`: the double is not finite, or has no minus sign.

It is what the statements about reading say (`Token.Reads`, `Decimal.toFloat_rounds`). For the
proofs it is the nearest point of the grid (`Nearest`).

Results:
* `rounds_ofPoint`: the nearest point of the grid is the rounding.
* `Rounds.nearest`: it is the only one.
* `Rounds.unique`: no rational has two roundings.
* `Rounds.unsigned`: a rounding has no minus sign.
-/

namespace Abacus.Double

/-- The double without sign is the rational rounded correctly, halves to the even mantissa. -/
def Rounds (q : ℚ) (x : Float) : Prop :=
  if q < overflow then
    ∃ v, Exact.of? x = some v ∧ v.negative = false ∧
      ∀ y w, Exact.of? y = some w →
        |value v - q| ≤ |value w - q| ∧
          (|value v - q| = |value w - q| → value w = value v ∨ v.mantissa % 2 = 0)
  else x = infinity

variable {q : ℚ} {x y : Float}

/-- The value of the double at a point without sign. -/
theorem value_ofPoint {m : Nat} {e : Int} (h : Canonical m e) (he : e ≤ 971) :
    ∃ v, Exact.of? (ofPoint .positive m e) = some v ∧ v.negative = false ∧ v.mantissa = m ∧
      value v = point m e :=
  ⟨_, exact_ofPoint .positive h he, rfl, rfl, point_exact m e⟩

/-- The magnitude of a finite double is a point of the grid. -/
theorem exists_value {v : Exact} (h : Exact.of? x = some v) :
    ∃ m e, Canonical m e ∧ e ≤ 971 ∧
      (value v = point m e ∨ value v = -point m e) := by
  obtain ⟨sign, m, e, hc, he, rfl⟩ := exists_ofPoint h
  rw [exact_ofPoint sign hc he] at h
  cases h
  refine ⟨m, e, hc, he, ?_⟩
  cases sign with
  | negative => exact .inr (congrArg Neg.neg (point_exact m e))
  | positive => exact .inl (point_exact m e)

/-- A double without sign is the double at a point of the grid. -/
theorem exists_ofPoint_positive {v : Exact} (h : Exact.of? x = some v) (hs : v.negative = false) :
    ∃ m e, Canonical m e ∧ e ≤ 971 ∧ x = ofPoint .positive m e := by
  obtain ⟨sign, m, e, hc, he, rfl⟩ := exists_ofPoint h
  rw [exact_ofPoint sign hc he] at h
  cases h
  cases sign with
  | positive => exact ⟨m, e, hc, he, rfl⟩
  | negative => cases hs

/-- **The nearest point is the correct rounding.** -/
theorem rounds_ofPoint {m : Nat} {e : Int} (hq : 0 ≤ q) (h : Nearest q m e) :
    Rounds q (ofPoint .positive m e) := by
  unfold Rounds
  by_cases ho : q < overflow
  · rw [if_pos ho]
    obtain ⟨v, hv, hs, hm, hp⟩ := value_ofPoint h.canonical (h.exponent_le ho)
    refine ⟨v, hv, hs, fun y w hw => ?_⟩
    obtain ⟨m', e', hc, -, hval⟩ := exists_value hw
    have hclose := h.closest _ _ hc
    have heven := h.even _ _ hc
    rw [hp, hm]
    rcases hval with hval | hval
    · rw [hval]
      exact ⟨hclose, heven⟩
    · -- the point itself is not farther away than its negative
      have hpos := point_nonneg m' e'
      have hfar : |(-point m' e') - q| = point m' e' + q := by
        rw [abs_of_nonpos (by linarith)]
        ring
      have hle : |point m' e' - q| ≤ point m' e' + q := abs_le.mpr ⟨by linarith, by linarith⟩
      rw [hval, hfar]
      refine ⟨hclose.trans hle, fun heq => ?_⟩
      have hback : |point m' e' - q| = point m' e' + q := le_antisymm hle (heq ▸ hclose)
      rcases abs_cases (point m' e' - q) with ⟨ha, -⟩ | ⟨ha, -⟩
      · -- the rational is zero, and so is the nearest point
        have hq0 : q = 0 := by linarith
        have hz := (hq0 ▸ h).unique nearest_zero
        right
        rw [hz.1]
      · have hp0 : point m' e' = 0 := by linarith
        rcases heven (heq.trans hback.symm) with hx | hx
        · left
          rw [← hx, hp0, neg_zero]
        · exact .inr hx
  · rw [if_neg ho]
    exact ofPoint_overflow h.canonical (lt_of_not_ge fun he => ho (h.lt_overflow he))

/-- The correct rounding is the double at the nearest point. -/
theorem Rounds.nearest (h : Rounds q x) (hq : 0 ≤ q) :
    ∃ m e, Nearest q m e ∧ x = ofPoint .positive m e := by
  obtain ⟨m₀, e₀, h₀⟩ := exists_nearest hq
  unfold Rounds at h
  by_cases ho : q < overflow
  · rw [if_pos ho] at h
    obtain ⟨v, hv, hs, hbest⟩ := h
    obtain ⟨m, e, hc, he, rfl⟩ := exists_ofPoint_positive hv hs
    obtain ⟨v', hv', -, hm, hp⟩ := value_ofPoint hc he
    rw [hv'] at hv
    cases hv
    rw [hp, hm] at hbest
    have hfinite {m' : Nat} {e' : Int} (hc' : Canonical m' e') (he' : e' ≤ 971) :
        |point m e - q| ≤ |point m' e' - q| ∧
          (|point m e - q| = |point m' e' - q| → point m' e' = point m e ∨ m % 2 = 0) := by
      obtain ⟨w, hw, -, -, hpw⟩ := value_ofPoint hc' he'
      have := hbest _ w hw
      rwa [hpw] at this
    obtain ⟨hclose, heven⟩ := hfinite h₀.canonical (h₀.exponent_le ho)
    refine ⟨m, e, ⟨hc, fun m' e' hc' => hclose.trans (h₀.closest _ _ hc'), ?_⟩, rfl⟩
    intro m' e' hc' heq
    have heq₀ : |point m e - q| = |point m₀ e₀ - q| :=
      le_antisymm hclose (heq ▸ h₀.closest _ _ hc')
    rcases heven heq₀ with hx | hx
    · obtain ⟨rfl, rfl⟩ := h₀.canonical.ext hc hx
      exact h₀.even _ _ hc' heq
    · exact .inr hx
  · rw [if_neg ho] at h
    refine ⟨m₀, e₀, h₀, h.trans (ofPoint_overflow h₀.canonical ?_).symm⟩
    exact lt_of_not_ge fun he => ho (h₀.lt_overflow he)

/-- **No rational has two correct roundings.** -/
theorem Rounds.unique (hx : Rounds q x) (hy : Rounds q y) (hq : 0 ≤ q) : x = y := by
  obtain ⟨m, e, h, rfl⟩ := hx.nearest hq
  obtain ⟨m', e', h', rfl⟩ := hy.nearest hq
  obtain ⟨rfl, rfl⟩ := h.unique h'
  rfl

/-- The double is not finite, or has no minus sign. -/
def Unsigned (x : Float) : Prop := ∀ v, Exact.of? x = some v → v.negative = false

theorem exact_infinity : Exact.of? infinity = none := by decide +kernel

theorem Rounds.unsigned (h : Rounds q x) : Unsigned x := by
  intro v hv
  unfold Rounds at h
  split at h
  · obtain ⟨w, hw, hs, -⟩ := h
    rw [hw] at hv
    cases hv
    exact hs
  · rw [h, exact_infinity] at hv
    cases hv

/-- A finite double has a value. -/
theorem exists_exact (h : x.isFinite = true) : ∃ v, Exact.of? x = some v := by
  unfold Float.isFinite Float.Model.isFinite Float.Model.UnpackedFloat.isFinite at h
  unfold Exact.of?
  split at h
  · cases h
  · cases h
  · rename_i heq
    rw [heq]
    exact ⟨_, rfl⟩
  · rename_i heq
    rw [heq]
    exact ⟨_, rfl⟩

end Abacus.Double
