import Abacus.Proofs.Curve
import Abacus.Proofs.Double.Arithmetic

/-!
# The abscissas of a curve

Where the points of a curve stand (`Span.point`). The doubles are treated as the rationals they
stand for, and every operation on them as the exact one with a rounding behind it.

The step of a span is rounded twice, the way from the lower bound is a rounded product of it, and
the sum is rounded once more. Rounding keeps the order, so the points never go back as long as
they are found in the same way. Only the last point is found in another way: it is the upper
bound.

With all its bits each rounding errs by one part in `2 ^ 53` at most, and three of them by less
than one step of a million, so the point before the last does not pass the upper bound. Without
all its bits the step can be too great by much more, and this does not hold
(`Entry.curve_passes_bound`): over `[0, 3 · 2 ^ -1074]` with six points a step is rounded up to
`2 ^ -1074`, the fifth point stands above the upper bound, and the last one goes back to it.

* `Paced`, `Stepped`, `Mixed`: the two ways to a point, over the rationals.
* `Paced.product_le`: steps with all their bits stay within the width.
* `Span.exists_values`: the values of the points.
* `Entry.curve_abscissas`: where the points of a curve stand. `Span.Wide` asks that the width is at
  least as many times the least double with all its bits as there are steps.

Not proved is that neighbours are different, which they need not be, and how far a point is from its
exact place.
-/

namespace Abacus

open Double

variable {a b δ p r r' : ℚ} {n i j : Nat}

/-! ## Even steps -/

/-- The width of an interval is rounded, divided by the number of steps, and rounded again. -/
def Paced (a b : ℚ) (n : Nat) (δ : ℚ) : Prop := ∃ w, Rounding (b - a) w ∧ Rounding (w / n) δ

/-- So many steps away from the lower bound; the product and the sum are rounded. -/
def Stepped (a δ : ℚ) (i : Nat) (r : ℚ) : Prop := ∃ p, Rounding (δ * i) p ∧ Rounding (a + p) r

/-- The errors of three roundings are less than one step of all the steps that a span can have. -/
theorem fraction_le_accuracy (hi : i < n) (hn : n < maxPoints) : (i : ℚ) / n ≤ accuracy ^ 3 := by
  have hpos : (0 : ℚ) < n := by exact_mod_cast (Nat.zero_le i).trans_lt hi
  have hn : (n : ℚ) ≤ 1000000 := by exact_mod_cast hn.le
  have hi : (i : ℚ) + 1 ≤ n := by exact_mod_cast hi
  have hacc : (1 : ℚ) - 1 / 1000000 ≤ accuracy ^ 3 := by norm_num [accuracy]
  have hstep : (1 : ℚ) / 1000000 ≤ 1 / n := one_div_le_one_div_of_le hpos hn
  have hle : (i : ℚ) / n ≤ 1 - 1 / n := by
    rw [le_sub_iff_add_le, ← add_div]
    exact (div_le_one hpos).mpr hi
  linarith

namespace Paced

theorem nonneg (h : Paced a b n δ) (hab : a ≤ b) : 0 ≤ δ := by
  obtain ⟨w, hw, hδ⟩ := h
  exact hδ.nonneg (div_nonneg (hw.nonneg (sub_nonneg.mpr hab)) (Nat.cast_nonneg n))

theorem onGrid (h : Paced a b n δ) : OnGrid δ := h.choose_spec.2.onGrid

/-- Steps with all their bits come short of the width, and by more than a rounding can add. -/
theorem mul_le (h : Paced a b n δ) (hab : a ≤ b) (hi : i < n) (hn : n < maxPoints)
    (hnormal : 2 ^ (-1022 : Int) ≤ δ) : δ * i ≤ (b - a) * accuracy := by
  obtain ⟨w, hw, hδ⟩ := h
  have hpos : (1 : ℚ) ≤ n := by exact_mod_cast (Nat.zero_le i).trans_lt hi
  have hwidth := sub_nonneg.mpr hab
  have hw0 := hw.nonneg hwidth
  have hδw : δ ≤ w := hδ.le_of_le hw.onGrid (div_le_self hw0 hpos)
  have hacc := accuracy_pos
  have hδ' : δ * accuracy ≤ w / n :=
    (hδ.le_or_small (div_nonneg hw0 (Nat.cast_nonneg n))).resolve_right (not_lt.mpr hnormal)
  have hw' : w * accuracy ≤ b - a :=
    (hw.le_or_small hwidth).resolve_right (not_lt.mpr (hnormal.trans hδw))
  refine le_of_mul_le_mul_right ?_ (pow_pos hacc 2)
  calc δ * i * accuracy ^ 2 = δ * accuracy * (i * accuracy) := by ring
    _ ≤ w / n * (i * accuracy) := mul_le_mul_of_nonneg_right hδ' (by positivity)
    _ = w * accuracy * (i / n) := by ring
    _ ≤ (b - a) * (i / n) := mul_le_mul_of_nonneg_right hw' (by positivity)
    _ ≤ (b - a) * accuracy ^ 3 := mul_le_mul_of_nonneg_left (fraction_le_accuracy hi hn) hwidth
    _ = (b - a) * accuracy * accuracy ^ 2 := by ring

/-- Steps with all their bits stay within the width when they are rounded. -/
theorem product_le (h : Paced a b n δ) (hab : a ≤ b) (hi : i < n) (hn : n < maxPoints)
    (hnormal : 2 ^ (-1022 : Int) ≤ δ) (hp : Rounding (δ * i) p) : p ≤ b - a := by
  have hle := h.mul_le hab hi hn hnormal
  -- the product with zero does not have all its bits, all others have
  rcases Nat.eq_zero_or_pos i with rfl | hpos
  · have hzero : p = 0 := by
      rw [Nat.cast_zero, mul_zero] at hp
      exact hp.unique (.self .zero)
    rw [hzero]
    exact sub_nonneg.mpr hab
  · have hone : (1 : ℚ) ≤ i := by exact_mod_cast hpos
    have hδp : δ ≤ p := hp.ge_of_ge h.onGrid (le_mul_of_one_le_right (h.nonneg hab) hone)
    have hp' : p * accuracy ≤ δ * i :=
      (hp.le_or_small (mul_nonneg (h.nonneg hab) (Nat.cast_nonneg i))).resolve_right
        (not_lt.mpr (hnormal.trans hδp))
    exact le_of_mul_le_mul_right (hp'.trans hle) accuracy_pos

/-- Other steps come to no more than one, however many they are. -/
theorem product_le_one (hsmall : δ < 2 ^ (-1022 : Int)) (hi : i < n) (hn : n < maxPoints) :
    δ * i ≤ 1 := by
  have hunit : (2 : ℚ) ^ (-1022 : Int) ≤ 1 / 1000000 := by
    calc (2 : ℚ) ^ (-1022 : Int) ≤ 2 ^ (-20 : Int) := unit_le (by decide)
      _ ≤ 1 / 1000000 := by norm_num
  have hi : (i : ℚ) ≤ 1000000 := by exact_mod_cast (hi.trans hn).le
  calc δ * i ≤ 1 / 1000000 * i :=
        mul_le_mul_of_nonneg_right (hsmall.le.trans hunit) (Nat.cast_nonneg i)
    _ ≤ 1 / 1000000 * 1000000 := mul_le_mul_of_nonneg_left hi (by norm_num)
    _ = 1 := by norm_num

/-- Either way a step ends within the width or within one. -/
theorem product_le_or (h : Paced a b n δ) (hab : a ≤ b) (hi : i < n) (hn : n < maxPoints)
    (hp : Rounding (δ * i) p) : (δ * i ≤ b - a ∧ p ≤ b - a) ∨ (δ * i ≤ 1 ∧ p ≤ 1) := by
  rcases le_or_gt (2 ^ (-1022 : Int)) δ with hnormal | hsmall
  · have hle := (h.mul_le hab hi hn hnormal).trans
      (mul_le_of_le_one_right (sub_nonneg.mpr hab) accuracy_le_one)
    exact .inl ⟨hle, h.product_le hab hi hn hnormal hp⟩
  · have hle := product_le_one hsmall hi hn
    exact .inr ⟨hle, hp.le_of_le .one hle⟩

/-- An interval that is wide enough has steps with all their bits. -/
theorem normal (h : Paced a b n δ) (hpos : 0 < n) (hn : n < maxPoints)
    (hwide : n * 2 ^ (-1022 : Int) ≤ b - a) : 2 ^ (-1022 : Int) ≤ δ := by
  obtain ⟨w, hw, hδ⟩ := h
  have hn : n < 2 ^ 53 := hn.trans (by decide)
  have hn0 : (0 : ℚ) < n := by exact_mod_cast hpos
  have hw' : n * 2 ^ (-1022 : Int) ≤ w := hw.ge_of_ge (OnGrid.of_lt hn (by decide)) hwide
  have hone : OnGrid (2 ^ (-1022 : Int)) := by
    have h : OnGrid (point 1 (-1022)) := .of_lt (by decide) (by decide)
    rwa [point, Nat.cast_one, one_mul] at h
  exact hδ.ge_of_ge hone ((le_div_iff₀ hn0).mpr (by rwa [mul_comm]))

end Paced

namespace Stepped

theorem mono (h : Stepped a δ i r) (h' : Stepped a δ j r') (hδ : 0 ≤ δ) (hij : i ≤ j) : r ≤ r' := by
  obtain ⟨p, hp, hr⟩ := h
  obtain ⟨p', hp', hr'⟩ := h'
  have hle : δ * i ≤ δ * j := mul_le_mul_of_nonneg_left (by exact_mod_cast hij) hδ
  exact hr.mono hr' (add_le_add_right (hp.mono hp' hle) a)

theorem ge (h : Stepped a δ i r) (hδ : 0 ≤ δ) (ha : OnGrid a) : a ≤ r := by
  obtain ⟨p, hp, hr⟩ := h
  exact hr.ge_of_ge ha (le_add_of_nonneg_right (hp.nonneg (mul_nonneg hδ (Nat.cast_nonneg i))))

theorem le (h : Stepped a δ i r) (hδ : Paced a b n δ) (hab : a ≤ b) (hb : OnGrid b) (hi : i < n)
    (hn : n < maxPoints) (hnormal : 2 ^ (-1022 : Int) ≤ δ) : r ≤ b := by
  obtain ⟨p, hp, hr⟩ := h
  have := hδ.product_le hab hi hn hnormal hp
  exact hr.le_of_le hb (by linarith)

theorem zero (ha : OnGrid a) : Stepped a δ 0 a := by
  refine ⟨0, ?_, ?_⟩
  · rw [Nat.cast_zero, mul_zero]
    exact .self .zero
  · rw [add_zero]
    exact .self ha

end Stepped

/-! ## Mixtures of the bounds -/

/-- The two bounds are weighted by the part of the way, every operation rounded. -/
def Mixed (a b : ℚ) (n i : Nat) (r : ℚ) : Prop :=
  ∃ t u l h, Rounding (i / n) t ∧ Rounding (1 - t) u ∧ Rounding (a * u) l ∧ Rounding (b * t) h ∧
    Rounding (l + h) r

namespace Mixed

theorem mono (h : Mixed a b n i r) (h' : Mixed a b n j r') (ha : a ≤ 0) (hb : 0 ≤ b)
    (hij : i ≤ j) : r ≤ r' := by
  obtain ⟨t, u, l, h, ht, hu, hl, hh, hr⟩ := h
  obtain ⟨t', u', l', h', ht', hu', hl', hh', hr'⟩ := h'
  have htt : t ≤ t' := ht.mono ht' (by gcongr)
  have huu : u' ≤ u := hu'.mono hu (by linarith)
  have hll : l ≤ l' := hl.mono hl' (mul_le_mul_of_nonpos_left huu ha)
  have hhh : h ≤ h' := hh.mono hh' (mul_le_mul_of_nonneg_left htt hb)
  exact hr.mono hr' (add_le_add hll hhh)

theorem zero (ha : OnGrid a) : Mixed a b n 0 a := by
  refine ⟨0, 1, a, 0, ?_, ?_, ?_, ?_, ?_⟩
  · rw [Nat.cast_zero, zero_div]
    exact .self .zero
  · rw [sub_zero]
    exact .self .one
  · rw [mul_one]
    exact .self ha
  · rw [mul_zero]
    exact .self .zero
  · rw [add_zero]
    exact .self ha

theorem last (hb : OnGrid b) (hn : 0 < n) : Mixed a b n n b := by
  refine ⟨1, 0, 0, b, ?_, ?_, ?_, ?_, ?_⟩
  · rw [div_self (by exact_mod_cast hn.ne')]
    exact .self .one
  · rw [sub_self]
    exact .self .zero
  · rw [mul_zero]
    exact .self .zero
  · rw [mul_one]
    exact .self hb
  · rw [zero_add]
    exact .self hb

end Mixed

/-! ## Spans -/

namespace Span

variable {s : Span}

/-- The width is no less than the least double with all its bits, for every step. -/
def Wide (s : Span) : Prop :=
  ∃ a b, Stands s.min a ∧ Stands s.max b ∧ s.last * 2 ^ (-1022 : Int) ≤ b - a

theorem point_of_isFinite (hpos : 0 < i) (hi : i < s.last) (h : s.step.isFinite = true) :
    s.point i = s.min + s.step * Float.ofNat i := by
  rw [point, if_neg hpos.ne', if_neg hi.ne, if_pos h]

theorem point_of_not_isFinite (hpos : 0 < i) (hi : i < s.last) (h : s.step.isFinite = false) :
    s.point i = s.min * (1 - Float.ofNat i / Float.ofNat s.last) +
      s.max * (Float.ofNat i / Float.ofNat s.last) := by
  rw [point, if_neg hpos.ne', if_neg hi.ne, if_neg (by simp [h])]

theorem point_last (h : 0 < s.last) : s.point s.last = s.max := by
  rw [point, if_neg h.ne', if_pos rfl]

section Values

variable (hmin : Stands s.min a) (hmax : Stands s.max b) (hab : a ≤ b) (hlast : 0 < s.last)
  (hpoints : s.last < maxPoints)

include hmin hmax hab hlast hpoints

/-- Where the width is a double, the points are stepped to. -/
theorem exists_stepped (hwidth : b - a < overflow) :
    ∃ δ, Paced a b s.last δ ∧ ∀ i < s.last, ∃ r, Stepped a δ i r ∧ Stands (s.point i) r := by
  have hn : s.last < 2 ^ 53 := hpoints.trans (by decide)
  have hone : (1 : ℚ) ≤ s.last := by exact_mod_cast hlast
  have hwidth0 := sub_nonneg.mpr hab
  obtain ⟨w, hw, hwx⟩ := (hmax.sub hmin).stands (by rwa [abs_of_nonneg hwidth0])
  have hw0 := hw.nonneg hwidth0
  obtain ⟨δ, hδ, hstep⟩ := (hwx.div (.ofNat hn) (by positivity)).stands (by
    rw [abs_of_nonneg (by positivity)]
    exact (div_le_self hw0 hone).trans_lt ((le_abs_self w).trans_lt hwx.abs_lt))
  have hpaced : Paced a b s.last δ := ⟨w, hw, hδ⟩
  have hδ0 := hpaced.nonneg hab
  refine ⟨δ, hpaced, fun i hi => ?_⟩
  rcases Nat.eq_zero_or_pos i with rfl | hpos
  · exact ⟨a, .zero hmin.onGrid, hmin⟩
  have hprod0 : 0 ≤ δ * i := by positivity
  obtain ⟨p, hp⟩ := Rounding.exists_of (δ * i)
  have hp0 := hp.nonneg hprod0
  have hle := hpaced.product_le_or hab hi hpoints hp
  have ha := hmin.abs_add_one_lt
  have hb := hmax.abs_lt
  have hprod : |δ * i| < overflow := by
    rw [abs_of_nonneg hprod0]
    have := abs_nonneg a
    rcases hle with ⟨hle, -⟩ | ⟨hle, -⟩ <;> linarith
  have hsum : |a + p| < overflow := by
    have := neg_abs_le a
    have := le_abs_self a
    have := le_abs_self b
    rcases hle with ⟨-, hle⟩ | ⟨-, hle⟩ <;> exact abs_lt.mpr ⟨by linarith, by linarith⟩
  obtain ⟨p', hp', hpx⟩ := (hstep.mul (.ofNat (hi.trans hn))).stands hprod
  obtain rfl := hp.unique hp'
  obtain ⟨r, hr, hrx⟩ := (hmin.add hpx).stands hsum
  rw [point_of_isFinite hpos hi hstep.isFinite]
  exact ⟨r, ⟨p, hp, hr⟩, hrx⟩

omit hab in
/-- Where it is not, they are mixed from the bounds, which have different signs then. -/
theorem exists_mixed (hwidth : overflow ≤ b - a) (hi : i < s.last) :
    ∃ r, Mixed a b s.last i r ∧ Stands (s.point i) r := by
  have hn : s.last < 2 ^ 53 := hpoints.trans (by decide)
  rcases Nat.eq_zero_or_pos i with rfl | hpos
  · exact ⟨a, .zero hmin.onGrid, hmin⟩
  have hinf : s.step = infinity := by
    rw [step, (hmax.sub hmin).infinite hwidth]
    exact infinity_div (.ofNat hn) (by exact_mod_cast hlast)
  obtain ⟨ha, hb⟩ := signs_of_overflow hmin hmax hwidth
  -- every operation of the mixture stays between two finite doubles
  obtain ⟨t, ht, htx, ht0, ht1⟩ := ((Stands.ofNat (hi.trans hn)).div (.ofNat hn)
    (by exact_mod_cast hlast.ne')).between stands_zero stands_one (by positivity)
    (div_le_one_of_le₀ (by exact_mod_cast hi.le) (by positivity))
  obtain ⟨u, hu, hux, hu0, hu1⟩ := (stands_one.sub htx).between stands_zero stands_one (by linarith)
    (by linarith)
  obtain ⟨l, hl, hlx, hl0, hl1⟩ := (hmin.mul hux).between hmin stands_zero
    ((mul_one a).symm.trans_le (mul_le_mul_of_nonpos_left hu1 ha))
    (mul_nonpos_of_nonpos_of_nonneg ha hu0)
  obtain ⟨h, hh, hhx, hh0, hh1⟩ := (hmax.mul htx).between stands_zero hmax
    (mul_nonneg hb ht0) (mul_le_of_le_one_right hb ht1)
  obtain ⟨r, hr, hrx, -, -⟩ := (hlx.add hhx).between hmin hmax (by linarith) (by linarith)
  rw [point_of_not_isFinite hpos hi (hinf ▸ isFinite_infinity)]
  exact ⟨r, ⟨t, u, l, h, ht, hu, hl, hh, hr⟩, hrx⟩

/-- The points before the last one have values that grow from the lower bound on; in a wide span
they do not pass the upper bound. -/
theorem exists_values :
    ∃ r : Nat → ℚ, (∀ i < s.last, Stands (s.point i) (r i) ∧ a ≤ r i) ∧
      (∀ i j, i ≤ j → j < s.last → r i ≤ r j) ∧
      (s.Wide → ∀ i < s.last, r i ≤ b) := by
  rcases lt_or_ge (b - a) overflow with hwidth | hwidth
  · obtain ⟨δ, hδ, hr⟩ := exists_stepped hmin hmax hab hlast hpoints hwidth
    have hδ0 := hδ.nonneg hab
    choose! r hr using hr
    refine ⟨r, fun i hi => ⟨(hr i hi).2, (hr i hi).1.ge hδ0 hmin.onGrid⟩,
      fun i j hij hj => (hr i (hij.trans_lt hj)).1.mono (hr j hj).1 hδ0 hij, ?_⟩
    rintro ⟨a', b', ha', hb', hwide⟩ i hi
    rw [ha'.unique hmin, hb'.unique hmax] at hwide
    exact (hr i hi).1.le hδ hab hmax.onGrid hi hpoints (hδ.normal hlast hpoints hwide)
  · have hr (i : Nat) (hi : i < s.last) := exists_mixed hmin hmax hlast hpoints hwidth hi
    obtain ⟨ha, hb⟩ := signs_of_overflow hmin hmax hwidth
    choose! r hr using hr
    refine ⟨r, fun i hi => ⟨(hr i hi).2, ?_⟩,
      fun i j hij hj => (hr i (hij.trans_lt hj)).1.mono (hr j hj).1 ha hb hij, fun _ i hi => ?_⟩
    · exact (Mixed.zero hmin.onGrid).mono (hr i hi).1 ha hb (Nat.zero_le i)
    · exact (hr i hi).1.mono (.last hmax.onGrid hlast) ha hb hi.le

end Values

theorem abscissas_eq_append (h : 2 ≤ s.points) :
    s.abscissas = (List.range s.last).map s.point ++ [s.max] := by
  have hlast : s.points = s.last + 1 := by
    unfold last
    omega
  rw [abscissas, hlast, List.range_succ, List.map_append, List.map_singleton,
    point_last (by omega)]

theorem forall_mem_abscissas {P : Float → Prop} (h : 2 ≤ s.points) :
    (∀ x ∈ s.abscissas, P x) ↔ (∀ i < s.last, P (s.point i)) ∧ P s.max := by
  simp [abscissas_eq_append h, or_imp, forall_and]

/-- **Where the points of a span stand.** -/
theorem abscissas_spec (hproper : s.Proper) (hlow : 2 ≤ s.points) (hhigh : s.points ≤ maxPoints) :
    (∀ x ∈ s.abscissas, x.isFinite = true ∧ s.min ≤ x) ∧
      s.abscissas.dropLast.Pairwise (· ≤ ·) ∧
      (s.Wide → (∀ x ∈ s.abscissas, x ≤ s.max) ∧ s.abscissas.Pairwise (· ≤ ·)) := by
  obtain ⟨hminFinite, hmaxFinite, hlt⟩ := hproper
  obtain ⟨a, hmin⟩ := Stands.of_isFinite hminFinite
  obtain ⟨b, hmax⟩ := Stands.of_isFinite hmaxFinite
  have hab : a ≤ b := (not_le.mp fun h => hlt ((hmax.le_iff hmin).mpr h)).le
  have hlast : 0 < s.last ∧ s.last < maxPoints := by
    unfold last
    omega
  obtain ⟨r, hr, hmono, hle⟩ := exists_values hmin hmax hab hlast.1 hlast.2
  have hpairs : ((List.range s.last).map s.point).Pairwise (· ≤ ·) := by
    rw [List.pairwise_map]
    refine List.pairwise_lt_range.imp_of_mem fun {i j} _ hj hij => ?_
    have hj := List.mem_range.mp hj
    exact ((hr i (hij.trans hj)).1.le_iff (hr j hj).1).mpr (hmono i j hij.le hj)
  have hbelow (hwide : s.Wide) (i : Nat) (hi : i < s.last) : s.point i ≤ s.max :=
    ((hr i hi).1.le_iff hmax).mpr (hle hwide i hi)
  refine ⟨?_, ?_, fun hwide => ⟨?_, ?_⟩⟩
  · rw [forall_mem_abscissas hlow]
    exact ⟨fun i hi => ⟨(hr i hi).1.isFinite, (hmin.le_iff (hr i hi).1).mpr (hr i hi).2⟩,
      hmaxFinite, (hmin.le_iff hmax).mpr hab⟩
  · rwa [abscissas_eq_append hlow, List.dropLast_concat]
  · rw [forall_mem_abscissas hlow]
    exact ⟨hbelow hwide, (hmax.le_iff hmax).mpr le_rfl⟩
  · rw [abscissas_eq_append hlow, List.pairwise_append]
    refine ⟨hpairs, List.pairwise_singleton _ _, ?_⟩
    simpa using hbelow hwide

end Span

/-! ## Curves -/

namespace Entry

variable {s : Span}

theorem sampleAt_x (e : Entry) (x : Float) : (e.sampleAt x).x = x := by
  unfold sampleAt
  split <;> rfl

/-- **Where the points of a curve stand.** All abscissas are finite and none is below the lower
bound; before the last point they never go back. If the span is wide enough for the least double
with all its bits as a step, none is above the upper bound either, and they never go back at all. -/
theorem curve_abscissas (e : Entry) (hproper : s.Proper) (hlow : 2 ≤ s.points)
    (hhigh : s.points ≤ maxPoints) :
    ∃ samples, e.curve s = .ok samples ∧
      (∀ p ∈ samples, p.x.isFinite = true ∧ s.min ≤ p.x) ∧
      (samples.map Sample.x).dropLast.Pairwise (· ≤ ·) ∧
      (s.Wide →
        (∀ p ∈ samples, p.x ≤ s.max) ∧ (samples.map Sample.x).Pairwise (· ≤ ·)) := by
  have hcheck : s.check = .ok () := by
    rw [Span.check_of_proper hproper, if_neg (by omega), if_neg (by omega)]
  have hx : Sample.x ∘ e.sampleAt = id := funext (sampleAt_x e)
  obtain ⟨hmem, hpairs, hwide⟩ := Span.abscissas_spec hproper hlow hhigh
  refine ⟨s.abscissas.map e.sampleAt, Except.bind_of_ok hcheck _, ?_, ?_, fun h => ⟨?_, ?_⟩⟩
  · rw [List.forall_mem_map]
    intro x hx
    rw [sampleAt_x]
    exact hmem x hx
  · rwa [List.map_map, hx, List.map_id]
  · rw [List.forall_mem_map]
    intro x hx
    rw [sampleAt_x]
    exact (hwide h).1 x hx
  · rw [List.map_map, hx, List.map_id]
    exact (hwide h).2

/-- A wide span from zero to one. -/
theorem curve_abscissas_unit :
    ∃ samples, curve ⟨"x", .variable "x", some "x"⟩ ⟨0, 1, 4⟩ = .ok samples ∧
      Span.Wide ⟨0, 1, 4⟩ ∧
      (∀ p ∈ samples, p.x.isFinite = true ∧ 0 ≤ p.x ∧ p.x ≤ 1) ∧
      (samples.map Sample.x).Pairwise (· ≤ ·) := by
  have hproper : Span.Proper ⟨0, 1, 4⟩ := by
    refine ⟨?_, ?_, ?_⟩ <;> decide +kernel
  have hwide : Span.Wide ⟨0, 1, 4⟩ := by
    refine ⟨0, 1, ?_, ?_, ?_⟩
    · exact_mod_cast Stands.ofNat (by decide : 0 < 2 ^ 53)
    · exact_mod_cast Stands.ofNat (by decide : 1 < 2 ^ 53)
    · calc ((3 : Nat) : ℚ) * 2 ^ (-1022 : Int) ≤ (3 : Nat) * 2 ^ (-2 : Int) :=
            mul_le_mul_of_nonneg_left (unit_le (by decide)) (Nat.cast_nonneg _)
        _ ≤ 1 - 0 := by norm_num
  obtain ⟨samples, hc, hmem, -, hrest⟩ :=
    curve_abscissas ⟨"x", .variable "x", some "x"⟩ hproper (by decide) (by decide)
  obtain ⟨hle, hpairs⟩ := hrest hwide
  exact ⟨samples, hc, hwide, fun p hp => ⟨(hmem p hp).1, (hmem p hp).2, hle p hp⟩, hpairs⟩

/-- In a narrow span the last step can go back: a fifth of three times the least positive double
is rounded up to that double, and four such steps pass the upper bound. -/
theorem curve_passes_bound :
    ∃ samples, curve ⟨"x", .variable "x", some "x"⟩ ⟨0, 1.5e-323, 6⟩ = .ok samples ∧
      ¬ (∀ p ∈ samples, p.x ≤ 1.5e-323) ∧ ¬ (samples.map Sample.x).Pairwise (· ≤ ·) := by
  have hproper : Span.Proper ⟨0, 1.5e-323, 6⟩ := by
    refine ⟨?_, ?_, ?_⟩ <;> decide +kernel
  have hcheck : Span.check ⟨0, 1.5e-323, 6⟩ = .ok () := Span.check_of_proper hproper
  have hx : Sample.x ∘ sampleAt ⟨"x", .variable "x", some "x"⟩ = id := funext (sampleAt_x _)
  refine ⟨_, Except.bind_of_ok hcheck _, ?_, ?_⟩
  · rw [List.forall_mem_map]
    simp only [sampleAt_x]
    decide +kernel
  · rw [List.map_map, hx, List.map_id]
    decide +kernel

end Entry

end Abacus
