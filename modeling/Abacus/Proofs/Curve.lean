import Abacus.Curve
import Abacus.Proofs.Double.Signs
import Abacus.Proofs.Term.Faults

/-!
# What a curve shows

The result of drawing a curve, told without the functions that draw it: by the bounds, by the number
of points, and by the values of the text at single numbers.

A curve is refused for its interval, for its number of points or for its expression, in this
order. Otherwise it has as many points as it should, it meets both ends of the interval, and every
point shows what the expression comes to there when it is read and evaluated for that point alone.

An expression that was read has a value at every number, so a gap always stands for a value that
is not finite, and never for an error.

* `Span.Proper`: both bounds are finite and the upper one is greater. `Span.check_of_proper`: which
  spans can carry a curve.
* `Sample.Shows`: what a point says of a text. `sampleAt_shows`: every sampled point does.
* `Draws`: a curve over a span, from its first to its last point.
* `curve_spec`: the result of drawing a curve, for every text and every span.

Where the points between the ends stand is the subject of `Proofs/Abscissas`; how a curve is printed
is that of `Proofs/Console/Plot`.
-/

namespace Abacus

/-! ## Spans -/

namespace Span

variable {s : Span}

/-- Both bounds are finite, and the upper one is greater. -/
def Proper (s : Span) : Prop := s.min.isFinite = true ∧ s.max.isFinite = true ∧ ¬ s.max ≤ s.min

theorem not_proper_iff :
    ¬ s.Proper ↔ s.min.isFinite = false ∨ s.max.isFinite = false ∨ s.max ≤ s.min := by
  unfold Proper
  cases s.min.isFinite <;> cases s.max.isFinite <;> simp

theorem check_of_not_proper (h : ¬ s.Proper) : s.check = .error (.invalidDomain s.min s.max) := by
  refine if_pos ?_
  rw [not_proper_iff] at h
  simpa only [Bool.or_eq_true, Bool.not_eq_true', decide_eq_true_eq, or_assoc] using h

theorem check_of_proper (h : s.Proper) :
    s.check = if s.points < 2 then .error (.tooFewPoints s.points)
      else if maxPoints < s.points then .error (.tooManyPoints s.points maxPoints) else .ok () := by
  refine if_neg fun hbad => not_proper_iff.mpr ?_ h
  simpa only [Bool.or_eq_true, Bool.not_eq_true', decide_eq_true_eq, or_assoc] using hbad

theorem length_abscissas (s : Span) : s.abscissas.length = s.points := by
  rw [abscissas, List.length_map, List.length_range]

/-- The first abscissa is the lower bound. -/
theorem head?_abscissas (h : 2 ≤ s.points) : s.abscissas.head? = some s.min := by
  rw [abscissas, List.head?_map, List.head?_range, if_neg (by omega)]
  rfl

/-- The last abscissa is the upper bound. -/
theorem getLast?_abscissas (h : 2 ≤ s.points) : s.abscissas.getLast? = some s.max := by
  have hpoint : s.point s.last = s.max := by
    rw [point, if_neg (by unfold last; omega), if_pos rfl]
  rw [abscissas, List.getLast?_map, List.getLast?_range, if_neg (by omega)]
  exact congrArg some hpoint

end Span

/-! ## Points -/

variable {source : String}

/-- The point shows the value of the text at its abscissa; where that is not finite, a gap. -/
def Sample.Shows (source : String) (p : Sample) : Prop :=
  ∃ v, evaluateAt source p.x = .ok v ∧
    (v.isFinite = true → p.y = v) ∧ (v.isFinite = false → p.y.isNaN = true) ∧
    (p.isGap = true ↔ v.isFinite = false) ∧ p.y.isInf = false

/-- Evaluating an entry is evaluating its text. -/
theorem evaluateAt_of_read {e : Entry} (h : Entry.read (.inVariable abscissa) source = .ok e)
    (x : Float) : evaluateAt source x = e.evaluateAt x := by
  obtain ⟨hparse, hfree⟩ := Entry.parse_of_read h
  rw [Entry.evaluateAt, hfree]
  exact Except.bind_of_ok hparse _

/-- **A point of the curve of an entry shows the value of its text**; a gap is never an error. -/
theorem sampleAt_shows {e : Entry} (h : Entry.read (.inVariable abscissa) source = .ok e)
    (x : Float) : (e.sampleAt x).Shows source ∧ (e.sampleAt x).x = x := by
  obtain ⟨v, hv⟩ := Entry.exists_evaluateAt h x
  have hsample : e.sampleAt x = ⟨x, if v.isFinite then v else Double.nan⟩ := by
    rw [Entry.sampleAt, hv]
  rw [hsample]
  refine ⟨⟨v, (evaluateAt_of_read h x).trans hv, ?_⟩, rfl⟩
  cases hfin : v.isFinite with
  | true =>
    obtain ⟨hnan, hinf⟩ := Double.apart_of_isFinite hfin
    have hgap : Sample.isGap ⟨x, v⟩ = false := hnan
    exact ⟨fun _ => rfl, nofun, by simp [hgap], hinf⟩
  | false => exact ⟨nofun, fun _ => Double.isNaN_nan, ⟨fun _ => rfl, fun _ => Double.isNaN_nan⟩,
      Double.isInf_nan⟩

/-! ## Curves -/

variable {s : Span}

theorem curve_of_check_error {err : Curve.Error} (h : s.check = .error err) :
    curve source s = .error err := by
  rw [curve, h]
  rfl

theorem curve_of_parse_error {err : Term.Error} (hcheck : s.check = .ok ())
    (h : Term.parse (.inVariable abscissa) source = .error err) :
    curve source s = .error (.expression err) := by
  rw [curve, Except.bind_of_ok hcheck, Entry.read, h]
  rfl

theorem curve_of_read {e : Entry} (hcheck : s.check = .ok ())
    (h : Entry.read (.inVariable abscissa) source = .ok e) :
    curve source s = .ok (s.abscissas.map e.sampleAt) := by
  rw [curve, Except.bind_of_ok hcheck, h]
  exact Except.bind_of_ok hcheck _

/-- The points stand above the abscissas of the span, and each shows the value of the text. -/
structure Draws (source : String) (s : Span) (samples : List Sample) : Prop where
  length : samples.length = s.points
  first : samples.head?.map Sample.x = some s.min
  last : samples.getLast?.map Sample.x = some s.max
  shows : ∀ p ∈ samples, p.Shows source

theorem draws_of_read {e : Entry} (h : Entry.read (.inVariable abscissa) source = .ok e)
    (hlow : 2 ≤ s.points) : Draws source s (s.abscissas.map e.sampleAt) := by
  have hx : Sample.x ∘ e.sampleAt = id := funext fun x => (sampleAt_shows h x).2
  refine ⟨?_, ?_, ?_, fun p hp => ?_⟩
  · rw [List.length_map, Span.length_abscissas]
  · rw [List.head?_map, Option.map_map, hx, Option.map_id, Span.head?_abscissas hlow]
    rfl
  · rw [List.getLast?_map, Option.map_map, hx, Option.map_id, Span.getLast?_abscissas hlow]
    rfl
  · obtain ⟨x, -, rfl⟩ := List.mem_map.mp hp
    exact (sampleAt_shows h x).1

/-- The first thing that is wrong decides. -/
theorem curve_cases (source : String) (s : Span) :
    (¬ s.Proper ∧ curve source s = .error (.invalidDomain s.min s.max)) ∨
    (s.Proper ∧ s.points < 2 ∧ curve source s = .error (.tooFewPoints s.points)) ∨
    (s.Proper ∧ maxPoints < s.points ∧
      curve source s = .error (.tooManyPoints s.points maxPoints)) ∨
    s.Proper ∧ 2 ≤ s.points ∧ s.points ≤ maxPoints ∧
      ((∃ err, Term.parse (.inVariable abscissa) source = .error err ∧
        curve source s = .error (.expression err)) ∨
      ∃ t samples, Term.parse (.inVariable abscissa) source = .ok t ∧
        curve source s = .ok samples ∧ Draws source s samples) := by
  by_cases hproper : s.Proper
  case neg => exact .inl ⟨hproper, curve_of_check_error (Span.check_of_not_proper hproper)⟩
  have hcheck := Span.check_of_proper hproper
  by_cases hfew : s.points < 2
  · rw [if_pos hfew] at hcheck
    exact .inr (.inl ⟨hproper, hfew, curve_of_check_error hcheck⟩)
  rw [if_neg hfew] at hcheck
  by_cases hmany : maxPoints < s.points
  · rw [if_pos hmany] at hcheck
    exact .inr (.inr (.inl ⟨hproper, hmany, curve_of_check_error hcheck⟩))
  rw [if_neg hmany] at hcheck
  refine .inr (.inr (.inr ⟨hproper, Nat.le_of_not_lt hfew, Nat.le_of_not_lt hmany, ?_⟩))
  cases hparse : Term.parse (.inVariable abscissa) source with
  | error err => exact .inl ⟨err, rfl, curve_of_parse_error hcheck hparse⟩
  | ok t =>
    have hread : Entry.read (.inVariable abscissa) source = .ok ⟨source, t, some abscissa⟩ :=
      Except.bind_of_ok hparse _
    exact .inr ⟨t, _, rfl, curve_of_read hcheck hread, draws_of_read hread (Nat.le_of_not_lt hfew)⟩

/-- **What drawing a curve comes to.** It is refused for an interval that is not proper, otherwise
for fewer than two points, otherwise for more than a million, otherwise exactly for the error of
its text; and otherwise it is drawn over the span, every point showing the value of the text. -/
theorem curve_spec (source : String) (s : Span) :
    (curve source s = .error (.invalidDomain s.min s.max) ↔
      s.min.isFinite = false ∨ s.max.isFinite = false ∨ s.max ≤ s.min) ∧
    (s.Proper →
      (curve source s = .error (.tooFewPoints s.points) ↔ s.points < 2) ∧
      (2 ≤ s.points →
        (curve source s = .error (.tooManyPoints s.points 1000000) ↔ 1000000 < s.points) ∧
        (s.points ≤ 1000000 →
          (∀ err, curve source s = .error (.expression err) ↔
            Term.parse (.inVariable abscissa) source = .error err) ∧
          ∀ t, Term.parse (.inVariable abscissa) source = .ok t →
            ∃ samples, curve source s = .ok samples ∧ Draws source s samples))) := by
  rw [← Span.not_proper_iff]
  rcases curve_cases source s with ⟨hp, hc⟩ | ⟨hp, hn, hc⟩ | ⟨hp, hn, hc⟩ |
    ⟨hp, hlow, hhigh, ⟨err, hparse, hc⟩ | ⟨t, samples, hparse, hc, hd⟩⟩
  · simp [hc, hp]
  · simp [hc, hp, hn, Nat.not_le.mpr hn]
  · have hn : 1000000 < s.points := hn
    have hlow : ¬ s.points < 2 := by omega
    simp [hc, hp, hn, hlow, Nat.not_le.mpr hn, maxPoints]
  · have hlow : ¬ s.points < 2 := Nat.not_lt.mpr hlow
    have hhigh : ¬ 1000000 < s.points := Nat.not_lt.mpr hhigh
    simp [hc, hp, hlow, hhigh, hparse]
  · have hlow : ¬ s.points < 2 := Nat.not_lt.mpr hlow
    have hhigh : ¬ 1000000 < s.points := Nat.not_lt.mpr hhigh
    simp [hc, hp, hlow, hhigh, hparse, hd]

/-- Between its branches the reciprocal has a gap, where its value is infinite. -/
theorem curve_spec_reciprocal :
    ∃ samples, curve "1/x" ⟨-1, 1, 3⟩ = .ok samples ∧ Draws "1/x" ⟨-1, 1, 3⟩ samples ∧
      samples.map Sample.isGap = [false, true, false] := by
  have hproper : Span.Proper ⟨-1, 1, 3⟩ := by
    refine ⟨?_, ?_, ?_⟩ <;> decide +kernel
  have hparse : Term.parse (.inVariable abscissa) "1/x" =
      .ok (.binary .divide (.literal (Decimal.toFloat ⟨1, 0⟩)) (.variable "x")) := by
    with_unfolding_all rfl
  have hgaps : (curve "1/x" ⟨-1, 1, 3⟩).toOption.map (List.map Sample.isGap) =
      some [false, true, false] := by
    decide +kernel
  obtain ⟨-, hrest⟩ := ((curve_spec "1/x" ⟨-1, 1, 3⟩).2 hproper).2 (by decide)
  obtain ⟨samples, hc, hd⟩ := (hrest (by simp)).2 _ hparse
  rw [hc] at hgaps
  exact ⟨samples, hc, hd, Option.some.inj hgaps⟩

end Abacus
