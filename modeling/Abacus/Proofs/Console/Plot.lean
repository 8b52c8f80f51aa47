import Abacus.Console.Outcome
import Abacus.Proofs.Abscissas
import Abacus.Proofs.Console.Document

/-!
# What is printed for a curve reads back

Every point of a curve has a finite abscissa, and its ordinate is finite or, at a gap, the one NaN
that stands for it. No number has a tab or a line end in it, so the text falls apart into the lines
and fields it was made of, and every field into the number that it stands for. As JSON a gap is
`null`, and all other numbers are themselves.

* `Sample.Proper`: what is known of a point of a curve.
* `Shows`: a line shows a point. It holds one tab. What is in front of it reads back to the
  abscissa, and what is behind it is empty exactly at a gap and else reads back to the ordinate.
* `sample?`, `samples?`: the points in a value of JSON, by their fields `x` and `y`. They know of
  the values read by `Proofs/Console/Reader` only, and of nothing that was written.

A number reads back by `Double.read?`, to the same double and not only to a near one.

Results:
* `proper_of_curve`: the numbers of a curve.
* `shows_pointText`: the line of a point.
* `samples?_content`: the points of a curve that was read as JSON.
* `runPlot_reads`: both forms hold the whole curve, with one line for each point and no other.

How a span that is refused is reported is in `Console/Report`; the points themselves are
`Proofs/Curve` and `Proofs/Abscissas`.
-/

namespace Abacus

/-! ## The numbers of a curve -/

/-- The abscissa is finite, and the ordinate is finite or the NaN of a gap. -/
structure Sample.Proper (p : Sample) : Prop where
  abscissa : p.x.isFinite = true
  ordinate : p.y.isFinite = true ∨ p.y = Double.nan

variable {source : String} {s : Span} {samples : List Sample} {p : Sample}

theorem Sample.Proper.isFinite (h : p.Proper) (hgap : p.isGap = false) : p.y.isFinite = true := by
  refine h.ordinate.resolve_right fun hnan => ?_
  rw [isGap, hnan, Double.isNaN_nan] at hgap
  cases hgap

theorem Entry.sampleAt_proper (e : Entry) {x : Float} (hx : x.isFinite = true) :
    (e.sampleAt x).Proper := by
  refine ⟨(e.sampleAt_x x).symm ▸ hx, ?_⟩
  unfold sampleAt
  split
  · dsimp only
    split
    · rename_i h
      exact .inl h
    · exact .inr rfl
  · exact .inr rfl

/-- A curve has as many points as it should, and their numbers are finite or stand for a gap. -/
theorem proper_of_curve (h : curve source s = .ok samples) :
    samples.length = s.points ∧ ∀ p ∈ samples, p.Proper := by
  rcases curve_cases source s with ⟨-, hc⟩ | ⟨-, -, hc⟩ | ⟨-, -, hc⟩ |
    ⟨hproper, hlow, hhigh, ⟨err, -, hc⟩ | ⟨t, -, hparse, -, -⟩⟩
  · cases h.symm.trans hc
  · cases h.symm.trans hc
  · cases h.symm.trans hc
  · cases h.symm.trans hc
  · have hcheck : s.check = .ok () := by
      rw [Span.check_of_proper hproper, if_neg (by omega), if_neg (by omega)]
    have hread : Entry.read (.inVariable abscissa) source = .ok ⟨source, t, some abscissa⟩ :=
      Except.bind_of_ok hparse _
    rw [curve_of_read hcheck hread] at h
    cases h
    rw [List.length_map, Span.length_abscissas, List.forall_mem_map]
    exact ⟨rfl, fun x hx =>
      Entry.sampleAt_proper _ ((Span.abscissas_spec hproper hlow hhigh).1 x hx).1⟩

namespace Console

/-! ## Lines -/

/-- Texts with a line end behind each of them are split at the line ends. -/
theorem splitOn_lines {α : Type} {f : α → List Char} {as : List α} (h : ∀ a ∈ as, '\n' ∉ f a) :
    (as.flatMap fun a => f a ++ ['\n']).splitOn '\n' = as.map f ++ [[]] := by
  induction as with
  | nil => rfl
  | cons a as ih =>
    obtain ⟨ha, has⟩ := List.forall_mem_cons.mp h
    rw [List.flatMap_cons, List.append_assoc, List.singleton_append,
      List.splitOn_append_cons_self_of_not_mem ha, ih has, List.map_cons, List.cons_append]

/-- What stands behind the tab. -/
def ordinateText (p : Sample) : List Char := if p.isGap then [] else plain.write p.y

/-- The line of a point without its end. -/
def pointText (p : Sample) : List Char := plain.write p.x ++ '\t' :: ordinateText p

/-- The line has one tab. The abscissa reads back from in front of it; behind it there is nothing if
the point is a gap, and otherwise a finite ordinate reads back. -/
def Shows (line : List Char) (p : Sample) : Prop :=
  ∃ x y, line.splitOn '\t' = [x, y] ∧ Double.read? (String.ofList x) = some p.x ∧
    (y = [] ↔ p.isGap = true) ∧
    (y ≠ [] → Double.read? (String.ofList y) = some p.y ∧ p.y.isFinite = true)

/-- A written number has no separator in it. -/
theorem not_mem_plain {x : Float} (hx : x.isFinite = true) {c : Char} (hc : Json.isSpace c = true) :
    c ∉ plain.write x := by
  intro h
  have hbare := Json.isBare_of_numeralChar (plain.numeralChar_write hx h)
  rw [Json.isBare_of_isSpace hc] at hbare
  cases hbare

/-- **The line of a point shows it**, and is a single line. -/
theorem shows_pointText (h : p.Proper) : Shows (pointText p) p ∧ '\n' ∉ pointText p := by
  have hx {c : Char} (hc : Json.isSpace c = true) := not_mem_plain h.abscissa hc
  cases hgap : p.isGap with
  | true =>
    have hy : ordinateText p = [] := if_pos hgap
    have htext : pointText p = plain.write p.x ++ ['\t'] := by rw [pointText, hy]
    refine ⟨⟨_, [], ?_, plain.read_text h.abscissa, iff_of_true rfl hgap, fun h => absurd rfl h⟩,
      ?_⟩
    · rw [htext, List.splitOn_append_cons_self_of_not_mem (hx rfl), List.splitOn_nil]
    · rw [htext, List.mem_append]
      exact not_or.mpr ⟨hx rfl, by decide⟩
  | false =>
    have hfin := h.isFinite hgap
    have htext : pointText p = plain.write p.x ++ '\t' :: plain.write p.y := by
      rw [pointText, ordinateText, hgap, if_neg Bool.false_ne_true]
    refine ⟨⟨_, _, ?_, plain.read_text h.abscissa, ?_, fun _ => ⟨plain.read_text hfin, hfin⟩⟩, ?_⟩
    · rw [htext, List.splitOn_append_cons_self_of_not_mem (hx rfl),
        List.splitOn_eq_singleton (not_mem_plain hfin rfl)]
    · rw [hgap]
      exact iff_of_false (plain.write_ne_nil hfin) Bool.false_ne_true
    · rw [htext, List.mem_append, List.mem_cons]
      exact not_or.mpr ⟨hx rfl, not_or.mpr ⟨by decide, not_mem_plain hfin rfl⟩⟩

/-! ## Records -/

namespace Json

namespace Value

/-- A coordinate; `null` is NaN. -/
def coordinate? : Value → Option Float
  | .number x => some x
  | .null => some Double.nan
  | _ => none

/-- A point with the fields `x` and `y`. -/
def sample? : Value → Option Sample
  | .record fields => do
    let x ← (fields.lookup "x").bind coordinate?
    let y ← (fields.lookup "y").bind coordinate?
    some ⟨x, y⟩
  | _ => none

/-- The points of a curve. -/
def samples? : Value → Option (List Sample)
  | .list items => items.mapM sample?
  | _ => none

end Value

/-- A number that is finite or NaN is read as itself. -/
theorem coordinate?_content {x : Float} (h : x.isFinite = true ∨ x = Double.nan) :
    (content (.number x)).coordinate? = some x := by
  rcases h with h | rfl
  · rw [content, if_pos h]
    rfl
  · rfl

/-- A point that was read as JSON is the point. -/
theorem sample?_content (h : p.Proper) :
    (content (.record [("x", .number p.x), ("y", .number p.y)])).sample? = some p := by
  have hx := coordinate?_content (.inl h.abscissa)
  have hy := coordinate?_content h.ordinate
  rw [content, fieldContents_eq]
  change ((content (.number p.x)).coordinate?.bind fun x =>
    (content (.number p.y)).coordinate?.bind fun y => some ⟨x, y⟩) = some p
  rw [hx, hy]
  rfl

/-- The points of a curve that was read as JSON are its points. -/
theorem samples?_content (h : ∀ p ∈ samples, p.Proper) :
    (curveJson samples).content.samples? = some samples := by
  rw [curveJson, content, itemContents_eq, Value.samples?]
  induction samples with
  | nil => rfl
  | cons p samples ih =>
    obtain ⟨hp, hrest⟩ := List.forall_mem_cons.mp h
    have hpoint := sample?_content hp
    rw [List.map_cons, List.map_cons, List.mapM_cons, hpoint, ih hrest]
    rfl

end Json

/-! ## Both forms -/

/-- **Nothing of a curve is lost when it is printed.** The text has a line for each of its points,
which shows it. As JSON, with `null` for NaN, the same points are read. -/
theorem runPlot_reads (h : curve source s = .ok samples) :
    (∃ lines, (runPlot source s false).stdout.toList.splitOn '\n' = lines ++ [[]] ∧
      lines.length = s.points ∧ List.Forall₂ Shows lines samples) ∧
    (Json.read? (runPlot source s true).stdout).bind Json.Value.samples? = some samples := by
  obtain ⟨hlength, hproper⟩ := proper_of_curve h
  have hprinted (json : Bool) : runPlot source s json =
      if json then .line (curveJson samples).document else .printed (curveText samples) := by
    rw [runPlot, h]
  constructor
  · refine ⟨samples.map pointText, ?_, (List.length_map _).trans hlength, ?_⟩
    · rw [hprinted, if_neg Bool.false_ne_true, Outcome.printed, curveText, String.toList_ofList]
      exact splitOn_lines fun p hp => (shows_pointText (hproper p hp)).2
    · rw [List.forall₂_map_left_iff, List.forall₂_same]
      exact fun p hp => (shows_pointText (hproper p hp)).1
  · rw [hprinted, if_pos rfl, Outcome.line, Outcome.printed, Json.read?_document _ (by decide),
      Option.bind_some, Json.samples?_content hproper]

/-- The reciprocal with its gap. -/
theorem runPlot_reads_reciprocal :
    (runPlot "1/x" ⟨-1, 1, 3⟩ false).stdout = "-1\t-1\n0\t\n1\t1\n" ∧
      ∃ samples, curve "1/x" ⟨-1, 1, 3⟩ = .ok samples ∧
        samples.map Sample.isGap = [false, true, false] ∧
        (∃ lines, (runPlot "1/x" ⟨-1, 1, 3⟩ false).stdout.toList.splitOn '\n' = lines ++ [[]] ∧
          lines.length = 3 ∧ List.Forall₂ Shows lines samples) ∧
        (Json.read? (runPlot "1/x" ⟨-1, 1, 3⟩ true).stdout).bind Json.Value.samples? =
          some samples := by
  refine ⟨by decide +kernel, ?_⟩
  have hgaps : (curve "1/x" ⟨-1, 1, 3⟩).toOption.map (List.map Sample.isGap) =
      some [false, true, false] := by
    decide +kernel
  cases hcurve : curve "1/x" ⟨-1, 1, 3⟩ with
  | error e =>
    rw [hcurve] at hgaps
    cases hgaps
  | ok samples =>
    rw [hcurve] at hgaps
    obtain ⟨htext, hjson⟩ := runPlot_reads hcurve
    exact ⟨samples, rfl, Option.some.inj hgaps, htext, hjson⟩

end Console

end Abacus
