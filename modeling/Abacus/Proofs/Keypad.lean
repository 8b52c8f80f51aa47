import Abacus.Keypad
import Abacus.Proofs.Double.Places
import Abacus.Proofs.Term.Numbers

/-!
# A displayed number stands for itself

What the display shows can be entered again, and the display does not change. The number is read
back as the double that was shown, and rounding that double to the decimals of the display gives it
again.

The second rounding is the point of the argument. A value is rounded to ten decimals, and the
decimal is rounded to a double, which is a different number. Where the doubles stand closer together
than the decimals, that double has the decimal it came from; where they do not, the decimal of a
double reads back to the double. `Proofs/Double/Places` has both cases.

* `rounded_again`: rounding a rounded double changes nothing.
* `exists_stands_for`: a text that is shown is the plain text of a double, and that double is shown
  the same way. A negative one is a sign and a number, so it is read as an operation.
* `display_of_shown`: the text of a number is displayed as it stands.
* `display_again`: so is whatever number is displayed, and every finite double has such a text.

The two fixed texts are not numbers, and entering them again is not covered: they hold letters,
which are not on the keypad.
-/

namespace Abacus.Keypad

open Float.Model.UnpackedFloat Double

variable {v : Exact} {x : Float} {d keys : String} {m₀ m : Nat} {e₀ e : Int}

/-! ## Rounding twice -/

/-- The doubles stand closer together than the decimals of the display, or farther apart. -/
theorem unit_apart (e : Int) :
    2 ^ e * 10 ^ places < (1 : ℚ) ∨ (1 : ℚ) < 2 ^ e * 10 ^ places := by
  have hten : (0 : ℚ) < 10 ^ places := by positivity
  rcases le_or_gt e (-34) with he | he
  · refine .inl ((mul_le_mul_of_nonneg_right (unit_le he) hten.le).trans_lt ?_)
    norm_num [places]
  · have he : -33 ≤ e := by omega
    refine .inr (lt_of_lt_of_le ?_ (mul_le_mul_of_nonneg_right (unit_le he) hten.le))
    norm_num [places]

/-- The double that the decimal of a double is read as is the one that its own decimal is read
as. -/
theorem nearest_again {n r : Nat} (h : Nearest (n / 10 ^ places) m e)
    (hr : HalfEven (point m e * 10 ^ places) r) : Nearest (r / 10 ^ places) m e := by
  rcases unit_apart e with hfine | hcoarse
  · rwa [eq_of_fine h hfine hr]
  · exact nearest_of_coarse h.canonical hcoarse (by norm_num [places]) hr

/-- The decimal of a finite double is not read as an infinity. -/
theorem exponent_le_of_nearest {r : Nat} (h₀ : Canonical m₀ e₀) (he₀ : e₀ ≤ 971)
    (hr : HalfEven (point m₀ e₀ * 10 ^ places) r) (h : Nearest (r / 10 ^ places) m e) :
    e ≤ 971 := by
  rcases unit_apart e₀ with hfine | hcoarse
  -- a double among finer ones is far from the greatest, and so is its decimal
  · have hmant : (m₀ : ℚ) < (2 ^ 53 : Nat) := by exact_mod_cast h₀.lt
    have hle : r ≤ 2 ^ 53 := by
      refine hr.le_of_lt (lt_of_le_of_lt ?_ hmant)
      rw [point, mul_assoc]
      exact mul_le_of_le_one_right (Nat.cast_nonneg m₀) hfine.le
    have hbig : Canonical (2 ^ 52) 1 := ⟨by decide, by decide, .inl le_rfl⟩
    refine h.exponent_le (lt_of_le_of_lt ?_ (hbig.nearest_self.lt_overflow (by decide)))
    calc (r : ℚ) / 10 ^ places ≤ r := div_le_self (Nat.cast_nonneg r) (by norm_num [places])
      _ ≤ (2 ^ 53 : Nat) := by exact_mod_cast hle
      _ = point (2 ^ 52) 1 := by norm_num [point]
  · have hself := nearest_of_coarse h₀ hcoarse (by norm_num [places]) hr
    rw [(h.unique hself).2]
    exact he₀

/-- The decimal of a value, and the double that it is read as. -/
theorem exists_nearest_rounded (v : Exact) :
    ∃ r m e, HalfEven (point v.mantissa v.exponent * 10 ^ places) r ∧
      Nearest (r / 10 ^ places) m e ∧
      (Decimal.rounded places v).toFloat = ofPoint .positive m e := by
  obtain ⟨m, e, hn, hx⟩ := (Decimal.rounded places v).toFloat_nearest
  rw [Decimal.rounded, Decimal.value_neg] at hn
  exact ⟨_, m, e, Decimal.rounded_halfEven places v, hn, hx⟩

/-- The sign of a value. -/
def sign (v : Exact) : Sign := if v.negative then .negative else .positive

theorem rounded_eq (h : Canonical m e) (he : e ≤ 971)
    (hv : (Decimal.rounded places v).toFloat = ofPoint .positive m e) :
    rounded v = ofPoint (sign v) m e := by
  unfold rounded sign
  dsimp only
  rw [hv]
  split
  · exact neg_ofPoint .positive h he
  · rfl

/-- A finite double is rounded to the finite double nearest to its decimal. -/
theorem exists_rounded (hx : Exact.of? x = some v) :
    ∃ r m e, HalfEven (point v.mantissa v.exponent * 10 ^ places) r ∧
      Nearest (r / 10 ^ places) m e ∧ e ≤ 971 ∧ rounded v = ofPoint (sign v) m e := by
  obtain ⟨s, m₀, e₀, h₀, he₀, rfl⟩ := exists_ofPoint hx
  rw [exact_ofPoint s h₀ he₀] at hx
  cases hx
  obtain ⟨r, m, e, hr, hn, hv⟩ :=
    exists_nearest_rounded ⟨s == .negative, m₀, if m₀ = 0 then 0 else e₀⟩
  have hhalf := hr
  rw [point_exact] at hr
  have he := exponent_le_of_nearest h₀ he₀ hr hn
  exact ⟨r, m, e, hhalf, hn, he, rounded_eq hn.canonical he hv⟩

/-- **Rounding a rounded double to the decimals of the display changes nothing.** -/
theorem rounded_again (hx : Exact.of? x = some v) :
    ∃ w, Exact.of? (rounded v) = some w ∧ rounded w = rounded v := by
  obtain ⟨n, m, e, -, hn, he, hv⟩ := exists_rounded hx
  rw [hv]
  refine ⟨_, exact_ofPoint _ hn.canonical he, ?_⟩
  obtain ⟨r, m', e', hr, hn', hw⟩ :=
    exists_nearest_rounded ⟨sign v == .negative, m, if m = 0 then 0 else e⟩
  rw [point_exact] at hr
  obtain ⟨rfl, rfl⟩ := hn'.unique (nearest_again hn hr)
  rw [rounded_eq hn.canonical he hw]
  unfold sign
  cases v.negative <;> rfl

/-! ## What is displayed -/

/-- The number that the display stands for: a zero without sign, or the rounded double. -/
theorem exists_stands_for (h : shown? x = some d) :
    ∃ y, y.isFinite = true ∧ d = plain.text y ∧ shown? y = some d := by
  obtain ⟨v, hv, rfl⟩ := Option.map_eq_some_iff.mp h
  obtain ⟨w, hw, hagain⟩ := rounded_again hv
  dsimp only
  by_cases hzero : (rounded v == 0) = true
  · rw [if_pos hzero]
    exact ⟨0, by decide +kernel, by decide +kernel, by decide +kernel⟩
  · rw [if_neg hzero]
    refine ⟨rounded v, ?_, rfl, ?_⟩
    · obtain ⟨r, m, e, -, hn, he, hrounded⟩ := exists_rounded hv
      rw [hrounded]
      exact isFinite_ofPoint _ hn.canonical he
    · rw [shown?, hw, Option.map_some, hagain]
      exact congrArg some (if_neg hzero)

theorem display_of_value {entry : Entry} (hkeys : isBlankText keys.toList = false)
    (hread : Entry.read .keypad keys = .ok entry) (hx : entry.evaluate = .ok x) :
    display keys = (shown? x).getD mathError := by
  unfold display
  rw [hkeys, if_neg Bool.false_ne_true, hread]
  dsimp only
  rw [hx]

/-- The display is one of the two fixed texts or the text of a number. -/
theorem display_cases (keys : String) :
    display keys = invalidInput ∨ display keys = mathError ∨
      ∃ x, shown? x = some (display keys) := by
  have hzero : shown? 0 = some "0" := by decide +kernel
  cases hkeys : isBlankText keys.toList with
  | true => exact .inr (.inr ⟨0, by rw [display, if_pos hkeys, hzero]⟩)
  | false =>
    cases hread : Entry.read .keypad keys with
    | error error =>
      unfold display
      rw [hkeys, if_neg Bool.false_ne_true, hread]
      split
      · exact .inl rfl
      · exact .inr (.inl rfl)
      · contradiction
    | ok entry =>
      cases hx : entry.evaluate with
      | error error =>
        unfold display
        rw [hkeys, if_neg Bool.false_ne_true, hread]
        dsimp only
        rw [hx]
        exact .inr (.inl rfl)
      | ok x =>
        rw [display_of_value hkeys hread hx]
        cases hshown : shown? x with
        | none => exact .inr (.inl rfl)
        | some d => exact .inr (.inr ⟨x, hshown⟩)

/-- **The text of a number is displayed as it stands.** -/
theorem display_of_shown (h : shown? x = some d) : display d = d := by
  obtain ⟨y, hfin, rfl, hy⟩ := exists_stands_for h
  obtain ⟨c, cs, hwrite, hblank⟩ := exists_plain_write hfin
  obtain ⟨-, t, ht, hvalue⟩ := Term.exists_parse_plain .keypad hfin
  have hkeys : isBlankText (plain.text y).toList = false := by
    rw [Layout.text, String.toList_ofList, hwrite]
    exact Bool.and_eq_false_iff.mpr (.inl hblank)
  have hread : Entry.read .keypad (plain.text y) = .ok ⟨plain.text y, t, none⟩ :=
    Except.bind_of_ok ht _
  rw [display_of_value hkeys hread (hvalue none), hy]
  rfl

/-- **A displayed number evaluates to itself.** Whatever keys led to it, entering it shows it again;
and every finite double has a text that is written on the keypad, is read, and is the text of its
own value. -/
theorem display_again :
    (∀ keys, display keys ≠ mathError → display keys ≠ invalidInput →
      display (display keys) = display keys) ∧
    ∀ x : Float, x.isFinite = true → ∃ d, shown? x = some d ∧
      Alphabet.keypad.permits d.toList = true ∧
      ∃ t y, Term.parse .keypad d = .ok t ∧ t.evaluate none = .ok y ∧ shown? y = some d := by
  refine ⟨fun keys herror hinvalid => ?_, fun x hfin => ?_⟩
  · rcases display_cases keys with h | h | ⟨x, hx⟩
    · exact absurd h hinvalid
    · exact absurd h herror
    · exact display_of_shown hx
  · obtain ⟨v, hv⟩ := exists_exact hfin
    have hshown : ∃ d, shown? x = some d := ⟨_, by rw [shown?, hv, Option.map_some]⟩
    obtain ⟨d, hd⟩ := hshown
    obtain ⟨y, hy, rfl, hagain⟩ := exists_stands_for hd
    obtain ⟨hpermits, t, ht, hvalue⟩ := Term.exists_parse_plain .keypad hy
    refine ⟨_, hd, ?_, t, y, ht, hvalue none, hagain⟩
    rwa [Layout.text, String.toList_ofList]

/-- A periodic fraction is shown with its rounded decimals, and then as they stand; a negative
number too small for them is shown as zero. -/
theorem display_again_third :
    display "-1/3" = "-0.3333333333" ∧ display "-0.3333333333" = "-0.3333333333" ∧
      ∃ d, shown? (-1e-11) = some d ∧ d = "0" ∧
        ∃ t y, Term.parse .keypad d = .ok t ∧ t.evaluate none = .ok y ∧ shown? y = some d := by
  have hthird : display "-1/3" = "-0.3333333333" := by decide +kernel
  obtain ⟨hkeys, hfinite⟩ := display_again
  have hagain := hkeys "-1/3" (by rw [hthird]; decide) (by rw [hthird]; decide)
  rw [hthird] at hagain
  obtain ⟨d, hd, -, hread⟩ := hfinite (-1e-11) (by decide +kernel)
  have hzero : shown? (-1e-11) = some "0" := by decide +kernel
  rw [hzero] at hd
  cases hd
  exact ⟨hthird, hagain, "0", hzero, rfl, hread⟩

end Abacus.Keypad
