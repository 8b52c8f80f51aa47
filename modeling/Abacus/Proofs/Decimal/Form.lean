import Abacus.Proofs.Decimal.Writing

/-!
# The form of positional decimals

A positional decimal has no superfluous zero in front. Behind the point it has as many digits as its
exponent says, and the last of them is the last digit of the decimal.

* `Whole`: an integer part, digits with a zero in front only if nothing else is there.
* `Concise`: such a part, and perhaps a limited number of places that do not end in zero. There is
  no sign and no exponent in it, and no point without a place behind it.

A decimal whose digits do not end in zero has no more of them than its value needs. The shortest
decimal of a double is of this kind (`Decimal.digits_shortest`).

Results:
* `whole_of_setPoint`: no superfluous zero stands before the point.
* `Decimal.concise_positional`: the positional form of a decimal that does not end in zero.

Used for the form of shown values (`Proofs/Shown`).
-/

namespace Abacus

variable {n places : Nat} {w p : List Char}

/-! ## Integer parts -/

/-- Digits with a zero in front only if nothing else is there. -/
structure Whole (w : List Char) : Prop where
  digits : AllDigits w
  ne_nil : w ≠ []
  zero : w.head? = some '0' → w = ['0']

namespace Whole

theorem of_length (h : AllDigits w) (hlen : w.length = 1) : Whole w := by
  obtain ⟨c, rfl⟩ := List.length_eq_one_iff.mp hlen
  exact ⟨h, List.cons_ne_nil _ _, fun hc => congrArg (fun c => [c]) (Option.some.inj hc)⟩

/-- What stands in front in an integer part is one. -/
theorem of_append (h : Whole (w ++ p)) (hw : w ≠ []) : Whole w := by
  refine ⟨fun c hc => h.digits c (List.mem_append_left p hc), hw, fun hzero => ?_⟩
  have hboth : w ++ p = ['0'] := h.zero (by rw [List.head?_append, hzero]; rfl)
  rcases List.append_eq_singleton_iff.mp hboth with ⟨hnil, -⟩ | ⟨hone, -⟩
  · exact absurd hnil hw
  · exact hone

end Whole

/-- The digits of a number that is not zero do not begin with zero. -/
theorem head_toDigits (h : n ≠ 0) : (Nat.toDigits 10 n).head? ≠ some '0' := by
  induction n using Nat.strongRecOn with
  | ind n ih =>
    rcases Nat.lt_or_ge n 10 with hlt | hge
    · rw [Nat.toDigits_of_lt_base hlt]
      exact fun hzero => h (Nat.digitChar_eq_zero.mp (Option.some.inj hzero))
    · rw [Nat.toDigits_of_base_le (by decide) hge,
        List.head?_append_of_ne_nil _ Nat.toDigits_ne_nil]
      exact ih (n / 10) (by omega) (by omega)

/-- The last digit of a number is its remainder by ten. -/
theorem getLast_toDigits (n : Nat) :
    (Nat.toDigits 10 n).getLast? = some (Nat.digitChar (n % 10)) := by
  rcases Nat.lt_or_ge n 10 with hlt | hge
  · rw [Nat.toDigits_of_lt_base hlt, Nat.mod_eq_of_lt hlt]
    rfl
  · rw [Nat.toDigits_of_base_le (by decide) hge, List.getLast?_concat]

/-- The digits of a number are an integer part. -/
theorem whole_toDigits (n : Nat) : Whole (Nat.toDigits 10 n) := by
  refine ⟨allDigits_toDigits n, Nat.toDigits_ne_nil, fun hzero => ?_⟩
  by_cases h : n = 0
  · rw [h, Nat.toDigits_zero]
  · exact absurd hzero (head_toDigits h)

/-- Zeros behind the digits keep an integer part, unless the number is zero. -/
theorem whole_append_zeros (h : n ≠ 0) (k : Nat) :
    Whole (Nat.toDigits 10 n ++ List.replicate k '0') := by
  refine ⟨allDigits_append (allDigits_toDigits n) (allDigits_zeros k),
    List.append_ne_nil_of_left_ne_nil Nat.toDigits_ne_nil _, fun hzero => ?_⟩
  rw [List.head?_append_of_ne_nil _ Nat.toDigits_ne_nil] at hzero
  exact absurd hzero (head_toDigits h)

/-- **No superfluous zero stands before the point**: zeros are filled in only up to the first place
before it. -/
theorem whole_of_setPoint (h : w ++ p = (Nat.toDigits 10 n).leftpad (p.length + 1) '0')
    (hw : w ≠ []) : Whole w := by
  have hall : AllDigits (w ++ p) := h ▸ allDigits_leftpad _ _
  have hlen := congrArg List.length h
  rw [List.length_append, List.length_leftpad] at hlen
  rcases Nat.lt_or_ge p.length (Nat.toDigits 10 n).length with hlong | hshort
  · have hpad : w ++ p = Nat.toDigits 10 n := by
      rw [h, List.leftpad, Nat.sub_eq_zero_of_le hlong]
      rfl
    exact (hpad ▸ whole_toDigits n).of_append hw
  · exact .of_length (fun c hc => hall c (List.mem_append_left p hc)) (by omega)

/-! ## Positional forms -/

/-- An integer part, and perhaps a limited number of places that do not end in zero. -/
inductive Concise (places : Nat) : List Char → Prop
  | whole {w : List Char} : Whole w → Concise places w
  | point {w p : List Char} : Whole w → AllDigits p → p ≠ [] → p.length ≤ places →
      p.getLast? ≠ some '0' → Concise places (w ++ '.' :: p)

theorem Concise.minus_not_mem (h : Concise places w) : '-' ∉ w := by
  have hdigits {cs : List Char} (hcs : AllDigits cs) : '-' ∉ cs := fun hc => nomatch hcs _ hc
  cases h with
  | whole hw => exact hdigits hw.digits
  | point hw hp =>
    rw [List.mem_append, List.mem_cons]
    rintro (hc | hc | hc)
    · exact hdigits hw.digits hc
    · cases hc
    · exact hdigits hp hc

/-- **The positional form of a decimal that does not end in zero.** -/
theorem Decimal.concise_positional {d : Decimal} (hd : d.digits % 10 ≠ 0)
    (he : -(places : Int) ≤ d.exponent) : Concise places (d.positional false) := by
  obtain ⟨n, e⟩ := d
  dsimp only at hd he
  unfold positional
  dsimp only
  split
  · rw [if_neg Bool.false_ne_true, List.append_nil]
    refine .whole (whole_append_zeros ?_ _)
    rintro rfl
    exact hd rfl
  · rename_i hneg
    obtain ⟨w, p, happ, hw, hp, hset⟩ := exists_setPoint (-e).toNat (Nat.toDigits 10 n)
    have hall : AllDigits (w ++ p) := happ ▸ allDigits_leftpad _ _
    have hne : p ≠ [] := List.length_pos_iff.mp (by omega)
    rw [hset]
    rw [← hp] at happ
    refine .point (whole_of_setPoint happ hw) (fun c hc => hall c (List.mem_append_right w hc)) hne
      (by omega) ?_
    rw [← List.getLast?_append_of_ne_nil w hne, happ, List.leftpad,
      List.getLast?_append_of_ne_nil _ Nat.toDigits_ne_nil, getLast_toDigits]
    exact fun hzero => hd (Nat.digitChar_eq_zero.mp (Option.some.inj hzero))

end Abacus
