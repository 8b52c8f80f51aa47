import Abacus.Proofs.Decimal.Form
import Abacus.Proofs.Double.Fewest
import Abacus.Proofs.Double.Signs

/-!
# Every layout reads back

A layout chooses between the positional and the scientific form. Both are numerals of the decimal
that is written, and both have a digit on either side of a point and no superfluous zero in front.

* `Strict`: numerals of this form, which are those of JSON without a sign.
* `exponentText`: the exponent of the scientific form.

Which of the two forms a layout chooses depends on the size of the number and is no matter here: the
value is the same. That the value reads back to the double is in the choice of the digits, which are
those of the shortest decimal (`Proofs/Double/Shortest`).

Results:
* `Layout.spells_magnitude`: a written decimal is a numeral of the same value.
* `Layout.strict_magnitude`: it is a strict one.
* `Layout.write_spec`: a finite double is written as a strict numeral with or without a minus sign.
* `Layout.read_text`: a finite double reads back from its text, in every layout.

The plain layout has no scientific form. That its text is a significand, as tokens need it, is
`Proofs/Decimal/Writing`.
-/

namespace Abacus

variable {cs w p t : List Char} {d : Decimal} {c : Char}

/-! ## Strict numerals -/

/-- An integer part without superfluous zeros, and behind it nothing, a point with a digit behind
it, or an exponent. -/
inductive Strict : List Char → Prop
  | mk {w t : List Char} (hw : Whole w) (ht : ∀ c ∈ t.head?, c.isDigit = false)
      (hp : ∀ p, t = '.' :: p → ∃ c ∈ p.head?, c.isDigit = true) : Strict (w ++ t)

namespace Strict

theorem of_whole (h : Whole w) : Strict w := by
  have := Strict.mk h (t := []) nofun nofun
  rwa [List.append_nil] at this

theorem of_exponent (h : Whole w) (hc : isExponentMark c = true) : Strict (w ++ c :: t) := by
  obtain ⟨hdigit, hpoint⟩ := not_isDigit_of_isExponentMark hc
  refine .mk h (fun a ha => ?_) fun p hp => absurd (List.cons.inj hp).1 hpoint
  cases ha
  exact hdigit

theorem of_point (h : Whole w) (hp : AllDigits p) (hne : p ≠ []) :
    Strict (w ++ '.' :: (p ++ t)) := by
  refine .mk h (fun a ha => ?_) fun q hq => ?_
  · cases ha
    rfl
  · obtain ⟨-, rfl⟩ := List.cons.inj hq
    obtain ⟨c, p, rfl⟩ := List.exists_cons_of_ne_nil hne
    exact ⟨c, rfl, hp c List.mem_cons_self⟩

/-- A strict numeral begins with a digit. -/
theorem exists_cons (h : Strict cs) : ∃ c r, cs = c :: r ∧ c.isDigit = true := by
  obtain @⟨w, t, hw, -, -⟩ := h
  obtain ⟨c, w, rfl⟩ := List.exists_cons_of_ne_nil hw.ne_nil
  exact ⟨c, w ++ t, rfl, hw.digits c List.mem_cons_self⟩

end Strict

/-! ## Decimals -/

namespace Decimal

/-- The positional form is strict, unless zeros are written behind a zero. -/
theorem strict_positional (hd : d.digits = 0 → d.exponent = 0) (pointZero : Bool) :
    Strict (d.positional pointZero) := by
  obtain ⟨n, e⟩ := d
  dsimp only at hd
  unfold positional
  dsimp only
  split
  · have hwhole : Whole (Nat.toDigits 10 n ++ List.replicate e.toNat '0') := by
      by_cases hn : n = 0
      · rw [hd hn]
        exact (List.append_nil _).symm ▸ whole_toDigits n
      · exact whole_append_zeros hn _
    cases pointZero with
    | false =>
      rw [if_neg Bool.false_ne_true, List.append_nil]
      exact .of_whole hwhole
    | true => exact .of_point hwhole (allDigits_zeros 1) (List.cons_ne_nil _ _)
  · obtain ⟨w, p, happ, hw, hp, hset⟩ := exists_setPoint (-e).toNat (Nat.toDigits 10 n)
    have hall : AllDigits (w ++ p) := happ ▸ allDigits_leftpad _ _
    have hne : p ≠ [] := List.length_pos_iff.mp (by omega)
    rw [← hp] at happ
    have := Strict.of_point (t := []) (whole_of_setPoint happ hw)
      (fun c hc => hall c (List.mem_append_right w hc)) hne
    rwa [hset, ← List.append_nil p]

/-- The exponent of the scientific form. -/
def exponentText (d : Decimal) : List Char :=
  'e' :: (if d.leading < 0 then '-' else '+') :: Nat.toDigits 10 d.leading.natAbs

theorem exponentPart_exponentText (d : Decimal) : ExponentPart d.exponentText d.leading := by
  have hdigits := allDigits_toDigits d.leading.natAbs
  have hvalue : Nat.ofDigitChars 10 (Nat.toDigits 10 d.leading.natAbs) 0 = d.leading.natAbs :=
    Nat.ofDigitChars_ten_toDigits
  unfold exponentText
  split
  · have h := ExponentPart.minus (c := 'e') rfl hdigits Nat.toDigits_ne_nil
    rw [hvalue] at h
    convert h using 1
    omega
  · have h := ExponentPart.plus (c := 'e') rfl hdigits Nat.toDigits_ne_nil
    rw [hvalue] at h
    convert h using 1
    omega

/-- The scientific form is a strict numeral of the decimal. -/
theorem scientific_spec (d : Decimal) : Spells d.scientific d ∧ Strict d.scientific := by
  obtain ⟨n, e⟩ := d
  have hexp := exponentPart_exponentText ⟨n, e⟩
  have hall := allDigits_toDigits n
  have hvalue : Nat.ofDigitChars 10 (Nat.toDigits 10 n) 0 = n := Nat.ofDigitChars_ten_toDigits
  have hleading : leading ⟨n, e⟩ = (Nat.toDigits 10 n).length - 1 + e := rfl
  obtain ⟨first, rest, hds⟩ := List.exists_cons_of_ne_nil (Nat.toDigits_ne_nil (n := n) (b := 10))
  have hexponent : leading ⟨n, e⟩ - (rest.length : Nat) = e := by
    rw [hleading, hds, List.length_cons]
    omega
  rw [hds] at hall hvalue
  obtain ⟨hfirst, hrest⟩ := List.forall_mem_cons.mp hall
  have hone : AllDigits [first] := List.forall_mem_singleton.mpr hfirst
  cases rest with
  | nil =>
    have hwrite : scientific ⟨n, e⟩ = [first] ++ exponentText ⟨n, e⟩ := by
      unfold scientific
      rw [hds]
      rfl
    have h := Spells.mk (.whole hone (List.cons_ne_nil _ _)) hexp
    replace hexponent : leading ⟨n, e⟩ - (0 : Nat) = e := hexponent
    rw [hvalue, hexponent] at h
    rw [hwrite]
    exact ⟨h, .of_exponent (.of_length hone rfl) rfl⟩
  | cons second rest =>
    have hwrite : scientific ⟨n, e⟩ =
        [first] ++ '.' :: (second :: rest) ++ exponentText ⟨n, e⟩ := by
      unfold scientific
      rw [hds]
      rfl
    have h := Spells.mk (.point hone hrest (List.cons_ne_nil _ _)) hexp
    rw [List.singleton_append, List.singleton_append, hvalue, hexponent] at h
    rw [hwrite]
    exact ⟨h, .of_point (.of_length hone rfl) hrest (List.cons_ne_nil _ _)⟩

end Decimal

/-! ## Layouts -/

namespace Layout

open Double

/-- A written decimal is a numeral of the same value. -/
theorem spells_magnitude (l : Layout) (d : Decimal) :
    ∃ d', Spells (l.magnitude d) d' ∧ d'.value = d.value := by
  have hpositional : ∃ d', Spells (d.positional l.pointZero) d' ∧ d'.value = d.value := by
    obtain ⟨digits, places, hsig, hvalue⟩ := d.spells_positional l.pointZero
    have h := Spells.mk hsig .absent
    rw [List.append_nil, Int.zero_sub] at h
    exact ⟨_, h, hvalue⟩
  unfold magnitude
  split
  · exact hpositional
  · split
    · exact hpositional
    · exact ⟨d, d.scientific_spec.1, rfl⟩

/-- A written decimal is strict, unless zeros are written behind a zero. -/
theorem strict_magnitude (l : Layout) (hd : d.digits = 0 → d.exponent = 0) :
    Strict (l.magnitude d) := by
  unfold magnitude
  split
  · exact Decimal.strict_positional hd _
  · split
    · exact Decimal.strict_positional hd _
    · exact d.scientific_spec.2

variable {x : Float} {m : Nat} {e : Int}

/-- **A finite double without sign is written as a strict numeral that reads back to it.** -/
theorem write_unsigned (l : Layout) (hfin : x.isFinite = true) (hx : Unsigned x) :
    ∃ d, Spells (l.write x) d ∧ Strict (l.write x) ∧ d.toFloat = x := by
  obtain ⟨v, hv⟩ := exists_exact hfin
  have hs := hx v hv
  have hwrite : l.write x = l.magnitude (.shortest l.tie v) := by
    unfold write
    rw [hv]
    dsimp only
    rw [hs]
    rfl
  obtain ⟨d, hspells, hvalue⟩ := l.spells_magnitude (.shortest l.tie v)
  rw [hwrite]
  exact ⟨d, hspells, l.strict_magnitude (Decimal.exponent_of_digits_zero l.tie v),
    Decimal.toFloat_of_value hv hs hvalue⟩

/-- A negative double is written as a minus sign and its magnitude. -/
theorem write_negative (l : Layout) (h : Canonical m e) (he : e ≤ 971) :
    l.write (ofPoint .negative m e) = '-' :: l.write (ofPoint .positive m e) := by
  unfold write
  rw [exact_ofPoint .negative h he, exact_ofPoint .positive h he]
  rfl

/-- **A finite double is written as a strict numeral with or without a minus sign**, and is the
value of the numeral with or without the sign. -/
theorem write_spec (l : Layout) (hfin : x.isFinite = true) :
    ∃ cs d, Spells cs d ∧ Strict cs ∧
      (l.write x = cs ∧ x = d.toFloat ∨ l.write x = '-' :: cs ∧ x = -d.toFloat) := by
  obtain ⟨v, hv⟩ := exists_exact hfin
  obtain ⟨sign, m, e, hc, he, rfl⟩ := exists_ofPoint hv
  obtain ⟨d, hspells, hstrict, hd⟩ :=
    l.write_unsigned (isFinite_ofPoint .positive hc he) (unsigned_ofPoint hc he)
  refine ⟨_, d, hspells, hstrict, ?_⟩
  rw [hd]
  cases sign with
  | positive => exact .inl ⟨rfl, rfl⟩
  | negative => exact .inr ⟨l.write_negative hc he, (neg_ofPoint .positive hc he).symm⟩

end Layout

/-! ## Numbers -/

/-- Digits have no case. -/
theorem toLower_of_isDigit (h : c.isDigit = true) : c.toLower = c := by
  refine dif_neg fun hupper => ?_
  unfold Char.isDigit at h
  rw [Bool.and_eq_true, decide_eq_true_iff, decide_eq_true_iff] at h
  exact absurd (UInt32.le_trans hupper.1 h.2) (by decide)

/-- A number that is not written as a name is read as a numeral behind its sign. -/
theorem Double.read?_eq {s : String} (h : ∀ name ∈ ["inf", "infinity", "nan"],
    String.ofList ((splitSign s.toList).2.map Char.toLower) ≠ name) :
    Double.read? s = (Decimal.read? (splitSign s.toList).2).map fun d =>
      if (splitSign s.toList).1 then -d.toFloat else d.toFloat := by
  obtain ⟨hinf, hinfinity, hnan, -⟩ : _ ∧ _ ∧ _ ∧ True := by simpa using h
  unfold Double.read?
  generalize splitSign s.toList = p at *
  obtain ⟨minus, body⟩ := p
  refine (congrArg (Option.map fun x : Float => if minus then -x else x) ?_).trans
    (Option.map_map _ Decimal.toFloat _)
  dsimp only at *
  split
  · contradiction
  · contradiction
  · contradiction
  · rfl

/-- A strict numeral is read as its value, and as the negative of it behind a minus sign. -/
theorem read?_of_strict (hs : Spells cs d) (h : Strict cs) :
    Double.read? (String.ofList cs) = some d.toFloat ∧
      Double.read? (String.ofList ('-' :: cs)) = some (-d.toFloat) := by
  obtain ⟨c, r, rfl, hc⟩ := h.exists_cons
  have hread := Decimal.read?_of_spells hs
  have hname : ∀ name ∈ ["inf", "infinity", "nan"],
      String.ofList ((c :: r).map Char.toLower) ≠ name := by
    have hheads : ["inf", "infinity", "nan"].all
        (fun name => name.toList.head?.all fun a => !a.isDigit) = true := by
      decide
    rintro name hmem rfl
    have hhead := List.all_eq_true.mp hheads _ hmem
    rw [String.toList_ofList, List.map_cons, List.head?_cons, Option.all_some,
      toLower_of_isDigit hc, hc] at hhead
    cases hhead
  have hplain : splitSign (String.ofList (c :: r)).toList = (false, c :: r) := by
    rw [String.toList_ofList]
    rcases splitSign_spec (c :: r) with ⟨-, hcs⟩ | ⟨-, hcs⟩ | h
    · obtain ⟨rfl, -⟩ := List.cons.inj hcs
      cases hc
    · obtain ⟨rfl, -⟩ := List.cons.inj hcs
      cases hc
    · exact h
  have hminus : splitSign (String.ofList ('-' :: c :: r)).toList = (true, c :: r) := by
    rw [String.toList_ofList]
    rfl
  constructor
  · rw [Double.read?_eq (by rwa [hplain]), hplain, hread]
    rfl
  · rw [Double.read?_eq (by rwa [hminus]), hminus, hread]
    rfl

namespace Layout

variable {x : Float}

/-- **A finite double reads back from its text**, in every layout. -/
theorem read_text (l : Layout) (hfin : x.isFinite = true) : Double.read? (l.text x) = some x := by
  obtain ⟨cs, d, hspells, hstrict, h⟩ := l.write_spec hfin
  obtain ⟨hplain, hminus⟩ := read?_of_strict hspells hstrict
  rcases h with ⟨hwrite, rfl⟩ | ⟨hwrite, rfl⟩
  · rw [text, hwrite, hplain]
  · rw [text, hwrite, hminus]

/-- The characters of the text of a finite double. -/
theorem numeralChar_write (l : Layout) (hfin : x.isFinite = true) (hc : c ∈ l.write x) :
    NumeralChar c := by
  obtain ⟨cs, d, hspells, -, h⟩ := l.write_spec hfin
  rcases h with ⟨hwrite, -⟩ | ⟨hwrite, -⟩
  · exact hspells.numeralChar (hwrite ▸ hc)
  · rw [hwrite, List.mem_cons] at hc
    rcases hc with rfl | hc
    · exact .inr (.inr (.inr (.inr rfl)))
    · exact hspells.numeralChar hc

theorem write_ne_nil (l : Layout) (hfin : x.isFinite = true) : l.write x ≠ [] := by
  obtain ⟨cs, d, -, hstrict, h⟩ := l.write_spec hfin
  obtain ⟨c, r, rfl, -⟩ := hstrict.exists_cons
  rcases h with ⟨hwrite, -⟩ | ⟨hwrite, -⟩ <;> rw [hwrite] <;> exact List.cons_ne_nil _ _

end Layout

end Abacus
