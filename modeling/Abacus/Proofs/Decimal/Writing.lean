import Abacus.Decimal.Layout
import Abacus.Proofs.Double.Shortest
import Abacus.Proofs.Token.Numeral

/-!
# A number reads back as it is written

The plain form of a number is positional, so it is a significand and nothing else: digits, or
digits around a point. It has the value of the decimal that is written, whatever zeros were
filled in on either side.

The statements are about spellings and the grammar of numerals (`Significand`), so they say more
than that the text is read back: neither an exponent mark nor a sign stands in it.

Results:
* `Decimal.spells_positional`: the positional form is a numeral without exponent, of the same value.
* `plain_reads`: a finite double without sign reads back from its plain form.

Used where numbers are written into expressions (`Proofs/Token/Writing`). The minus sign of a
negative number is a token of its own there, so only numbers without sign are looked at.
-/

namespace Abacus

/-! ## Digits -/

theorem allDigits_toDigits (n : Nat) : AllDigits (Nat.toDigits 10 n) :=
  fun _ hc => Nat.isDigit_of_mem_toDigits (by decide) (by decide) hc

theorem allDigits_zeros (k : Nat) : AllDigits (List.replicate k '0') := by
  intro c hc
  rw [List.eq_of_mem_replicate hc]
  rfl

/-- Zeros behind the digits multiply by powers of ten. -/
theorem ofDigitChars_append_zeros (n k : Nat) :
    Nat.ofDigitChars 10 (Nat.toDigits 10 n ++ List.replicate k '0') 0 = n * 10 ^ k := by
  rw [Nat.ofDigitChars_append, Nat.ofDigitChars_ten_toDigits, Nat.ofDigitChars_replicate_zero,
    Nat.mul_comm]

/-- Zeros in front of the digits change nothing. -/
theorem ofDigitChars_leftpad (n k : Nat) :
    Nat.ofDigitChars 10 ((Nat.toDigits 10 n).leftpad k '0') 0 = n := by
  unfold List.leftpad
  rw [Nat.ofDigitChars_append, Nat.ofDigitChars_replicate_zero, Nat.mul_zero,
    Nat.ofDigitChars_ten_toDigits]

/-- A point is set between a digit at least and as many places as there should be. -/
theorem exists_setPoint (places : Nat) (digits : List Char) :
    ∃ w p, w ++ p = digits.leftpad (places + 1) '0' ∧ w ≠ [] ∧ p.length = places ∧
      setPoint places digits = w ++ '.' :: p := by
  have hlen : places < (digits.leftpad (places + 1) '0').length := by
    rw [List.length_leftpad]
    exact Nat.lt_of_succ_le (Nat.le_max_left _ _)
  refine ⟨_, _, List.take_append_drop _ _, ?_, ?_, rfl⟩
  · intro h
    have := congrArg List.length h
    rw [List.length_take, List.length_nil] at this
    omega
  · rw [List.length_drop]
    omega

theorem allDigits_leftpad (n k : Nat) : AllDigits ((Nat.toDigits 10 n).leftpad k '0') :=
  allDigits_append (allDigits_zeros _) (allDigits_toDigits n)

/-! ## Decimals -/

namespace Decimal

/-- The positional form holds digits and a point, and no sign. -/
theorem mem_positional {d : Decimal} {pointZero : Bool} {c : Char}
    (h : c ∈ d.positional pointZero) : c.isDigit = true ∨ c = '.' := by
  unfold positional at h
  split at h
  · rcases List.mem_append.mp h with hc | hc
    · exact .inl (allDigits_append (allDigits_toDigits _) (allDigits_zeros _) c hc)
    · cases pointZero with
      | false => cases hc
      | true =>
        rcases List.mem_pair.mp hc with rfl | rfl
        · exact .inr rfl
        · exact .inl rfl
  · obtain ⟨w, p, happ, -, -, hset⟩ :=
      exists_setPoint (-d.exponent).toNat (Nat.toDigits 10 d.digits)
    have hall : AllDigits (w ++ p) := happ ▸ allDigits_leftpad _ _
    rw [hset] at h
    rcases List.mem_append.mp h with hc | hc
    · exact .inl (hall c (List.mem_append_left p hc))
    · exact (List.mem_cons.mp hc).symm.imp (fun hp => hall c (List.mem_append_right w hp)) id

theorem minus_not_mem_positional (d : Decimal) (pointZero : Bool) :
    '-' ∉ d.positional pointZero := by
  intro h
  rcases mem_positional h with h | h
  · cases h
  · cases h

/-- **The positional form is a numeral without exponent, of the same value.** -/
theorem spells_positional (d : Decimal) (pointZero : Bool) :
    ∃ digits places, Significand (d.positional pointZero) digits places ∧
      value ⟨Nat.ofDigitChars 10 digits 0, -(places : Nat)⟩ = d.value := by
  obtain ⟨n, e⟩ := d
  have hdigits := allDigits_toDigits n
  by_cases he : 0 ≤ e
  · obtain ⟨k, rfl⟩ := Int.eq_ofNat_of_zero_le he
    have hwhole := allDigits_append hdigits (allDigits_zeros k)
    have hne : Nat.toDigits 10 n ++ List.replicate k '0' ≠ [] :=
      List.append_ne_nil_of_left_ne_nil Nat.toDigits_ne_nil _
    have hwrite : positional ⟨n, k⟩ pointZero = Nat.toDigits 10 n ++ List.replicate k '0' ++
        if pointZero then ['.', '0'] else [] := by
      unfold positional
      rw [if_pos he, Int.toNat_natCast]
    rw [hwrite]
    cases pointZero with
    | false =>
      rw [if_neg Bool.false_ne_true, List.append_nil]
      refine ⟨_, _, .whole hwhole hne, ?_⟩
      rw [ofDigitChars_append_zeros, value_ofNat, value_neg, pow_zero, div_one]
      push_cast
      rfl
    | true =>
      refine ⟨_, _, .point hwhole (allDigits_zeros 1) (List.append_ne_nil_of_left_ne_nil hne _), ?_⟩
      rw [List.append_assoc, ← List.replicate_succ', ofDigitChars_append_zeros, value_ofNat,
        value_neg, List.length_singleton]
      push_cast
      ring
  · obtain ⟨k, rfl⟩ : ∃ k : Nat, e = -k := ⟨e.natAbs, by omega⟩
    obtain ⟨w, p, happ, hne, rfl, hset⟩ := exists_setPoint k (Nat.toDigits 10 n)
    have hwrite : positional ⟨n, -(p.length : Nat)⟩ pointZero = w ++ '.' :: p := by
      unfold positional
      rw [if_neg he, Int.neg_neg, Int.toNat_natCast]
      exact hset
    have hall : AllDigits (w ++ p) := happ ▸ allDigits_leftpad _ _
    rw [hwrite]
    refine ⟨_, _, .point (fun c hc => hall c (List.mem_append_left p hc))
      (fun c hc => hall c (List.mem_append_right w hc))
      (List.append_ne_nil_of_left_ne_nil hne p), ?_⟩
    rw [happ, ofDigitChars_leftpad]

end Decimal

/-! ## Doubles -/

/-- Every decimal with the value of the shortest one is read as the double. -/
theorem Decimal.toFloat_of_value {tie : Tie} {d : Decimal} {x : Float} {v : Exact}
    (hx : Exact.of? x = some v) (hs : v.negative = false) (h : d.value = (shortest tie v).value) :
    d.toFloat = x :=
  d.toFloat_rounds.unique (h ▸ shortest_rounds tie hx hs) d.value_nonneg

/-- **A finite double without sign reads back from its plain form**, which is positional. -/
theorem plain_reads {x : Float} (hfin : x.isFinite = true) (hx : Double.Unsigned x) :
    ∃ digits places, Significand (plain.write x) digits places ∧
      (Decimal.read? (plain.write x)).map Decimal.toFloat = some x := by
  obtain ⟨v, hv⟩ := Double.exists_exact hfin
  have hs := hx v hv
  have hwrite : plain.write x = (Decimal.shortest .up v).positional false := by
    unfold Layout.write
    rw [hv]
    dsimp only
    rw [hs]
    rfl
  obtain ⟨digits, places, hsig, hvalue⟩ := (Decimal.shortest .up v).spells_positional false
  have hread := Decimal.read?_of_spells (Spells.mk hsig .absent)
  rw [List.append_nil, Int.zero_sub] at hread
  rw [hwrite]
  refine ⟨digits, places, hsig, ?_⟩
  rw [hread, Option.map_some, Decimal.toFloat_of_value hv hs hvalue]

end Abacus
