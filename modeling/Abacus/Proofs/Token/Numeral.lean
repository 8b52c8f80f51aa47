import Abacus.Decimal.Numeral

/-!
# The grammar of numerals

A numeral is a significand, which has digits before or behind an optional point, and an optional
exponent, which has digits behind an optional sign. The grammar is stated on whole spellings and
says nothing of how a numeral is found.

* `Significand`: the digits of the significand in one row, and how many of them are behind the
  point. Digits may be missing on one side of the point, not on both.
* `ExponentPart`: an exponent mark, an optional sign and at least one digit, or nothing at all.
* `Spells`: the two together, as the decimal `digits * 10 ^ (exponent - places)`.

The reader of decimals (`Decimal.read?`) takes a spelling apart at its exponent mark and its point;
the scanner (`Numeral.munch`) takes characters off the front of a text for as long as they can go
on. Neither is written after the grammar, so both are compared with it.

Results:
* `Decimal.read?_eq_some_iff`: a spelling is read as a decimal iff it is a numeral of it.
* `Numeral.munch_longest`: of all numerals a text begins with, `munch` splits off the longest.
* `Numeral.exists_spells_munch`: where a numeral begins, what `munch` splits off is one.

Out of scope: the double nearest to the decimal (`Proofs/Double/Reading`), and numerals that are
too great for one, which are read as an infinite double.
-/

namespace Abacus

/-- All characters are digits. -/
def AllDigits (cs : List Char) : Prop := ∀ c ∈ cs, c.isDigit = true

/-- A significand, with its digits and the number of those behind the point. -/
inductive Significand : List Char → List Char → Nat → Prop
  | whole {w : List Char} (hw : AllDigits w) (hne : w ≠ []) : Significand w w 0
  | point {w p : List Char} (hw : AllDigits w) (hp : AllDigits p) (hne : w ++ p ≠ []) :
      Significand (w ++ '.' :: p) (w ++ p) p.length

/-- An exponent part and its value. -/
inductive ExponentPart : List Char → Int → Prop
  | absent : ExponentPart [] 0
  | unsigned {c : Char} {ds : List Char} (hc : isExponentMark c = true) (hd : AllDigits ds)
      (hne : ds ≠ []) : ExponentPart (c :: ds) (Nat.ofDigitChars 10 ds 0)
  | plus {c : Char} {ds : List Char} (hc : isExponentMark c = true) (hd : AllDigits ds)
      (hne : ds ≠ []) : ExponentPart (c :: '+' :: ds) (Nat.ofDigitChars 10 ds 0)
  | minus {c : Char} {ds : List Char} (hc : isExponentMark c = true) (hd : AllDigits ds)
      (hne : ds ≠ []) : ExponentPart (c :: '-' :: ds) (-(Nat.ofDigitChars 10 ds 0 : Nat))

/-- The spelling is a numeral of the decimal. -/
inductive Spells : List Char → Decimal → Prop
  | mk {s digits e : List Char} {places : Nat} {exponent : Int} (hs : Significand s digits places)
      (he : ExponentPart e exponent) :
      Spells (s ++ e) ⟨Nat.ofDigitChars 10 digits 0, exponent - places⟩

theorem allDigits_takeWhile (cs : List Char) : AllDigits (cs.takeWhile Char.isDigit) :=
  fun c hc => List.all_eq_true.mp List.all_takeWhile c hc

theorem allDigits_append {a b : List Char} (ha : AllDigits a) (hb : AllDigits b) :
    AllDigits (a ++ b) := by
  intro c hc
  rcases List.mem_append.mp hc with hc | hc
  · exact ha c hc
  · exact hb c hc

theorem allDigits_of_readDigits? {cs : List Char} {n : Nat} (h : readDigits? cs = some n) :
    AllDigits cs ∧ cs ≠ [] ∧ n = Nat.ofDigitChars 10 cs 0 := by
  unfold readDigits? at h
  split at h
  · rename_i hcs
    exact ⟨List.all_eq_true.mp hcs.2, hcs.1, (Option.some.inj h).symm⟩
  · cases h

/-- Characters of numerals, with and without a sign. -/
def NumeralChar (c : Char) : Prop :=
  c.isDigit = true ∨ isExponentMark c = true ∨ c = '.' ∨ c = '+' ∨ c = '-'

theorem Spells.numeralChar {cs : List Char} {d : Decimal} (h : Spells cs d) {c : Char}
    (hc : c ∈ cs) : NumeralChar c := by
  obtain @⟨s, digits, e, places, x, hs, he⟩ := h
  rcases List.mem_append.mp hc with hc | hc
  · cases hs with
    | whole hw => exact .inl (hw c hc)
    | point hw hp =>
      rw [List.mem_append, List.mem_cons] at hc
      rcases hc with hc | rfl | hc
      · exact .inl (hw c hc)
      · exact .inr (.inr (.inl rfl))
      · exact .inl (hp c hc)
  · cases he with
    | absent => cases hc
    | unsigned hm hd =>
      rcases List.mem_cons.mp hc with rfl | hc
      · exact .inr (.inl hm)
      · exact .inl (hd c hc)
    | plus hm hd | minus hm hd =>
      rw [List.mem_cons, List.mem_cons] at hc
      rcases hc with rfl | rfl | hc
      · exact .inr (.inl hm)
      · simp [NumeralChar]
      · exact .inl (hd c hc)

/-! ## What is read is a numeral -/

theorem readExponent?_cons (c : Char) (cs : List Char) :
    readExponent? (c :: cs) =
      if isExponentMark c then
        (readDigits? (splitSign cs).2).map fun n : Nat =>
          if (splitSign cs).1 then -(n : Int) else (n : Int)
      else none := by
  have hdo : readExponent? (c :: cs) =
      if isExponentMark c then
        (readDigits? (splitSign cs).2 >>= fun n => some (n : Int)).map fun n =>
          if (splitSign cs).1 then -n else n
      else none := rfl
  rw [hdo]
  cases readDigits? (splitSign cs).2 <;> rfl

theorem splitSign_spec (cs : List Char) :
    (splitSign cs = (true, cs.drop 1) ∧ cs = '-' :: cs.drop 1) ∨
      (splitSign cs = (false, cs.drop 1) ∧ cs = '+' :: cs.drop 1) ∨ splitSign cs = (false, cs) := by
  unfold splitSign
  split
  · exact .inl ⟨rfl, rfl⟩
  · exact .inr (.inl ⟨rfl, rfl⟩)
  · exact .inr (.inr rfl)

theorem exponentPart_of_readExponent? {cs : List Char} {e : Int} (h : readExponent? cs = some e) :
    ExponentPart cs e := by
  cases cs with
  | nil =>
    cases h
    exact .absent
  | cons c cs =>
    rw [readExponent?_cons] at h
    by_cases hc : isExponentMark c = true
    · rw [if_pos hc] at h
      obtain ⟨n, hn, rfl⟩ := Option.map_eq_some_iff.mp h
      rcases splitSign_spec cs with ⟨hs, hcs⟩ | ⟨hs, hcs⟩ | hs <;> rw [hs] at hn ⊢ <;>
        obtain ⟨hd, hne, rfl⟩ := allDigits_of_readDigits? hn
      · rw [hcs]
        exact .minus hc hd hne
      · rw [hcs]
        exact .plus hc hd hne
      · exact .unsigned hc hd hne
    · rw [if_neg hc] at h
      cases h

/-- The digits behind the point at which the digits of a text end, and what follows them. -/
def splitPlaces : List Char → List Char × List Char
  | '.' :: cs => (cs.takeWhile Char.isDigit, cs.dropWhile Char.isDigit)
  | cs => ([], cs)

theorem Decimal.read?_eq (cs : List Char) :
    Decimal.read? cs =
      if cs.takeWhile Char.isDigit ++ (splitPlaces (cs.dropWhile Char.isDigit)).1 = [] then none
      else (readExponent? (splitPlaces (cs.dropWhile Char.isDigit)).2).map fun e =>
        ⟨Nat.ofDigitChars 10
            (cs.takeWhile Char.isDigit ++ (splitPlaces (cs.dropWhile Char.isDigit)).1) 0,
          e - (splitPlaces (cs.dropWhile Char.isDigit)).1.length⟩ := rfl

theorem splitPlaces_spec (cs : List Char) :
    (∃ p, AllDigits p ∧ (splitPlaces cs).1 = p ∧ cs = '.' :: p ++ (splitPlaces cs).2) ∨
      splitPlaces cs = ([], cs) := by
  unfold splitPlaces
  split
  · rename_i cs
    exact .inl ⟨_, allDigits_takeWhile cs, rfl, by
      rw [List.cons_append, List.takeWhile_append_dropWhile]⟩
  · exact .inr rfl

/-- A spelling that is read is a numeral of the decimal it is read as. -/
theorem Decimal.spells_of_read? {cs : List Char} {d : Decimal} (h : Decimal.read? cs = some d) :
    Spells cs d := by
  have hcs := List.takeWhile_append_dropWhile (p := Char.isDigit) (l := cs)
  have hw := allDigits_takeWhile cs
  rw [Decimal.read?_eq] at h
  split at h
  · cases h
  rename_i hne
  obtain ⟨e, he, rfl⟩ := Option.map_eq_some_iff.mp h
  have hexp := exponentPart_of_readExponent? he
  rcases splitPlaces_spec (cs.dropWhile Char.isDigit) with ⟨p, hp, hp₁, hrest⟩ | hnone
  · rw [hp₁] at hne ⊢
    have := Spells.mk (.point hw hp hne) hexp
    rwa [List.append_assoc, ← hrest, hcs] at this
  · rw [hnone] at hne hexp ⊢
    dsimp only at hne hexp ⊢
    rw [List.append_nil] at hne ⊢
    have := Spells.mk (.whole hw hne) hexp
    rwa [hcs] at this

/-! ## Every numeral is read -/

theorem not_isDigit_of_isExponentMark {c : Char} (h : isExponentMark c = true) :
    c.isDigit = false ∧ c ≠ '.' := by
  unfold isExponentMark at h
  rw [Bool.or_eq_true, beq_iff_eq, beq_iff_eq] at h
  rcases h with rfl | rfl
  · exact ⟨rfl, by decide⟩
  · exact ⟨rfl, by decide⟩

theorem takeWhile_digits {ds r : List Char} (h : AllDigits ds) :
    (ds ++ r).takeWhile Char.isDigit = ds ++ r.takeWhile Char.isDigit ∧
      (ds ++ r).dropWhile Char.isDigit = r.dropWhile Char.isDigit :=
  ⟨List.takeWhile_append_of_pos h, List.dropWhile_append_of_pos h⟩

theorem readDigits?_digits {ds : List Char} (hd : AllDigits ds) (hne : ds ≠ []) :
    readDigits? ds = some (Nat.ofDigitChars 10 ds 0) := by
  unfold readDigits?
  rw [if_pos ⟨hne, List.all_eq_true.mpr hd⟩]

theorem splitSign_digits {ds : List Char} (hd : AllDigits ds) : splitSign ds = (false, ds) := by
  rcases splitSign_spec ds with ⟨-, h⟩ | ⟨-, h⟩ | h
  · have hminus := hd '-' (by rw [h]; exact List.mem_cons_self)
    cases hminus
  · have hplus := hd '+' (by rw [h]; exact List.mem_cons_self)
    cases hplus
  · exact h

theorem readExponent?_of_exponentPart {e : List Char} {x : Int} (h : ExponentPart e x) :
    readExponent? e = some x := by
  cases h with
  | absent => rfl
  | unsigned hc hd hne =>
    rw [readExponent?_cons, if_pos hc, splitSign_digits hd, readDigits?_digits hd hne]
    rfl
  | plus hc hd hne =>
    rw [readExponent?_cons, if_pos hc, splitSign, readDigits?_digits hd hne]
    rfl
  | minus hc hd hne =>
    rw [readExponent?_cons, if_pos hc, splitSign, readDigits?_digits hd hne]
    rfl

/-- An exponent part begins with neither a digit nor a point. -/
theorem ExponentPart.head {e : List Char} {x : Int} (h : ExponentPart e x) :
    ∀ c ∈ e.head?, c.isDigit = false ∧ c ≠ '.' := by
  intro c hc
  cases h with
  | absent => cases hc
  | unsigned hm => cases hc; exact not_isDigit_of_isExponentMark hm
  | plus hm => cases hc; exact not_isDigit_of_isExponentMark hm
  | minus hm => cases hc; exact not_isDigit_of_isExponentMark hm

/-- Where the first character fails, nothing is taken. -/
theorem takeWhile_of_head {p : Char → Bool} {cs : List Char} (h : ∀ c ∈ cs.head?, p c = false) :
    cs.takeWhile p = [] ∧ cs.dropWhile p = cs := by
  cases cs with
  | nil => exact ⟨rfl, rfl⟩
  | cons c cs =>
    rw [List.takeWhile_cons, List.dropWhile_cons, h c rfl]
    exact ⟨rfl, rfl⟩

theorem splitPlaces_of_head {cs : List Char} (h : ∀ c ∈ cs.head?, c ≠ '.') :
    splitPlaces cs = ([], cs) := by
  rcases splitPlaces_spec cs with ⟨p, -, -, hcs⟩ | hnone
  · rw [hcs] at h
    exact absurd rfl (h '.' rfl)
  · exact hnone

/-- A numeral is read as its decimal. -/
theorem Decimal.read?_of_spells {cs : List Char} {d : Decimal} (h : Spells cs d) :
    Decimal.read? cs = some d := by
  obtain @⟨s, digits, e, places, x, hs, he⟩ := h
  obtain ⟨htake, hdrop⟩ := takeWhile_of_head fun c hc => (he.head c hc).1
  cases hs with
  | whole hw hne =>
    rw [Decimal.read?_eq, (takeWhile_digits hw).1, (takeWhile_digits hw).2, htake, hdrop,
      splitPlaces_of_head fun c hc => (he.head c hc).2, List.append_nil, List.append_nil,
      if_neg hne, readExponent?_of_exponentPart he]
    rfl
  | @point w p hw hp hne =>
    have hpoint : splitPlaces ('.' :: (p ++ e)) = (p, e) := by
      change ((p ++ e).takeWhile Char.isDigit, (p ++ e).dropWhile Char.isDigit) = (p, e)
      rw [(takeWhile_digits hp).1, (takeWhile_digits hp).2, htake, hdrop, List.append_nil]
    have htake' : ('.' :: (p ++ e)).takeWhile Char.isDigit = [] := rfl
    have hdrop' : ('.' :: (p ++ e)).dropWhile Char.isDigit = '.' :: (p ++ e) := rfl
    rw [Decimal.read?_eq, List.append_assoc, List.cons_append, (takeWhile_digits hw).1,
      (takeWhile_digits hw).2, htake', hdrop', hpoint, List.append_nil, if_neg hne,
      readExponent?_of_exponentPart he]
    rfl

/-- **A spelling is read as a decimal iff it is a numeral of it.** -/
theorem Decimal.read?_eq_some_iff {cs : List Char} {d : Decimal} :
    Decimal.read? cs = some d ↔ Spells cs d :=
  ⟨Decimal.spells_of_read?, Decimal.read?_of_spells⟩

/-! ## The longest numeral -/

namespace Numeral

theorem munchSign_digits {ds : List Char} (hd : AllDigits ds) (hne : ds ≠ []) (r : List Char) :
    munchSign (ds ++ r) = ([], ds ++ r) := by
  cases ds with
  | nil => exact absurd rfl hne
  | cons d ds =>
    have hdigit := hd d List.mem_cons_self
    unfold munchSign
    split
    · rename_i heq
      cases heq
      cases hdigit
    · rename_i heq
      cases heq
      cases hdigit
    · rfl

theorem munchSign_plus (cs : List Char) : munchSign ('+' :: cs) = (['+'], cs) := rfl

theorem munchSign_minus (cs : List Char) : munchSign ('-' :: cs) = (['-'], cs) := rfl

theorem munchExponent_cons {c : Char} {cs sign ds r : List Char} (hc : isExponentMark c = true)
    (hd : AllDigits ds) (hne : ds ≠ []) (hs : munchSign cs = (sign, ds ++ r)) :
    munchExponent (c :: cs) =
      (c :: sign ++ (ds ++ r.takeWhile Char.isDigit), r.dropWhile Char.isDigit) := by
  have hnone : (ds ++ r.takeWhile Char.isDigit).isEmpty = false := by
    rw [List.isEmpty_eq_false_iff]
    exact fun h => hne (List.append_eq_nil_iff.mp h).1
  obtain ⟨ht, hr⟩ := takeWhile_digits (r := r) hd
  unfold munchExponent
  simp only [hs, ht, hr, hc, hnone]
  rfl

/-- An exponent that a text begins with is not longer than the one that is split off. -/
theorem length_le_munchExponent {e : List Char} {x : Int} (h : ExponentPart e x) (r : List Char) :
    e.length ≤ (munchExponent (e ++ r)).1.length := by
  cases h with
  | absent => exact Nat.zero_le _
  | unsigned hc hd hne =>
    rw [List.cons_append, munchExponent_cons hc hd hne (munchSign_digits hd hne r)]
    simp
  | plus hc hd hne =>
    rw [List.cons_append, List.cons_append, munchExponent_cons hc hd hne (munchSign_plus _)]
    simp
  | minus hc hd hne =>
    rw [List.cons_append, List.cons_append, munchExponent_cons hc hd hne (munchSign_minus _)]
    simp

/-- In front of neither a digit nor a point, no places are split off. -/
theorem munchPlaces_of_head {cs : List Char} (h : ∀ c ∈ cs.head?, c ≠ '.') :
    munchPlaces cs = ([], cs) := by
  unfold munchPlaces
  split
  · exact absurd rfl (h '.' rfl)
  · rfl

theorem munch_eq (cs : List Char) :
    (munch cs).1 = cs.takeWhile Char.isDigit ++ (munchPlaces (cs.dropWhile Char.isDigit)).1 ++
      (munchExponent (munchPlaces (cs.dropWhile Char.isDigit)).2).1 := rfl

/-- Digits in front belong to the numeral. -/
theorem munch_digits {w : List Char} (hw : AllDigits w) (cs : List Char) :
    (munch (w ++ cs)).1 = w ++ (munch cs).1 := by
  rw [munch_eq, munch_eq, (takeWhile_digits hw).1, (takeWhile_digits hw).2]
  simp only [List.append_assoc]

/-- A point in front belongs to the numeral with the digits behind it. -/
theorem munch_point {p : List Char} (hp : AllDigits p) (cs : List Char) :
    (munch ('.' :: (p ++ cs))).1 =
      '.' :: p ++ (cs.takeWhile Char.isDigit ++ (munchExponent (cs.dropWhile Char.isDigit)).1) := by
  have hplaces : munchPlaces ('.' :: (p ++ cs)) =
      ('.' :: (p ++ cs.takeWhile Char.isDigit), cs.dropWhile Char.isDigit) := by
    rw [← (takeWhile_digits hp).1, ← (takeWhile_digits hp).2]
    rfl
  have hd : ('.' :: (p ++ cs)).dropWhile Char.isDigit = '.' :: (p ++ cs) := rfl
  have ht : ('.' :: (p ++ cs)).takeWhile Char.isDigit = [] := rfl
  rw [munch_eq, hd, ht, hplaces]
  simp

/-- **The longest numeral is split off.** -/
theorem munch_longest {cs p : List Char} {d : Decimal} (h : Spells p d) (hp : p <+: cs) :
    p.length ≤ (munch cs).1.length := by
  obtain ⟨r, rfl⟩ := hp
  obtain @⟨s, digits, e, places, x, hs, he⟩ := h
  have hexp := length_le_munchExponent he r
  -- an exponent that is there is not taken for places of the significand
  have hbehind : e.length ≤ (munch (e ++ r)).1.length ∧ e.length ≤
      ((e ++ r).takeWhile Char.isDigit ++
        (munchExponent ((e ++ r).dropWhile Char.isDigit)).1).length := by
    cases e with
    | nil => exact ⟨Nat.zero_le _, Nat.zero_le _⟩
    | cons c e =>
      have hhead : ∀ a ∈ (c :: e ++ r).head?, a.isDigit = false ∧ a ≠ '.' := he.head
      obtain ⟨ht, hd⟩ := takeWhile_of_head fun a ha => (hhead a ha).1
      rw [munch_eq, ht, hd, munchPlaces_of_head fun a ha => (hhead a ha).2]
      exact ⟨hexp, hexp⟩
  rw [List.append_assoc]
  cases hs with
  | whole hw =>
    rw [munch_digits hw, List.length_append, List.length_append]
    exact Nat.add_le_add_left hbehind.1 _
  | @point w p hw hp =>
    rw [List.append_assoc w, List.append_assoc w, munch_digits hw, List.cons_append,
      List.cons_append, munch_point hp]
    simp only [List.length_append, List.length_cons] at hbehind ⊢
    omega

/-! ## What is split off is a numeral -/

theorem munchSign_cases (cs : List Char) :
    (∃ r, munchSign cs = (['-'], r)) ∨ (∃ r, munchSign cs = (['+'], r)) ∨
      ∃ r, munchSign cs = ([], r) := by
  unfold munchSign
  split
  · exact .inl ⟨_, rfl⟩
  · exact .inr (.inl ⟨_, rfl⟩)
  · exact .inr (.inr ⟨_, rfl⟩)

theorem exists_exponentPart_munch (cs : List Char) : ∃ x, ExponentPart (munchExponent cs).1 x := by
  cases cs with
  | nil => exact ⟨0, .absent⟩
  | cons c cs =>
    have hd := allDigits_takeWhile (munchSign cs).2
    unfold munchExponent
    dsimp only
    split
    · rename_i h
      obtain ⟨hc, hsome⟩ := Bool.and_eq_true_iff.mp h
      have hne : (munchSign cs).2.takeWhile Char.isDigit ≠ [] := by
        intro he
        rw [he] at hsome
        cases hsome
      rcases munchSign_cases cs with ⟨r, hr⟩ | ⟨r, hr⟩ | ⟨r, hr⟩ <;> rw [hr] at hd hne ⊢
      · exact ⟨_, .minus hc hd hne⟩
      · exact ⟨_, .plus hc hd hne⟩
      · exact ⟨_, .unsigned hc hd hne⟩
    · exact ⟨0, .absent⟩

theorem munchPlaces_spec (cs : List Char) :
    (∃ p, AllDigits p ∧ (munchPlaces cs).1 = '.' :: p) ∨ (munchPlaces cs).1 = [] := by
  unfold munchPlaces
  split
  · exact .inl ⟨_, allDigits_takeWhile _, rfl⟩
  · exact .inr rfl

theorem begins_spec {cs : List Char} (h : begins cs = true) :
    (∃ c r, cs = c :: r ∧ c.isDigit = true) ∨ ∃ c r, cs = '.' :: c :: r ∧ c.isDigit = true := by
  unfold begins at h
  split at h
  · exact .inr ⟨_, _, rfl, h⟩
  · exact .inl ⟨_, _, rfl, h⟩
  · cases h

theorem takeWhile_digit {c : Char} (hc : c.isDigit = true) (cs : List Char) :
    (c :: cs).takeWhile Char.isDigit ≠ [] := by
  rw [List.takeWhile_cons_of_pos hc]
  exact List.cons_ne_nil _ _

/-- **Where a numeral begins, a numeral is split off**, so its spelling has a value. -/
theorem exists_spells_munch {cs : List Char} (h : begins cs = true) :
    ∃ d, Spells (munch cs).1 d := by
  obtain ⟨x, he⟩ := exists_exponentPart_munch (munchPlaces (cs.dropWhile Char.isDigit)).2
  have hw := allDigits_takeWhile cs
  rw [munch_eq]
  rcases begins_spec h with ⟨c, r, rfl, hc⟩ | ⟨c, r, rfl, hc⟩
  · have hne := takeWhile_digit hc r
    rcases munchPlaces_spec ((c :: r).dropWhile Char.isDigit) with ⟨p, hp, hplaces⟩ | hplaces <;>
      rw [hplaces]
    · exact ⟨_, .mk (.point hw hp (List.append_ne_nil_of_left_ne_nil hne _)) he⟩
    · rw [List.append_nil]
      exact ⟨_, .mk (.whole hw hne) he⟩
  · have hp := allDigits_takeWhile (c :: r)
    exact ⟨_, .mk (.point (w := []) nofun hp (takeWhile_digit hc r)) he⟩

end Numeral

end Abacus
