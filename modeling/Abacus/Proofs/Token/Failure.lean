import Abacus.Proofs.Grammar.Fault
import Abacus.Proofs.Token.Insertion

/-!
# Texts that cannot be cut into tokens

A character outside the alphabet is reported before anything is cut. In a text of the alphabet only
a point can be in the way: every other character begins a token, and every spelling that is split
off has a meaning. So the cutting fails where it comes to a point that begins no numeral. Whether it
comes to a point depends on all that is before it, so that is said of the way to it.

* `Reaches`: the places the cutting comes to, past blank characters and past spellings that are as
  long as can be (`Token.Reads`), whatever becomes of the rest of the text.
* `StopsAt`: it comes to a point with no digit behind it. The offset counts the bytes before it.

A point may stand in a text and never be come to by itself, as in `1.` and `1.5`, where it belongs
to a numeral. In `1.2..5` the second point is come to, and no digit is behind it. In `1.2.5` it
begins a numeral of its own, and two numbers in a row are for the grammar to refuse.

Results:
* `scanFrom_of_reaches`: what is wrong at a place it comes to is wrong with the text.
* `exists_stopsAt_of_scanFrom`: what is wrong with a text is a point it comes to.
* `scan_eq_error_iff`: a text of the alphabet fails exactly where the cutting stops.
* `parse_lexical`: when a text cannot be cut, what is reported for it, and that no other error of a
  text is lexical. A numeral without a value is never reported.

The errors of the grammar, which name a token, are `Proofs/Grammar/Blame`.
-/

namespace Abacus

namespace Token

/-- Cutting a text from the left into blank characters and the longest spellings of tokens comes to
a place, with the first characters before it and the others behind. -/
inductive Reaches : List Char → List Char → Prop
  | start {rest : List Char} : Reaches [] rest
  | blank {front rest : List Char} {c : Char} (h : Reaches front (c :: rest))
      (hc : isBlank c = true) : Reaches (front ++ [c]) rest
  | token {front rest l : List Char} {t : Token} (h : Reaches front (l ++ rest))
      (ht : Reads l rest t) : Reaches (front ++ l) rest

/-- Cutting the text comes to a point that begins no numeral, with so many bytes before it. -/
def StopsAt (text : List Char) (offset : Nat) : Prop :=
  ∃ front rest, text = front ++ '.' :: rest ∧ Reaches front ('.' :: rest) ∧
    (∀ c ∈ rest.head?, c.isDigit = false) ∧ offset = byteLength front

variable {a : Alphabet} {c : Char} {t : Token} {cs l rest front : List Char} {offset : Nat}
  {e : Term.Error}

/-! ## A point in the way -/

theorem begins_of_isDigit (hc : c.isDigit = true) (cs : List Char) :
    Numeral.begins (c :: cs) = true := by
  unfold Numeral.begins
  split
  · rename_i h
    cases h
    cases hc
  · rename_i h
    cases h
    exact hc
  · rename_i h
    cases h

/-- No token begins with the point. -/
theorem munch_point_eq_none (h : ∀ c ∈ rest.head?, c.isDigit = false) :
    munch ('.' :: rest) = none := by
  have hbegins : Numeral.begins ('.' :: rest) = false := by
    cases rest with
    | nil => rfl
    | cons c rest => exact h c rfl
  rw [munch, hbegins]
  rfl

/-- Characters of the alphabet begin a token, save a point that begins no numeral. -/
theorem eq_point_of_munch (ha : a.admits c = true) (hblank : isBlank c = false)
    (hm : munch (c :: rest) = none) : c = '.' ∧ ∀ d ∈ rest.head?, d.isDigit = false := by
  unfold munch at hm
  dsimp only at hm
  by_cases hsign : (ofSign? c).isSome = true
  · rw [if_pos hsign] at hm
    cases hm
  rw [if_neg hsign] at hm
  by_cases hbegins : Numeral.begins (c :: rest) = true
  · rw [if_pos hbegins] at hm
    cases hm
  rw [if_neg hbegins] at hm
  by_cases hstart : isNameStart c = true
  · rw [if_pos hstart] at hm
    cases hm
  have hpoint : c = '.' := by
    have ha : Alphabet.scientific.admits c = true := by
      cases a with
      | scientific => exact ha
      | keypad => exact Alphabet.admits_scientific ha
    simp only [Alphabet.admits, Bool.or_eq_true, List.contains_iff_mem, hblank] at ha
    rcases ha with ((ha | ha) | ha) | ha
    · rcases isAlphanum_iff.mp ha with ha | ha
      · exact absurd (by rw [isNameStart, ha, Bool.true_or]) hstart
      · exact absurd (begins_of_isDigit ha rest) hbegins
    · simp only [Alphabet.keypadSigns, List.mem_cons, List.not_mem_nil, or_false] at ha
      rcases ha with rfl | rfl | rfl | rfl | rfl | rfl | rfl | rfl
      all_goals first | exact absurd rfl hsign | rfl
    · simp only [List.mem_cons, List.not_mem_nil, or_false] at ha
      rcases ha with rfl | rfl | rfl
      · exact absurd rfl hstart
      · exact absurd rfl hsign
      · exact absurd rfl hsign
    · cases ha
  subst hpoint
  refine ⟨rfl, fun d hd => ?_⟩
  obtain ⟨r, rfl⟩ := List.head?_eq_some_iff.mp hd
  exact eq_false_of_ne_true hbegins

/-- The numeral that is split off is a number. -/
theorem read?_numeral (hsign : ¬ (ofSign? c).isSome = true)
    (hbegins : Numeral.begins (c :: cs) = true) :
    ∃ d, Decimal.read? (Numeral.munch (c :: cs)).1 = some d ∧
      read? (Numeral.munch (c :: cs)).1 = some (.number d.toFloat) := by
  obtain ⟨d, hd⟩ := Numeral.exists_spells_munch hbegins
  have hread := Decimal.read?_of_spells hd
  have happ := Numeral.munch_append (c :: cs)
  refine ⟨d, hread, ?_⟩
  generalize (Numeral.munch (c :: cs)).1 = l at hread happ ⊢
  obtain ⟨b, l, rfl⟩ := List.exists_cons_of_ne_nil (l := l) (by rintro rfl; cases hread)
  obtain rfl : b = c := (List.cons.inj happ).1
  rw [read?, not_isNameStart_of_begins hbegins, if_neg Bool.false_ne_true,
    if_neg fun h => hsign h.2, hread]
  rfl

theorem read?_name (hstart : isNameStart c = true) (cs : List Char) :
    read? (c :: cs.takeWhile isNamePart) =
      some (.name (String.ofList (c :: cs.takeWhile isNamePart))) := by
  rw [read?, if_pos hstart, if_pos List.all_takeWhile]

/-- **Whatever is split off has a meaning.** -/
theorem exists_read?_of_munch (hm : munch cs = some (l, rest)) : ∃ t, read? l = some t := by
  cases cs with
  | nil => cases hm
  | cons c cs =>
    unfold munch at hm
    dsimp only at hm
    by_cases hsign : (ofSign? c).isSome = true
    · rw [if_pos hsign] at hm
      cases hm
      obtain ⟨t, ht⟩ := Option.isSome_iff_exists.mp hsign
      refine ⟨t, ?_⟩
      rw [read?, (reads_of_ofSign? ht rest).2, if_neg Bool.false_ne_true, if_pos ⟨rfl, hsign⟩, ht]
    rw [if_neg hsign] at hm
    by_cases hbegins : Numeral.begins (c :: cs) = true
    · rw [if_pos hbegins, Option.some.injEq] at hm
      obtain ⟨d, -, hread⟩ := read?_numeral hsign hbegins
      rw [hm] at hread
      exact ⟨_, hread⟩
    rw [if_neg hbegins] at hm
    by_cases hstart : isNameStart c = true
    · rw [if_pos hstart] at hm
      cases hm
      exact ⟨_, read?_name hstart cs⟩
    · rw [if_neg hstart] at hm
      cases hm

/-! ## On the way -/

theorem Reads.not_isBlank (h : Reads (c :: l) rest t) : isBlank c = false := by
  cases h with
  | operator op => cases op <;> rfl
  | openParen | closeParen | comma => rfl
  | name hc => exact not_isBlank_of_isNamePart (isNamePart_of_isNameStart hc)
  | number hl => exact not_isBlank_of_spells hl c List.mem_cons_self

/-- What is wrong behind a token is wrong with the text. -/
theorem scanFrom_error_of_reads (ht : Reads l rest t)
    (h : scanFrom (offset + byteLength l) rest = .error e) :
    scanFrom offset (l ++ rest) = .error e := by
  have hm := munch_of_reads ht
  obtain ⟨t', hread⟩ := exists_read?_of_munch hm
  obtain ⟨c, l, rfl⟩ := List.exists_cons_of_ne_nil (l := l) (by rintro rfl; cases hread)
  rw [List.cons_append] at hm ⊢
  rw [scanFrom_munch hm hread ht.not_isBlank, h]
  rfl

/-- **What is wrong at a place the cutting comes to is wrong with the text.** -/
theorem scanFrom_of_reaches (hreaches : Reaches front rest)
    (h : scanFrom (byteLength front) rest = .error e) : scanFrom 0 (front ++ rest) = .error e := by
  induction hreaches with
  | start => exact h
  | @blank front rest c _ hc ih =>
    rw [List.append_assoc]
    refine ih ?_
    rw [scanFrom_blank hc]
    rwa [byteLength_append] at h
  | token _ ht ih =>
    rw [List.append_assoc]
    refine ih (scanFrom_error_of_reads ht ?_)
    rwa [byteLength_append] at h

/-- **What is wrong with a text of the alphabet is a point the cutting comes to.** -/
theorem exists_stopsAt_of_scanFrom (h : scanFrom offset cs = .error e)
    (ha : ∀ c ∈ cs, a.admits c = true) (hreaches : Reaches front cs)
    (hoffset : offset = byteLength front) :
    ∃ o, e = .unexpectedCharacter '.' o ∧ StopsAt (front ++ cs) o := by
  fun_induction scanFrom offset cs generalizing front with
  | case1 => cases h
  | case2 offset c rest hc ih =>
    have hrest := List.forall_mem_cons.mp ha
    have := ih h hrest.2 (hreaches.blank hc) (by rw [hoffset, byteLength_append]; rfl)
    rwa [List.append_assoc] at this
  | case3 offset c rest hc hm =>
    cases h
    obtain ⟨rfl, hdigit⟩ := eq_point_of_munch (ha c List.mem_cons_self) (eq_false_of_ne_true hc) hm
    exact ⟨offset, rfl, front, rest, rfl, hreaches, hdigit, hoffset⟩
  | case4 offset c rest hc spelling behind hm hread =>
    obtain ⟨t, ht⟩ := exists_read?_of_munch hm
    rw [ht] at hread
    cases hread
  | case5 offset c rest hc spelling behind hm t hread ih =>
    have happ := munch_append hm
    rw [← happ] at ha hreaches ⊢
    rcases Except.bind_eq_error.mp h with h | ⟨lexemes, -, h⟩
    · have hbehind := fun c hc => ha c (List.mem_append_right _ hc)
      have := ih h hbehind (hreaches.token (reads_of_munch hm hread).2)
        (by rw [hoffset, byteLength_append])
      rwa [List.append_assoc] at this
    · cases h

/-! ## A whole text -/

/-- **A text of the alphabet fails where the cutting stops.** -/
theorem scan_eq_error_iff {text : String} (ha : ∀ c ∈ text.toList, a.admits c = true) :
    scan a text = .error e ↔ ∃ o, e = .unexpectedCharacter '.' o ∧ StopsAt text.toList o := by
  have hpermits : a.permits text.toList = true := List.all_eq_true.mpr ha
  rw [scan, if_pos hpermits]
  constructor
  · exact fun h => exists_stopsAt_of_scanFrom h ha .start rfl
  · rintro ⟨o, rfl, front, rest, htext, hreaches, hdigit, rfl⟩
    rw [htext]
    exact scanFrom_of_reaches hreaches (scanFrom_stop (munch_point_eq_none hdigit) rfl _)

end Token

namespace Term

/-- **When a text cannot be cut into tokens.** A character outside the alphabet is reported first;
otherwise the first point that is in the way. -/
theorem parse_lexical (d : Dialect) (text : String) :
    (Token.scan d.alphabet text = .error .unsupportedCharacters ↔
      ∃ c ∈ text.toList, d.alphabet.admits c = false) ∧
    ((∀ c ∈ text.toList, d.alphabet.admits c = true) →
      ((∃ e, Token.scan d.alphabet text = .error e) ↔ ∃ o, Token.StopsAt text.toList o) ∧
      ∀ o, Token.StopsAt text.toList o →
        Token.scan d.alphabet text = .error (.unexpectedCharacter '.' o)) ∧
    (∀ spelling o, Token.scan d.alphabet text ≠ .error (.invalidNumber spelling o)) ∧
    ∀ e, parse d text = .error e ∧ e.kind = .lexical ↔ Token.scan d.alphabet text = .error e := by
  have hunsupported : Token.scan d.alphabet text = .error .unsupportedCharacters ↔
      ∃ c ∈ text.toList, d.alphabet.admits c = false := by
    rw [Token.scan_eq_unsupported_iff, Alphabet.permits, List.all_eq_false]
    simp only [Bool.not_eq_true]
  refine ⟨hunsupported, fun ha => ⟨?_, fun o ho => ?_⟩, fun spelling o h => ?_, fun e => ?_⟩
  · constructor
    · rintro ⟨e, he⟩
      obtain ⟨o, -, ho⟩ := (Token.scan_eq_error_iff ha).mp he
      exact ⟨o, ho⟩
    · rintro ⟨o, ho⟩
      exact ⟨_, (Token.scan_eq_error_iff ha).mpr ⟨o, rfl, ho⟩⟩
  · exact (Token.scan_eq_error_iff ha).mpr ⟨o, rfl, ho⟩
  · by_cases ha : ∀ c ∈ text.toList, d.alphabet.admits c = true
    · obtain ⟨o', ho, -⟩ := (Token.scan_eq_error_iff ha).mp h
      cases ho
    · have hsome : ∃ c ∈ text.toList, d.alphabet.admits c = false := by simpa using ha
      rw [hunsupported.mpr hsome] at h
      cases h
  · constructor
    · rintro ⟨h, hkind⟩
      rcases Except.bind_eq_error.mp h with h | ⟨ts, -, h⟩
      · exact h
      · exact absurd hkind (ofLexemes_fault h).kind_ne_lexical
    · exact fun h => ⟨Except.bind_eq_error.mpr (.inl h), Token.kind_of_scan h⟩

/-- A second point belongs to no number, and is reported although the parenthesis in front of the
text is wrong, too. -/
theorem parse_lexical_second_point :
    Token.StopsAt ")1.2..5".toList 4 ∧
    parse .scientific ")1.2..5" = .error (.unexpectedCharacter '.' 4) := by
  have h : Token.scan .scientific ")1.2..5" = .error (.unexpectedCharacter '.' 4) := by
    with_unfolding_all rfl
  have hadmits : Alphabet.scientific.permits ")1.2..5".toList = true := by
    with_unfolding_all rfl
  obtain ⟨-, hfails, -, hlexical⟩ := parse_lexical .scientific ")1.2..5"
  obtain ⟨hiff, hreports⟩ := hfails (List.all_eq_true.mp hadmits)
  refine ⟨?_, ((hlexical _).mpr h).1⟩
  obtain ⟨o, ho⟩ := hiff.mp ⟨_, h⟩
  cases (hreports o ho).symm.trans h
  exact ho

end Term

end Abacus
