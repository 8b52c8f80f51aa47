import Abacus.Proofs.Decimal.Writing
import Abacus.Proofs.Token.Splitting

/-!
# Written tokens are scanned again

A name or a number is scanned as it was written as long as what follows it does not go on with
it; a sign is scanned wherever it stands. The spelling that `Token.write` gives a token is the
canonical one: the digits of a number are its fewest in plain form, without an exponent.

* `Scans a cs ts` says that the characters belong to the alphabet and are cut into the tokens in
  front of any text that ends a name and a number (`Ends`). Offsets are left out of it: what was
  written stands elsewhere than what was scanned.
* `Proper` is what is known of a token that was scanned from a text in an alphabet. Its names are
  identifiers, its numbers carry no sign, and its signs belong to the alphabet.
* `Writable` asks of a number in addition that it is finite, for an infinite one has no spelling
  that is a numeral.

The rules for `Scans` follow the written form of terms: words (`Scans.name`, `Scans.number`), signs
(`Scans.sign`), blank characters, and one text behind the other (`Scans.append`). A text that is put
together by them is scanned without a look at the scanner.

Results:
* `proper_of_scan`: every scanned token is proper.
* `scanFrom_write`: a token of any kind is scanned where it was written.
* `scan_of_scans`: a whole text is.

Used for tokens with spaces between them (`Proofs/Token/Spacing`), for terms
(`Proofs/Term/RoundTrip`), and for the texts that meet the limits (`Proofs/Grammar/Limits`).
-/

namespace Abacus.Token

/-- A letter or underscore with further letters, digits and underscores. -/
def Identifier (s : String) : Prop :=
  ∃ c cs, s.toList = c :: cs ∧ isNameStart c = true ∧ ∀ d ∈ cs, isNamePart d = true

/-- The token can be written in the alphabet, save a number that is not finite. -/
def Proper (a : Alphabet) : Token → Prop
  | .number x => Double.Unsigned x
  | .name s => Identifier s ∧ ∀ c ∈ s.toList, a.admits c = true
  | .operator op => a.admits op.sign = true
  | .openParen | .closeParen => True
  | .comma => a.admits ',' = true

/-- The text does not go on with a name or a number. -/
def Ends (rest : List Char) : Prop := ∀ c ∈ rest.head?, isNamePart c = false ∧ c ≠ '.'

/-- In front of any text that ends a word, characters of the alphabet are cut into the tokens. -/
structure Scans (a : Alphabet) (cs : List Char) (ts : List Token) : Prop where
  admitted : ∀ c ∈ cs, a.admits c = true
  scanned : ∀ offset rest lexemes, Ends rest →
    scanFrom (offset + byteLength cs) rest = .ok lexemes →
    ∃ front : List Lexeme, front.map Lexeme.token = ts ∧
      scanFrom offset (cs ++ rest) = .ok (front ++ lexemes)

variable {a : Alphabet} {t : Token} {c : Char} {cs l rest : List Char} {ts us : List Token}

/-! ## Scanned tokens are proper -/

theorem Reads.proper (h : Reads l rest t) (hl : ∀ c ∈ l, a.admits c = true) : t.Proper a := by
  cases h with
  | operator op => exact hl _ List.mem_cons_self
  | openParen | closeParen => trivial
  | comma => exact hl _ List.mem_cons_self
  | @name c cs _ hc hcs =>
    refine ⟨⟨c, cs, String.toList_ofList, hc, hcs⟩, ?_⟩
    rw [String.toList_ofList]
    exact hl
  | number _ _ hx => exact hx.unsigned

theorem Splits.proper {offset : Nat} {lexemes : List Lexeme} (h : Splits offset cs lexemes)
    (hcs : ∀ c ∈ cs, a.admits c = true) : ∀ x ∈ lexemes, x.token.Proper a := by
  induction h with
  | blank => nofun
  | @token _ w l rest _ _ _ _ ht _ ih =>
    intro x hx
    rcases List.mem_cons.mp hx with rfl | hx
    · exact ht.proper fun c hc => hcs c (List.mem_append_left _ (List.mem_append_right w hc))
    · exact ih (fun c hc => hcs c (List.mem_append_right _ hc)) x hx

/-- **Every scanned token is proper.** -/
theorem proper_of_scan {text : String} {lexemes : List Lexeme}
    (h : scan a text = .ok lexemes) : ∀ x ∈ lexemes, x.token.Proper a := by
  unfold scan at h
  split at h
  · rename_i hpermits
    exact (splits_of_scanFrom h).proper (List.all_eq_true.mp hpermits)
  · cases h

/-! ## Characters -/

/-- The signs that are tokens by themselves. -/
def signs : List Char := ['(', ')', ',', '+', '-', '*', '/', '%', '^']

theorem mem_signs_of_ofSign? (h : ofSign? c = some t) : c ∈ signs := by
  unfold ofSign? at h
  split at h
  · decide
  · decide
  · decide
  · obtain ⟨op, hop, -⟩ := Option.map_eq_some_iff.mp h
    unfold Operator.ofSign? at hop
    split at hop
    · decide
    · decide
    · decide
    · decide
    · decide
    · decide
    · cases hop

/-- A sign is neither blank nor part of a name or a number. -/
theorem apart_of_ofSign? (h : ofSign? c = some t) :
    isBlank c = false ∧ isNamePart c = false ∧ c ≠ '.' := by
  have hall : signs.all (fun c => decide (isBlank c = false ∧ isNamePart c = false ∧ c ≠ '.')) :=
    rfl
  exact of_decide_eq_true (List.all_eq_true.mp hall c (mem_signs_of_ofSign? h))

theorem isNamePart_of_isNameStart (h : isNameStart c = true) : isNamePart c = true := by
  unfold isNameStart at h
  unfold isNamePart
  rw [Bool.or_eq_true] at h ⊢
  rcases h with h | h
  · exact .inl (isAlphanum_iff.mpr (.inl h))
  · exact .inr h

theorem isNamePart_of_isDigit (h : c.isDigit = true) : isNamePart c = true := by
  unfold isNamePart
  rw [isAlphanum_iff.mpr (.inr h), Bool.true_or]

theorem isNamePart_of_isExponentMark (h : isExponentMark c = true) : isNamePart c = true := by
  unfold isExponentMark at h
  rw [Bool.or_eq_true, beq_iff_eq, beq_iff_eq] at h
  rcases h with rfl | rfl
  · rfl
  · rfl

/-- Nothing that is part of a name is blank. -/
theorem not_isBlank_of_isNamePart (h : isNamePart c = true) : isBlank c = false := by
  unfold isNamePart at h
  rw [Bool.or_eq_true, beq_iff_eq] at h
  rcases h with h | rfl
  · exact not_isBlank_of_isAlphanum h
  · rfl

/-- No character of a numeral is blank. -/
theorem not_isBlank_of_numeralChar (h : NumeralChar c) : isBlank c = false := by
  rcases h with h | h | rfl | rfl | rfl
  · exact not_isBlank_of_isNamePart (isNamePart_of_isDigit h)
  · exact not_isBlank_of_isNamePart (isNamePart_of_isExponentMark h)
  · rfl
  · rfl
  · rfl

theorem ends_nil : Ends [] := nofun

theorem ends_cons (hc : isNamePart c = false ∧ c ≠ '.') (rest : List Char) : Ends (c :: rest) := by
  intro d hd
  cases hd
  exact hc

/-! ## Alphabets -/

theorem admits_of_isDigit (h : c.isDigit = true) : a.admits c = true := by
  have hkeypad : Alphabet.keypad.admits c = true := by
    simp only [Alphabet.admits, h, Bool.true_or]
  cases a with
  | keypad => exact hkeypad
  | scientific => exact Alphabet.admits_scientific hkeypad

theorem admits_of_mem_keypadSigns (h : c ∈ Alphabet.keypadSigns) : a.admits c = true := by
  have hkeypad : Alphabet.keypad.admits c = true := by
    simp only [Alphabet.admits, List.contains_iff_mem.mpr h, Bool.or_true, Bool.true_or]
  cases a with
  | keypad => exact hkeypad
  | scientific => exact Alphabet.admits_scientific hkeypad

theorem admits_of_isBlank (h : isBlank c = true) : a.admits c = true := by
  cases a <;> simp only [Alphabet.admits, h, Bool.or_true]

theorem admits_significand {digits : List Char} {places : Nat} (h : Significand l digits places) :
    ∀ c ∈ l, a.admits c = true := by
  intro c hc
  cases h with
  | whole hw => exact admits_of_isDigit (hw c hc)
  | point hw hp =>
    rcases List.mem_append.mp hc with hc | hc
    · exact admits_of_isDigit (hw c hc)
    rcases List.mem_cons.mp hc with rfl | hc
    · exact admits_of_mem_keypadSigns (by decide)
    · exact admits_of_isDigit (hp c hc)

/-- An alphabet with a letter or the underscore has the comma. -/
theorem admits_comma (hc : isNameStart c = true) (h : a.admits c = true) :
    a.admits ',' = true := by
  cases a with
  | scientific => rfl
  | keypad =>
    exfalso
    simp only [Alphabet.admits, Bool.or_eq_true] at h
    rcases h with (h | h) | h
    · rw [not_isNameStart_of_isDigit h] at hc
      cases hc
    · have hall : Alphabet.keypadSigns.all (fun c => decide (isNameStart c = false)) := rfl
      have hnone := of_decide_eq_true (List.all_eq_true.mp hall c (List.contains_iff_mem.mp h))
      rw [hnone] at hc
      cases hc
    · rw [not_isBlank_of_isNamePart (isNamePart_of_isNameStart hc)] at h
      cases h

/-! ## Words -/

/-- The longest spelling at the front of a text is scanned first. -/
theorem scanFrom_munch (hm : munch (c :: cs) = some (l, rest)) (hr : read? l = some t)
    (hc : isBlank c = false) (offset : Nat) :
    scanFrom offset (c :: cs) = (do
      let lexemes ← scanFrom (offset + byteLength l) rest
      .ok (⟨t, offset⟩ :: lexemes)) := by
  rw [scanFrom, hc, if_neg Bool.false_ne_true]
  split
  · rename_i hnone
    rw [hm] at hnone
    cases hnone
  · rename_i l' rest' hsome
    rw [hm] at hsome
    cases hsome
    rw [hr]

/-- Nothing is scanned where no token begins. -/
theorem scanFrom_stop (hm : munch (c :: cs) = none) (hc : isBlank c = false) (offset : Nat) :
    scanFrom offset (c :: cs) = .error (.unexpectedCharacter c offset) := by
  rw [scanFrom, hc, if_neg Bool.false_ne_true]
  split
  · rfl
  · rename_i hsome
    rw [hm] at hsome
    cases hsome

theorem scanFrom_of_munch (hm : munch (c :: cs) = some (l, rest)) (hr : read? l = some t)
    (hc : isBlank c = false) {offset : Nat} {lexemes : List Lexeme}
    (h : scanFrom (offset + byteLength l) rest = .ok lexemes) :
    scanFrom offset (c :: cs) = .ok (⟨t, offset⟩ :: lexemes) := by
  rw [scanFrom_munch hm hr hc]
  exact Except.bind_of_ok h _

theorem Scans.word (ha : ∀ d ∈ c :: cs, a.admits d = true)
    (hm : ∀ rest, Ends rest → munch (c :: cs ++ rest) = some (c :: cs, rest))
    (hr : read? (c :: cs) = some t) (hc : isBlank c = false) : Scans a (c :: cs) [t] := by
  refine ⟨ha, fun offset rest lexemes hrest h => ?_⟩
  exact ⟨[⟨t, offset⟩], rfl, scanFrom_of_munch (hm rest hrest) hr hc h⟩

theorem ofSign?_of_isNamePart (h : isNamePart c = true) : ofSign? c = none := by
  cases hs : ofSign? c with
  | none => rfl
  | some t =>
    have := (apart_of_ofSign? hs).2.1
    rw [h] at this
    cases this

/-- A sign is split off wherever it stands. -/
theorem munch_sign (hc : ofSign? c = some t) (rest : List Char) :
    munch (c :: rest) = some ([c], rest) := by
  rw [munch, hc, Option.isSome_some, if_pos rfl]

/-- A name is split off in front of what does not go on with it. -/
theorem munch_name (hc : isNameStart c = true) (hcs : ∀ d ∈ cs, isNamePart d = true)
    (hend : ∀ d ∈ rest.head?, isNamePart d = false) :
    munch (c :: cs ++ rest) = some (c :: cs, rest) := by
  have hbegins : Numeral.begins (c :: (cs ++ rest)) ≠ true := by
    intro hb
    have := not_isNameStart_of_begins hb
    rw [hc] at this
    cases this
  obtain ⟨htake, hdrop⟩ := takeWhile_of_head hend
  rw [List.cons_append, munch, ofSign?_of_isNamePart (isNamePart_of_isNameStart hc),
    Option.isSome_none, if_neg Bool.false_ne_true, if_neg hbegins, if_pos hc,
    List.takeWhile_append_of_pos hcs, List.dropWhile_append_of_pos hcs, htake, hdrop,
    List.append_nil]

/-- **A name is scanned as it is written.** -/
theorem Scans.name {s : String} (h : Proper a (.name s)) : Scans a s.toList [.name s] := by
  obtain ⟨⟨c, cs, hs, hc, hcs⟩, ha⟩ := h
  rw [hs] at ha ⊢
  refine Scans.word ha ?_ ?_ (not_isBlank_of_isNamePart (isNamePart_of_isNameStart hc))
  · exact fun rest hrest => munch_name hc hcs fun d hd => (hrest d hd).1
  · rw [read?, if_pos hc, if_pos (List.all_eq_true.mpr hcs), ← hs, String.ofList_toList]

/-- Nothing of a text that ends a number belongs to the numeral in front of it. -/
theorem munchExponent_of_ends (h : Ends rest) : Numeral.munchExponent rest = ([], rest) := by
  cases rest with
  | nil => rfl
  | cons c cs =>
    have hmark : isExponentMark c = false := by
      by_contra hm
      have := isNamePart_of_isExponentMark (Bool.eq_true_of_not_eq_false hm)
      rw [(h c rfl).1] at this
      cases this
    unfold Numeral.munchExponent
    simp only [hmark]
    rfl

theorem digits_of_ends (h : Ends rest) :
    rest.takeWhile Char.isDigit = [] ∧ rest.dropWhile Char.isDigit = rest := by
  apply takeWhile_of_head
  intro c hc
  by_contra hd
  have := isNamePart_of_isDigit (Bool.eq_true_of_not_eq_false hd)
  rw [(h c hc).1] at this
  cases this

/-- A significand in front of such a text is the numeral that is split off. -/
theorem munch_significand {digits : List Char} {places : Nat} (hl : Significand l digits places)
    (h : Ends rest) : Numeral.munch (l ++ rest) = (l, rest) := by
  obtain ⟨htake, hdrop⟩ := digits_of_ends h
  have hfirst : (Numeral.munch (l ++ rest)).1 = l := by
    cases hl with
    | whole hw =>
      rw [Numeral.munch_digits hw, Numeral.munch_eq, htake, hdrop,
        Numeral.munchPlaces_of_head fun c hc => (h c hc).2, munchExponent_of_ends h]
      exact List.append_nil l
    | @point w p hw hp =>
      rw [List.append_assoc, List.cons_append, Numeral.munch_digits hw, Numeral.munch_point hp,
        htake, hdrop, munchExponent_of_ends h]
      exact congrArg (w ++ ·) (List.append_nil _)
  have happ := Numeral.munch_append (l ++ rest)
  rw [hfirst, List.append_cancel_left_eq] at happ
  exact Prod.ext hfirst happ

/-- A significand begins as a numeral does. -/
theorem begins_significand {digits : List Char} {places : Nat} (h : Significand l digits places)
    (rest : List Char) :
    ∃ c cs, l = c :: cs ∧ (c.isDigit = true ∨ c = '.') ∧
      Numeral.begins (c :: (cs ++ rest)) = true := by
  have hdigit {d : Char} (hd : d.isDigit = true) (ds : List Char) :
      Numeral.begins (d :: ds) = true := by
    unfold Numeral.begins
    split
    · rename_i heq
      cases heq
      cases hd
    · rename_i heq
      cases heq
      exact hd
    · rename_i heq
      cases heq
  cases h with
  | whole hw hne =>
    obtain ⟨c, cs, rfl⟩ := List.exists_cons_of_ne_nil hne
    have hc := hw c List.mem_cons_self
    exact ⟨c, cs, rfl, .inl hc, hdigit hc _⟩
  | @point w p hw hp hne =>
    cases w with
    | nil =>
      obtain ⟨c, cs, rfl⟩ := List.exists_cons_of_ne_nil hne
      exact ⟨'.', c :: cs, rfl, .inr rfl, hp c List.mem_cons_self⟩
    | cons c w =>
      have hc := hw c List.mem_cons_self
      exact ⟨c, _, rfl, .inl hc, hdigit hc _⟩

/-- Neither a digit nor a point is a sign, a letter or blank. -/
theorem numeral_head (h : c.isDigit = true ∨ c = '.') :
    ofSign? c = none ∧ isNameStart c = false ∧ isBlank c = false := by
  rcases h with h | rfl
  · have hpart := isNamePart_of_isDigit h
    exact ⟨ofSign?_of_isNamePart hpart, not_isNameStart_of_isDigit h,
      not_isBlank_of_isNamePart hpart⟩
  · exact ⟨rfl, rfl, rfl⟩

/-- The digits of a number are scanned as the number they are read as. -/
theorem Scans.significand {digits : List Char} {places : Nat} {d : Decimal}
    (hsig : Significand l digits places) (hread : Decimal.read? l = some d) :
    Scans a l [.number d.toFloat] := by
  obtain ⟨c, cs, hl, hc, -⟩ := begins_significand hsig []
  obtain ⟨hsign, hstart, hblank⟩ := numeral_head hc
  rw [hl] at hsig hread ⊢
  refine Scans.word (admits_significand hsig) ?_ ?_ hblank
  · intro rest hrest
    obtain ⟨c', cs', heq, -, hbegins⟩ := begins_significand hsig rest
    cases heq
    have hmunch := munch_significand hsig hrest
    rw [List.cons_append] at hmunch ⊢
    rw [munch, hsign, Option.isSome_none, if_neg Bool.false_ne_true, if_pos hbegins, hmunch]
  · rw [read?, hstart, if_neg Bool.false_ne_true, hsign, if_neg fun h => Bool.false_ne_true h.2,
      hread]
    rfl

/-- **A number is scanned as it is written.** -/
theorem Scans.number {x : Float} (hfin : x.isFinite = true) (hx : Double.Unsigned x) :
    Scans a (plain.write x) [.number x] := by
  obtain ⟨digits, places, hsig, hread⟩ := plain_reads hfin hx
  obtain ⟨d, hd, rfl⟩ := Option.map_eq_some_iff.mp hread
  exact Scans.significand hsig hd

/-! ## Signs, blank characters, and one text behind the other -/

theorem Scans.nil : Scans a [] [] := ⟨nofun, fun _ _ _ _ h => ⟨[], rfl, h⟩⟩

theorem Scans.sign (ha : a.admits c = true) (hc : ofSign? c = some t) (h : Scans a cs ts) :
    Scans a (c :: cs) (t :: ts) := by
  refine ⟨List.forall_mem_cons.mpr ⟨ha, h.admitted⟩, fun offset rest lexemes hrest hok => ?_⟩
  rw [byteLength_cons, ← Nat.add_assoc] at hok
  obtain ⟨front, hfront, hscan⟩ := h.scanned _ rest lexemes hrest hok
  refine ⟨⟨t, offset⟩ :: front, congrArg (t :: ·) hfront, ?_⟩
  have hread : read? [c] = some t := by
    rw [read?, (reads_of_ofSign? hc []).2, if_neg Bool.false_ne_true, hc, if_pos ⟨rfl, rfl⟩]
  exact scanFrom_of_munch (munch_sign hc _) hread (apart_of_ofSign? hc).1 hscan

theorem Scans.blank (hc : isBlank c = true) (h : Scans a cs ts) : Scans a (c :: cs) ts := by
  refine ⟨List.forall_mem_cons.mpr ⟨admits_of_isBlank hc, h.admitted⟩, ?_⟩
  intro offset rest lexemes hrest hok
  rw [byteLength_cons, ← Nat.add_assoc] at hok
  obtain ⟨front, hfront, hscan⟩ := h.scanned _ rest lexemes hrest hok
  refine ⟨front, hfront, ?_⟩
  rw [List.cons_append, scanFrom_blank hc]
  exact hscan

/-- A text that does not go on with a word stands behind any other. -/
theorem Scans.append {ds : List Char} (hc : isNamePart c = false ∧ c ≠ '.') (h : Scans a cs ts)
    (hd : Scans a (c :: ds) us) : Scans a (cs ++ c :: ds) (ts ++ us) := by
  refine ⟨List.forall_mem_append.mpr ⟨h.admitted, hd.admitted⟩, ?_⟩
  intro offset rest lexemes hrest hok
  rw [byteLength_append, ← Nat.add_assoc] at hok
  obtain ⟨behind, hbehind, hscan⟩ := hd.scanned _ rest lexemes hrest hok
  obtain ⟨front, hfront, hscan'⟩ := h.scanned offset _ _ (ends_cons hc (ds ++ rest)) hscan
  refine ⟨front ++ behind, ?_, ?_⟩
  · rw [List.map_append, hfront, hbehind]
  · rw [List.append_assoc, List.append_assoc]
    exact hscan'

/-! ## A token of any kind -/

/-- The token is written as it is read: it was scanned in the alphabet, and is finite if it is a
number. -/
def Writable (a : Alphabet) (t : Token) : Prop :=
  t.Proper a ∧ ∀ x, t = .number x → x.isFinite = true

/-- **A written token is scanned**, whatever kind it is of. -/
theorem Writable.scans (h : t.Writable a) : Scans a t.write [t] := by
  obtain ⟨hproper, hfin⟩ := h
  cases t with
  | number x => exact Scans.number (hfin x rfl) hproper
  | name s => exact Scans.name hproper
  | operator op => exact Scans.sign (t := .operator op) hproper (by cases op <;> rfl) .nil
  | openParen => exact Scans.sign (t := .openParen) (by cases a <;> rfl) rfl .nil
  | closeParen => exact Scans.sign (t := .closeParen) (by cases a <;> rfl) rfl .nil
  | comma => exact Scans.sign (t := .comma) hproper rfl .nil

/-- No spelling begins blank. -/
theorem Writable.write_eq (h : t.Writable a) :
    ∃ c cs, t.write = c :: cs ∧ isBlank c = false := by
  obtain ⟨hproper, hfin⟩ := h
  cases t with
  | number x =>
    obtain ⟨digits, places, hsig, -⟩ := plain_reads (hfin x rfl) hproper
    obtain ⟨c, cs, hcs, hc, -⟩ := begins_significand hsig []
    exact ⟨c, cs, hcs, (numeral_head hc).2.2⟩
  | name s =>
    obtain ⟨⟨c, cs, hs, hc, -⟩, -⟩ := hproper
    exact ⟨c, cs, hs, not_isBlank_of_isNamePart (isNamePart_of_isNameStart hc)⟩
  | operator op => exact ⟨op.sign, [], rfl, by cases op <;> rfl⟩
  | openParen | closeParen | comma => exact ⟨_, [], rfl, rfl⟩

/-- Where no blank character stands, the first token begins. -/
theorem offset_of_scanFrom {s : Lexeme} (hc : isBlank c = false)
    (h : scanFrom offset (c :: cs) = .ok (s :: lexemes)) : s.offset = offset := by
  rw [scanFrom, hc, if_neg Bool.false_ne_true] at h
  split at h
  · cases h
  · split at h
    · cases h
    · obtain ⟨_, -, h⟩ := Except.bind_eq_ok.mp h
      cases h
      rfl

/-- **A written token is scanned where it stands**, in front of a text that ends it. -/
theorem scanFrom_write (ht : t.Writable a) (hrest : Ends rest)
    (h : scanFrom (offset + byteLength t.write) rest = .ok lexemes) :
    scanFrom offset (t.write ++ rest) = .ok (⟨t, offset⟩ :: lexemes) := by
  obtain ⟨front, hfront, hscan⟩ := ht.scans.scanned offset rest lexemes hrest h
  obtain ⟨s, rfl, rfl⟩ := List.map_eq_singleton_iff.mp hfront
  obtain ⟨c, cs, hwrite, hc⟩ := ht.write_eq
  have hoffset : s.offset = offset := by
    rw [hwrite] at hscan
    exact offset_of_scanFrom hc hscan
  rw [hscan, ← hoffset]
  rfl

/-! ## A whole text -/

/-- **A whole text in its alphabet is scanned.** -/
theorem scan_of_scans (h : Scans a cs ts) :
    ∃ lexemes : List Lexeme, lexemes.map Lexeme.token = ts ∧
      scan a (String.ofList cs) = .ok lexemes := by
  have hnil : scanFrom (0 + byteLength cs) [] = .ok [] := by rw [scanFrom]
  obtain ⟨front, hfront, hscan⟩ := h.scanned 0 [] [] ends_nil hnil
  rw [List.append_nil, List.append_nil] at hscan
  refine ⟨front, hfront, ?_⟩
  have hpermits : a.permits cs = true := List.all_eq_true.mpr h.admitted
  unfold scan
  rw [String.toList_ofList, if_pos hpermits]
  exact hscan

end Abacus.Token
