import Abacus.Proofs.Double.Reading
import Abacus.Proofs.Except
import Abacus.Proofs.Text.Ascii
import Abacus.Proofs.Token.Numeral
import Abacus.Token.Scan

/-!
# How a text splits into tokens

A text that is scanned without error is the spellings of its tokens, one behind the other, with
blank characters before, between and behind them. This module says so without the scanner, as a
relation between a text and its tokens, and shows that the scanner keeps to it.

* `Token.Reads` is what a spelling means in front of the rest of the text. The rest matters only in
  that names and numerals are as long as can be: a name is followed by no letter, digit or
  underscore, and no longer beginning of the text is a numeral. The double of a numeral is its exact
  decimal value rounded correctly (`Double.Rounds`), not what some reader makes of it.
* `Token.Splits` is how a text is cut, from an offset on. The offset of a token is the number of
  UTF-8 bytes before it, so a blank character of three bytes counts as three.

A sign that is an operator, a parenthesis and the comma are one character each. Two operators are
never taken together, and a sign is never part of a numeral, save the sign of an exponent.

Results:
* `reads_of_munch`: what is split off at a place is a token there.
* `Token.scan_splits`: scanning cuts a text in this way, at increasing offsets.
* `scan_splits_longest`: an exponent mark without digits, a second point, and a wide blank.

Out of scope: which texts are scanned at all (`Proofs/Token/Failure`). The converse, that what is a
token in front of a rest is split off there, is `Proofs/Token/Insertion`.
-/

namespace Abacus.Token

/-- A spelling, in front of the rest of the text, is a token. -/
inductive Reads : List Char → List Char → Token → Prop
  | operator {rest : List Char} (op : Operator) : Reads [op.sign] rest (.operator op)
  | openParen {rest : List Char} : Reads ['('] rest .openParen
  | closeParen {rest : List Char} : Reads [')'] rest .closeParen
  | comma {rest : List Char} : Reads [','] rest .comma
  /-- the name goes on as long as it can -/
  | name {c : Char} {cs rest : List Char} (hc : isNameStart c = true)
      (hcs : ∀ d ∈ cs, isNamePart d = true) (hend : ∀ d ∈ rest.head?, isNamePart d = false) :
      Reads (c :: cs) rest (.name (String.ofList (c :: cs)))
  /-- no longer numeral begins here, and the double is the numeral rounded correctly -/
  | number {l rest : List Char} {d : Decimal} {x : Float} (hl : Spells l d)
      (hmax : ∀ p d', p <+: l ++ rest → Spells p d' → p.length ≤ l.length)
      (hx : Double.Rounds d.value x) : Reads l rest (.number x)

/-- A text that starts at an offset is cut into blank characters and the spellings of tokens. -/
inductive Splits : Nat → List Char → List Lexeme → Prop
  | blank {offset : Nat} {w : List Char} (hw : ∀ c ∈ w, isBlank c = true) : Splits offset w []
  | token {offset : Nat} {w l rest : List Char} {t : Token} {lexemes : List Lexeme}
      (hw : ∀ c ∈ w, isBlank c = true) (hl : l ≠ []) (ht : Reads l rest t)
      (hrest : Splits (offset + byteLength (w ++ l)) rest lexemes) :
      Splits offset (w ++ l ++ rest) (⟨t, offset + byteLength w⟩ :: lexemes)

/-! ## One token -/

theorem reads_of_ofSign? {c : Char} {t : Token} (h : ofSign? c = some t) (rest : List Char) :
    Reads [c] rest t ∧ isNameStart c = false := by
  unfold ofSign? at h
  split at h
  · cases h
    exact ⟨.openParen, rfl⟩
  · cases h
    exact ⟨.closeParen, rfl⟩
  · cases h
    exact ⟨.comma, rfl⟩
  · obtain ⟨op, hop, rfl⟩ := Option.map_eq_some_iff.mp h
    unfold Operator.ofSign? at hop
    split at hop <;> cases hop
    · exact ⟨.operator .plus, rfl⟩
    · exact ⟨.operator .minus, rfl⟩
    · exact ⟨.operator .times, rfl⟩
    · exact ⟨.operator .slash, rfl⟩
    · exact ⟨.operator .percent, rfl⟩
    · exact ⟨.operator .caret, rfl⟩

theorem head?_dropWhile {p : Char → Bool} {cs : List Char} {d : Char}
    (h : d ∈ (cs.dropWhile p).head?) : p d = false := by
  have := List.head?_dropWhile_not p cs
  rw [h] at this
  exact this

/-- A numeral begins with a digit or a point. -/
theorem begins_cons {c : Char} {cs : List Char} (h : Numeral.begins (c :: cs) = true) :
    c.isDigit = true ∨ c = '.' := by
  rcases Numeral.begins_spec h with ⟨d, r, heq, hd⟩ | ⟨d, r, heq, -⟩
  · cases heq
    exact .inl hd
  · cases heq
    exact .inr rfl

theorem not_isNameStart_of_isDigit {c : Char} (h : c.isDigit = true) : isNameStart c = false := by
  have hscore : c ≠ '_' := by
    rintro rfl
    cases h
  rw [isNameStart, not_isAlpha_of_isDigit h, beq_eq_false_iff_ne.mpr hscore]
  rfl

theorem not_isNameStart_of_begins {c : Char} {cs : List Char}
    (h : Numeral.begins (c :: cs) = true) : isNameStart c = false := by
  rcases begins_cons h with hc | rfl
  · exact not_isNameStart_of_isDigit hc
  · rfl

/-- The longest spelling of a token that a text begins with means the token it is read as. -/
theorem reads_of_munch {cs l rest : List Char} {t : Token} (hm : munch cs = some (l, rest))
    (hr : read? l = some t) : l ≠ [] ∧ Reads l rest t := by
  have happ := munch_append hm
  have hshort := munch_shorter hm
  cases cs with
  | nil => cases hm
  | cons c cs =>
    unfold munch at hm
    dsimp only at hm
    by_cases hsign : (ofSign? c).isSome = true
    · rw [if_pos hsign] at hm
      cases hm
      obtain ⟨t', ht'⟩ := Option.isSome_iff_exists.mp hsign
      obtain ⟨hreads, hstart⟩ := reads_of_ofSign? ht' rest
      unfold read? at hr
      dsimp only at hr
      rw [hstart, if_neg Bool.false_ne_true, if_pos ⟨rfl, hsign⟩, ht'] at hr
      cases hr
      exact ⟨List.cons_ne_nil _ _, hreads⟩
    rw [if_neg hsign] at hm
    by_cases hb : Numeral.begins (c :: cs) = true
    · rw [if_pos hb, Option.some.injEq] at hm
      cases l with
      | nil =>
        rw [List.nil_append] at happ
        exact absurd hshort (by rw [happ]; exact Nat.lt_irrefl _)
      | cons a l =>
        obtain rfl : a = c := (List.cons.inj happ).1
        unfold read? at hr
        dsimp only at hr
        rw [not_isNameStart_of_begins hb, if_neg Bool.false_ne_true,
          if_neg fun h => hsign h.2] at hr
        obtain ⟨d, hd, rfl⟩ := Option.map_eq_some_iff.mp hr
        refine ⟨List.cons_ne_nil _ _, .number (Decimal.spells_of_read? hd) (fun p d' hp hs => ?_)
          d.toFloat_rounds⟩
        rw [happ] at hp
        have := Numeral.munch_longest hs hp
        rwa [hm] at this
    rw [if_neg hb] at hm
    by_cases hstart : isNameStart c = true
    · rw [if_pos hstart] at hm
      cases hm
      unfold read? at hr
      dsimp only at hr
      rw [if_pos hstart] at hr
      split at hr
      · cases hr
        rename_i hall
        exact ⟨List.cons_ne_nil _ _,
          .name hstart (List.all_eq_true.mp hall) fun d hd => head?_dropWhile hd⟩
      · cases hr
    · rw [if_neg hstart] at hm
      cases hm

/-! ## A whole text -/

theorem scanFrom_blank {c : Char} (hc : isBlank c = true) (offset : Nat) (cs : List Char) :
    scanFrom offset (c :: cs) = scanFrom (offset + c.utf8Size) cs := by
  rw [scanFrom, if_pos hc]

/-- What can be wrong with characters of the alphabet. -/
theorem scanFrom_eq_error {offset : Nat} {cs : List Char} {e : Term.Error}
    (h : scanFrom offset cs = .error e) :
    (∃ c o, e = .unexpectedCharacter c o) ∨ ∃ spelling o, e = .invalidNumber spelling o := by
  fun_induction scanFrom offset cs with
  | case1 => cases h
  | case2 offset c rest hb ih => exact ih h
  | case3 offset c rest hb hm =>
    cases h
    exact .inl ⟨c, offset, rfl⟩
  | case4 offset c rest hb spelling behind hm hr =>
    cases h
    exact .inr ⟨_, offset, rfl⟩
  | case5 offset c rest hb spelling behind hm token hr ih =>
    rcases Except.bind_eq_error.mp h with h | ⟨lexemes, -, h⟩
    · exact ih h
    · cases h

/-- What cannot be cut into tokens is reported as such. -/
theorem kind_of_scan {a : Alphabet} {text : String} {e : Term.Error}
    (h : scan a text = .error e) : e.kind = .lexical := by
  unfold scan at h
  split at h
  · rcases scanFrom_eq_error h with ⟨c, o, rfl⟩ | ⟨spelling, o, rfl⟩ <;> rfl
  · cases h
    rfl

/-- Only a character outside the alphabet is reported as such. -/
theorem scan_eq_unsupported_iff {a : Alphabet} {text : String} :
    scan a text = .error .unsupportedCharacters ↔ a.permits text.toList = false := by
  unfold scan
  split
  · rename_i hpermits
    rw [hpermits]
    refine ⟨fun h => ?_, nofun⟩
    rcases scanFrom_eq_error h with ⟨c, o, he⟩ | ⟨spelling, o, he⟩ <;> cases he
  · rename_i hpermits
    exact ⟨fun _ => eq_false_of_ne_true hpermits, fun _ => rfl⟩

theorem Splits.cons_blank {offset : Nat} {c : Char} {cs : List Char} {lexemes : List Lexeme}
    (hc : isBlank c = true) (h : Splits (offset + c.utf8Size) cs lexemes) :
    Splits offset (c :: cs) lexemes := by
  have hcons {w : List Char} (hw : ∀ d ∈ w, isBlank d = true) : ∀ d ∈ c :: w, isBlank d = true := by
    intro d hd
    rcases List.mem_cons.mp hd with rfl | hd
    · exact hc
    · exact hw d hd
  cases h with
  | blank hw => exact .blank (hcons hw)
  | @token _ w l rest t _ hw hl ht hrest =>
    rw [Nat.add_assoc, ← byteLength_cons, ← List.cons_append] at hrest
    have := Splits.token (hcons hw) hl ht hrest
    rwa [byteLength_cons, ← Nat.add_assoc] at this

theorem splits_of_scanFrom {offset : Nat} {cs : List Char} {lexemes : List Lexeme}
    (h : scanFrom offset cs = .ok lexemes) : Splits offset cs lexemes := by
  fun_induction scanFrom offset cs generalizing lexemes with
  | case1 offset =>
    cases h
    exact .blank nofun
  | case2 offset c cs hb ih => exact (ih h).cons_blank hb
  | case3 => cases h
  | case4 => cases h
  | case5 offset c cs hb l rest hm t ht ih =>
    obtain ⟨lexemes, hrest, h⟩ := Except.bind_eq_ok.mp h
    cases h
    obtain ⟨hne, hreads⟩ := reads_of_munch hm ht
    rw [← munch_append hm]
    exact Splits.token (w := []) nofun hne hreads (ih hrest)

/-- Each spelling takes at least one byte. -/
theorem Splits.increasing {offset : Nat} {cs : List Char} {lexemes : List Lexeme}
    (h : Splits offset cs lexemes) :
    (∀ x ∈ lexemes, offset ≤ x.offset) ∧ (lexemes.map Lexeme.offset).Pairwise (· < ·) := by
  induction h with
  | blank => exact ⟨nofun, .nil⟩
  | @token offset w l rest t lexemes hw hl ht hrest ih =>
    have hpos := byteLength_pos hl
    rw [byteLength_append] at ih
    constructor
    · intro x hx
      rcases List.mem_cons.mp hx with rfl | hx
      · exact Nat.le_add_right _ _
      · have := ih.1 x hx
        omega
    · rw [List.map_cons, List.pairwise_cons]
      refine ⟨?_, ih.2⟩
      intro n hn
      obtain ⟨x, hx, rfl⟩ := List.mem_map.mp hn
      have := ih.1 x hx
      dsimp only
      omega

/-- **A scanned text is the spellings of its tokens**, with nothing but blank characters around
them. The offset of a token is the number of bytes before it, so offsets increase. -/
theorem scan_splits {alphabet : Alphabet} {text : String} {lexemes : List Lexeme}
    (h : scan alphabet text = .ok lexemes) :
    Splits 0 text.toList lexemes ∧ (lexemes.map Lexeme.offset).Pairwise (· < ·) := by
  unfold scan at h
  split at h
  · have hs := splits_of_scanFrom h
    exact ⟨hs, hs.increasing.2⟩
  · cases h

/-- An exponent mark without digits begins a name, a second point begins a second number, and a
blank character of three bytes counts as three. -/
theorem scan_splits_longest :
    let lexemes : List Lexeme := [⟨.number (Decimal.toFloat ⟨1, 0⟩), 0⟩, ⟨.name "e", 1⟩,
      ⟨.number (Decimal.toFloat ⟨125, -2⟩), 5⟩, ⟨.number (Decimal.toFloat ⟨5, 1⟩), 9⟩,
      ⟨.operator .percent, 14⟩]
    scan .scientific "1e\u20031.25.5e+2%" = .ok lexemes ∧
      Splits 0 "1e\u20031.25.5e+2%".toList lexemes ∧
      (lexemes.map Lexeme.offset).Pairwise (· < ·) := by
  intro lexemes
  have h : scan .scientific "1e\u20031.25.5e+2%" = .ok lexemes := by
    with_unfolding_all rfl
  exact ⟨h, scan_splits h⟩

end Abacus.Token
