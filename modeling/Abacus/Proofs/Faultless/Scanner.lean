import Abacus.Proofs.Faultless.Cursor
import Abacus.Proofs.Token.Failure

/-!
# Scanning with a cursor

The tokens of a text are found by a cursor that moves over bytes. Every look at the text, every
step and every spelling that is cut out is taken at a byte, so the scanner has a result only if each
of these bytes is a boundary of characters inside the text. It always has one, and it is what
`Token.scan` finds.

* `skipNumeral?`: the longest numeral, with the look over a sign behind an exponent mark. The cursor
  goes behind the mark only if digits follow.
* `number?`, `name?`: the tokens of more than one character, cut out between two places.
* `token?`: one token. `tokens?`: those of the rest of a text, in so many turns.

The alphabet is checked before the first token, over the whole text. The only characters of several
bytes in it are blank ones, which the cursor goes over one at a time; but the lemmas hold of any
text.

Results:
* `tokens?_eq`: from a place with a text behind it, the tokens of that text.
* `scan?_eq`: the cursor never leaves the boundaries, and scans what `Token.scan` scans.
-/

namespace Abacus.Cursor

/-- Behind so many characters. -/
def advanceBy? (cs : List Char) : Nat → Nat → Option Nat
  | 0, p => some p
  | k + 1, p => do
    let q ← advance? cs p
    advanceBy? cs k q

/-- Behind a point and the digits behind it, if there is a point. -/
def skipPlaces? (cs : List Char) (p : Nat) : Option Nat := do
  if (← peek? cs p) = some '.' then
    let q ← advance? cs p
    skipWhile? Char.isDigit cs q
  else some p

/-- How far behind an exponent mark its digits are due. -/
def digitsAt? (cs : List Char) (p : Nat) : Option Nat := do
  match ← peekAt? cs p 1 with
  | some '+' => some 2
  | some '-' => some 2
  | _ => some 1

/-- Behind an exponent with digits, if there is one. -/
def skipExponent? (cs : List Char) (p : Nat) : Option Nat := do
  if (← peek? cs p).any isExponentMark then
    let ahead ← digitsAt? cs p
    if (← peekAt? cs p ahead).any Char.isDigit then
      let q ← advanceBy? cs ahead p
      skipWhile? Char.isDigit cs q
    else some p
  else some p

/-- Behind the longest numeral. -/
def skipNumeral? (cs : List Char) (p : Nat) : Option Nat := do
  let whole ← skipWhile? Char.isDigit cs p
  let places ← skipPlaces? cs whole
  skipExponent? cs places

/-- A numeral begins with the character: a digit, or a point with a digit behind it. -/
def begins? (cs : List Char) (p : Nat) (c : Char) : Option Bool :=
  if c.isDigit then some true
  else if c = '.' then (peekAt? cs p 1).map (·.any Char.isDigit)
  else some false

/-- A number, and the place behind it. -/
def number? (cs : List Char) (p : Nat) : Option (Except Term.Error (Token × Nat)) := do
  let q ← skipNumeral? cs p
  let spelling ← between? cs p q
  match Decimal.read? spelling with
  | some d => some (.ok (.number d.toFloat, q))
  | none => some (.error (.invalidNumber (String.ofList spelling) p))

/-- A name, and the place behind it. -/
def name? (cs : List Char) (p : Nat) : Option (Except Term.Error (Token × Nat)) := do
  let q ← skipWhile? isNamePart cs p
  let spelling ← between? cs p q
  some (.ok (.name (String.ofList spelling), q))

/-- The token that begins with a character, and the place behind it. -/
def token? (cs : List Char) (p : Nat) (c : Char) : Option (Except Term.Error (Token × Nat)) := do
  match Token.ofSign? c with
  | some t =>
    let q ← advance? cs p
    some (.ok (t, q))
  | none =>
    if ← begins? cs p c then number? cs p
    else if isNameStart c then name? cs p
    else some (.error (.unexpectedCharacter c p))

/-- The tokens behind a place, in so many turns. -/
def tokens? (cs : List Char) : Nat → Nat → Option (Except Term.Error (List Lexeme))
  | 0, _ => none
  | n + 1, p => do
    let offset ← skipWhile? isBlank cs p
    match ← peek? cs offset with
    | none => some (.ok [])
    | some c =>
      match ← token? cs offset c with
      | .error e => some (.error e)
      | .ok (t, q) =>
        let others ← tokens? cs n q
        some (others.map fun lexemes => ⟨t, offset⟩ :: lexemes)

/-- The tokens of a text written in an alphabet. -/
def scan? (a : Alphabet) (text : String) : Option (Except Term.Error (List Lexeme)) :=
  if a.permits text.toList then tokens? text.toList (text.toList.length + 1) 0
  else some (.error .unsupportedCharacters)

variable {c : Char} {cs rest mid : List Char} {p : Nat}

/-! ## Numerals -/

theorem advanceBy?_eq (h : fromByte? p cs = some (mid ++ rest)) :
    advanceBy? cs mid.length p = some (p + byteLength mid) := by
  induction mid generalizing p with
  | nil => rfl
  | cons c mid ih =>
    rw [List.length_cons, advanceBy?, advance?_eq h, byteLength_cons, ← Nat.add_assoc]
    exact ih (fromByte?_next h)

theorem skipPlaces?_eq (h : fromByte? p cs = some rest) :
    skipPlaces? cs p = some (p + byteLength (Numeral.munchPlaces rest).1) := by
  rw [skipPlaces?, peek?_eq h]
  show (if rest.head? = some '.' then _ else _) = _
  by_cases hpoint : rest.head? = some '.'
  · obtain ⟨behind, rfl⟩ := List.head?_eq_some_iff.mp hpoint
    rw [if_pos hpoint, advance?_eq h, Numeral.munchPlaces, byteLength_cons, ← Nat.add_assoc]
    exact skipWhile?_eq _ (fromByte?_next h)
  · have hnone : Numeral.munchPlaces rest = ([], rest) := by
      refine Numeral.munchPlaces_of_head fun c hc hcpoint => hpoint ?_
      rw [← hcpoint]
      exact hc
    rw [if_neg hpoint, hnone]
    rfl

/-- The digits of an exponent are due behind its mark and its sign. -/
theorem digitsAt?_eq (h : fromByte? p cs = some (c :: rest)) :
    digitsAt? cs p = some (c :: (Numeral.munchSign rest).1).length := by
  rw [digitsAt?, peekAt?_eq h]
  show (match rest[0]? with | some '+' => some 2 | some '-' => some 2 | _ => some 1) = _
  match rest with
  | [] => rfl
  | d :: rest =>
    by_cases hplus : d = '+'
    · rw [hplus]
      rfl
    · by_cases hminus : d = '-'
      · rw [hminus]
        rfl
      · have hnone : Numeral.munchSign (d :: rest) = ([], d :: rest) := by
          unfold Numeral.munchSign
          split
          · rename_i h
            cases h
            exact absurd rfl hminus
          · rename_i h
            cases h
            exact absurd rfl hplus
          · rfl
        rw [hnone]
        show (match some d with | some '+' => some 2 | some '-' => some 2 | _ => some 1) = some 1
        split
        · rename_i h
          exact absurd (Option.some.inj h) hplus
        · rename_i h
          exact absurd (Option.some.inj h) hminus
        · rfl

theorem any_head?_isDigit (cs : List Char) :
    cs.head?.any Char.isDigit = !(cs.takeWhile Char.isDigit).isEmpty := by
  cases cs with
  | nil => rfl
  | cons c cs =>
    rw [List.takeWhile_cons]
    show c.isDigit = _
    cases c.isDigit <;> rfl

theorem skipExponent?_eq (h : fromByte? p cs = some rest) :
    skipExponent? cs p = some (p + byteLength (Numeral.munchExponent rest).1) := by
  rw [skipExponent?, peek?_eq h]
  cases rest with
  | nil => rfl
  | cons c rest =>
    have hsplit : fromByte? p cs =
        some (c :: (Numeral.munchSign rest).1 ++ (Numeral.munchSign rest).2) := by
      rw [List.cons_append, Numeral.munchSign_append]
      exact h
    have hdigits := any_head?_isDigit (Numeral.munchSign rest).2
    have hahead : peekAt? cs p (c :: (Numeral.munchSign rest).1).length =
        some (Numeral.munchSign rest).2.head? := by
      rw [peekAt?_eq hsplit, List.getElem?_append_right (Nat.le_refl _), Nat.sub_self,
        List.head?_eq_getElem?]
    have hexponent : Numeral.munchExponent (c :: rest) =
        if isExponentMark c && !((Numeral.munchSign rest).2.takeWhile Char.isDigit).isEmpty then
          (c :: (Numeral.munchSign rest).1 ++ (Numeral.munchSign rest).2.takeWhile Char.isDigit,
            (Numeral.munchSign rest).2.dropWhile Char.isDigit)
        else ([], c :: rest) := rfl
    rw [hexponent, ← hdigits]
    show (if isExponentMark c = true then _ else _) = _
    by_cases hmark : isExponentMark c = true
    · rw [if_pos hmark, digitsAt?_eq h, hmark, Bool.true_and]
      show (peekAt? cs p _).bind _ = _
      rw [hahead]
      show (if (Numeral.munchSign rest).2.head?.any Char.isDigit = true then _ else _) = _
      by_cases hdue : (Numeral.munchSign rest).2.head?.any Char.isDigit = true
      · rw [if_pos hdue, if_pos hdue, advanceBy?_eq hsplit, byteLength_append, ← Nat.add_assoc]
        exact skipWhile?_eq _ (fromByte?_add hsplit)
      · rw [if_neg hdue, if_neg hdue]
        rfl
    · rw [if_neg hmark, eq_false_of_ne_true hmark, Bool.false_and]
      rfl

/-- The cursor goes over the longest numeral. -/
theorem skipNumeral?_eq (h : fromByte? p cs = some rest) :
    skipNumeral? cs p = some (p + byteLength (Numeral.munch rest).1) := by
  rw [skipNumeral?, skipWhile?_eq _ h]
  have hwhole := fromByte?_skip Char.isDigit h
  show (skipPlaces? cs _).bind _ = _
  rw [skipPlaces?_eq hwhole]
  rw [← Numeral.munchPlaces_append (rest.dropWhile Char.isDigit)] at hwhole
  show skipExponent? cs _ = _
  rw [skipExponent?_eq (fromByte?_add hwhole), Numeral.munch_eq, byteLength_append,
    byteLength_append, Nat.add_assoc, Nat.add_assoc, Nat.add_assoc]

/-! ## Tokens -/

theorem begins?_eq (h : fromByte? p cs = some (c :: rest)) :
    begins? cs p c = some (Numeral.begins (c :: rest)) := by
  unfold begins?
  by_cases hdigit : c.isDigit = true
  · rw [if_pos hdigit, Token.begins_of_isDigit hdigit]
  · rw [if_neg hdigit]
    by_cases hpoint : c = '.'
    · subst hpoint
      rw [if_pos rfl, peekAt?_eq h]
      cases rest <;> rfl
    · rw [if_neg hpoint]
      cases hbegins : Numeral.begins (c :: rest) with
      | false => rfl
      | true => exact absurd (Token.begins_cons hbegins) (not_or.mpr ⟨hdigit, hpoint⟩)

theorem number?_eq (h : fromByte? p cs = some (c :: rest)) {d : Decimal}
    (hd : Decimal.read? (Numeral.munch (c :: rest)).1 = some d) :
    number? cs p =
      some (.ok (.number d.toFloat, p + byteLength (Numeral.munch (c :: rest)).1)) := by
  rw [number?, skipNumeral?_eq h]
  rw [← Numeral.munch_append (c :: rest)] at h
  show (between? cs p _).bind _ = _
  rw [between?_eq h]
  show (match Decimal.read? (Numeral.munch (c :: rest)).1 with | some d => _ | none => _) = _
  rw [hd]

theorem name?_eq (h : fromByte? p cs = some rest) :
    name? cs p = some (.ok (.name (String.ofList (rest.takeWhile isNamePart)),
      p + byteLength (rest.takeWhile isNamePart))) := by
  rw [name?, skipWhile?_eq _ h]
  rw [← List.takeWhile_append_dropWhile (p := isNamePart) (l := rest)] at h
  show (between? cs p _).bind _ = _
  rw [between?_eq h]
  rfl

/-- A sign, a numeral or a name is cut out where it stands, and nothing else. -/
theorem token?_eq (h : fromByte? p cs = some (c :: rest)) :
    (Token.munch (c :: rest) = none ∧ token? cs p c = some (.error (.unexpectedCharacter c p))) ∨
      ∃ l behind t, Token.munch (c :: rest) = some (l, behind) ∧ Token.read? l = some t ∧
        token? cs p c = some (.ok (t, p + byteLength l)) := by
  unfold token?
  cases hsign : Token.ofSign? c with
  | some t =>
    refine .inr ⟨[c], rest, t, Token.munch_sign hsign rest, ?_, ?_⟩
    · rw [Token.read?, (Token.reads_of_ofSign? hsign []).2, if_neg Bool.false_ne_true,
        if_pos ⟨rfl, by rw [hsign]; rfl⟩, hsign]
    · dsimp only
      rw [advance?_eq h]
      rfl
  | none =>
    have hnone : ¬ (Token.ofSign? c).isSome = true := by
      rw [hsign]
      exact Bool.false_ne_true
    dsimp only
    rw [begins?_eq h, Token.munch, if_neg hnone]
    by_cases hbegins : Numeral.begins (c :: rest) = true
    · obtain ⟨d, hd, hread⟩ := Token.read?_numeral hnone hbegins
      rw [hbegins, if_pos rfl]
      exact .inr ⟨_, _, _, rfl, hread, number?_eq h hd⟩
    · rw [eq_false_of_ne_true hbegins, if_neg Bool.false_ne_true]
      by_cases hstart : isNameStart c = true
      · have hpart := Token.isNamePart_of_isNameStart hstart
        have hname := name?_eq h
        rw [List.takeWhile_cons_of_pos hpart] at hname
        rw [if_pos hstart, hstart]
        exact .inr ⟨_, _, _, rfl, Token.read?_name hstart rest, hname⟩
      · rw [if_neg hstart, eq_false_of_ne_true hstart]
        exact .inl ⟨rfl, rfl⟩

/-- Blank characters at the front are skipped. -/
theorem scanFrom_skip (p : Nat) (cs : List Char) :
    Token.scanFrom p cs =
      Token.scanFrom (p + byteLength (cs.takeWhile isBlank)) (cs.dropWhile isBlank) := by
  induction cs generalizing p with
  | nil => rfl
  | cons c cs ih =>
    by_cases hc : isBlank c = true
    · rw [Token.scanFrom_blank hc, List.takeWhile_cons_of_pos hc, List.dropWhile_cons_of_pos hc,
        byteLength_cons, ← Nat.add_assoc]
      exact ih _
    · rw [List.takeWhile_cons_of_neg hc, List.dropWhile_cons_of_neg hc]
      rfl

/-- **The cursor stays on the boundaries of characters**, and finds the tokens of what is behind
it. -/
theorem tokens?_eq {rest : List Char} {n p : Nat} (h : fromByte? p cs = some rest)
    (hn : rest.length < n) : tokens? cs n p = some (Token.scanFrom p rest) := by
  induction n generalizing p rest with
  | zero => exact absurd hn (Nat.not_lt_zero _)
  | succ n ih =>
    rw [tokens?, skipWhile?_eq _ h, scanFrom_skip]
    have hskip := fromByte?_skip isBlank h
    have hlength := (List.dropWhile_sublist isBlank (l := rest)).length_le
    show (peek? cs _).bind _ = _
    rw [peek?_eq hskip]
    cases hrest : rest.dropWhile isBlank with
    | nil =>
      rw [Token.scanFrom]
      rfl
    | cons c behind =>
      rw [hrest] at hskip hlength
      have hblank : isBlank c = false := Token.head?_dropWhile (by rw [hrest]; rfl)
      generalize p + byteLength (rest.takeWhile isBlank) = offset at hskip ⊢
      show (token? cs offset c).bind _ = _
      rcases token?_eq hskip with ⟨hm, ht⟩ | ⟨l, rest', t, hm, hread, ht⟩
      · rw [ht, Token.scanFrom_stop hm hblank]
        rfl
      · rw [ht, Token.scanFrom_munch hm hread hblank]
        rw [← Token.munch_append hm] at hskip
        have hshorter := Nat.lt_of_lt_of_le (Token.munch_shorter hm) hlength
        show (tokens? cs n _).bind _ = _
        rw [ih (fromByte?_add hskip) (Nat.lt_of_lt_of_le hshorter (Nat.le_of_lt_succ hn))]
        cases Token.scanFrom (offset + byteLength l) rest' <;> rfl

theorem scan?_eq (a : Alphabet) (text : String) : scan? a text = some (Token.scan a text) := by
  unfold scan? Token.scan
  split
  · exact tokens?_eq (fromByte?_zero _) (Nat.lt_succ_self _)
  · rfl

end Abacus.Cursor
