import Abacus.Proofs.Faultless.Cursor
import Abacus.Proofs.Matter.Noise
import Abacus.Proofs.Token.Numeral

/-!
# Reading a formula with a cursor

A formula is read by a cursor that moves over bytes, and its elements are counted on the way. As
for tokens, there is a result only if every byte at which the text is looked at is a boundary of
characters inside it. There always is one, also for texts with characters of several bytes that are
skipped, and it is what `Formula.read` finds.

* `count?`, `multiplier?`, `symbol?`: what can be taken up at a place, with the place behind it.
* `piece?`: what begins with a character, with what it does to the open groups.
* `groups?`: the rest of a text, in so many turns. It has no result if the turns are not enough.
* `Takes`: a run over one piece takes it up and goes behind its spelling.

`Formula.read` finds all pieces first and counts then; here a piece is counted as soon as it is
found. The first refusal ends both, and what stands behind it is not looked at.

Results:
* `piece?_takes`: a piece leads from one boundary to another, and does to the groups what it stands
  for.
* `formula?_eq`: the cursor never leaves the boundaries, in either mode.
-/

namespace Abacus.Cursor

open Matter Matter.Formula

/-- A count and the place behind it, no count where there are no digits. -/
def count? (cs : List Char) (p : Nat) : Option (Except Formula.Error (Option Nat × Nat)) := do
  let q ← skipWhile? Char.isDigit cs p
  if q = p then some (.ok (none, q))
  else
    let digits ← between? cs p q
    match readDigits? digits with
    | some n => if maxCount < n then some (.error .countOverflow) else some (.ok (some n, q))
    | none => some (.error .countOverflow)

/-- A count behind blank characters; without digits it is one. -/
def multiplier? (cs : List Char) (p : Nat) : Option (Except Formula.Error (Nat × Nat)) := do
  let q ← skipWhile? isBlank cs p
  match ← count? cs q with
  | .error e => some (.error e)
  | .ok (n, r) => some (.ok (n.getD 1, r))

/-- Behind a small letter, if there is one. -/
def skipSmall? (cs : List Char) (p : Nat) : Option Nat := do
  if (← peek? cs p).any Char.isLower then advance? cs p else some p

/-- The letters of the symbol that begins at a place, and the place behind them. -/
def symbol? (cs : List Char) (p : Nat) : Option (List Char × Nat) := do
  let q ← advance? cs p
  let r ← skipSmall? cs q
  let letters ← between? cs p r
  some (letters, r)

/-- An element with its count. -/
def element? (cs : List Char) (p : Nat) (g : Groups) :
    Option (Except Formula.Error (Groups × Nat)) := do
  let (letters, q) ← symbol? cs p
  match ← multiplier? cs q with
  | .error e => some (.error e)
  | .ok (n, r) =>
    match counted (g.inner.add? (String.ofList letters) n) with
    | .error e => some (.error e)
    | .ok inner => some (.ok (⟨inner, g.around⟩, r))

/-- The end of a group with its multiplier. -/
def close? (cs : List Char) (p : Nat) (g : Groups) :
    Option (Except Formula.Error (Groups × Nat)) := do
  let q ← advance? cs p
  match g.around with
  | [] => some (.error (.unmatchedClosingParen p))
  | outer :: around =>
    match ← multiplier? cs q with
    | .error e => some (.error e)
    | .ok (n, r) =>
      match counted (outer.merge? g.inner n) with
      | .error e => some (.error e)
      | .ok inner => some (.ok (⟨inner, around⟩, r))

/-- What begins with a character. -/
def piece? (mode : Mode) (cs : List Char) (p : Nat) (c : Char) (g : Groups) :
    Option (Except Formula.Error (Groups × Nat)) := do
  if c.isUpper then element? cs p g
  else if c = '(' then
    let q ← advance? cs p
    some (.ok (⟨.empty, g.inner :: g.around⟩, q))
  else if c = ')' then close? cs p g
  else if isBlank c then
    let q ← advance? cs p
    some (.ok (g, q))
  else if c.isDigit then
    match mode with
    | .strict => some (.error (.strayCount p))
    | .permissive =>
      match ← count? cs p with
      | .error e => some (.error e)
      | .ok (_, q) => some (.ok (g, q))
  else
    match mode with
    | .strict => some (.error (.unexpectedCharacter c p))
    | .permissive =>
      let q ← advance? cs p
      some (.ok (g, q))

/-- The groups behind a place, in so many turns. -/
def groups? (mode : Mode) (cs : List Char) :
    Nat → Nat → Groups → Option (Except Formula.Error Groups)
  | 0, _, _ => none
  | n + 1, p, g => do
    match ← peek? cs p with
    | none => some (.ok g)
    | some c =>
      match ← piece? mode cs p c g with
      | .error e => some (.error e)
      | .ok (g, q) => groups? mode cs n q g

/-- The composition of a formula. -/
def formula? (mode : Mode) (text : String) : Option (Except Formula.Error Composition) := do
  match ← groups? mode text.toList (text.toList.length + 1) 0 .start with
  | .error e => some (.error e)
  | .ok g =>
    match g.finish with
    | .error e => some (.error e)
    | .ok c => if mode = .strict ∧ c.isEmpty = true then some (.error .empty) else some (.ok c)

variable {mode : Mode} {c : Char} {cs rest : List Char} {p : Nat} {g : Groups}

/-! ## Counts -/

theorem count?_none (h : fromByte? p cs = some rest) (hnone : rest.takeWhile Char.isDigit = []) :
    count? cs p = some (.ok (none, p)) := by
  rw [count?, skipWhile?_eq _ h, hnone]
  exact if_pos rfl

/-- A count above the bound is refused. -/
theorem count?_some (h : fromByte? p cs = some rest) (hsome : rest.takeWhile Char.isDigit ≠ []) :
    count? cs p =
      if maxCount < Nat.ofDigitChars 10 (rest.takeWhile Char.isDigit) 0 then
        some (.error .countOverflow)
      else some (.ok (some (Nat.ofDigitChars 10 (rest.takeWhile Char.isDigit) 0),
        p + byteLength (rest.takeWhile Char.isDigit))) := by
  have hpos := byteLength_pos hsome
  have hread := readDigits?_digits (allDigits_takeWhile rest) hsome
  rw [count?, skipWhile?_eq _ h]
  rw [← List.takeWhile_append_dropWhile (p := Char.isDigit) (l := rest)] at h
  show (if p + _ = p then _ else (between? cs p _).bind _) = _
  rw [if_neg (by omega), between?_eq h]
  show (match readDigits? (rest.takeWhile Char.isDigit) with | some n => _ | none => _) = _
  rw [hread]

/-- So is a multiplier, whether or not there are blank characters before it. -/
theorem multiplier?_eq (h : fromByte? p cs = some rest) :
    multiplier? cs p =
      if maxCount < Piece.countOf (Piece.munchCount rest).1 then some (.error .countOverflow)
      else some (.ok (Piece.countOf (Piece.munchCount rest).1,
        p + byteLength (Piece.munchCount rest).1)) := by
  have hskip := fromByte?_skip isBlank h
  have hcount : Piece.countOf (Piece.munchCount rest).1 =
      (readDigits? ((rest.dropWhile isBlank).takeWhile Char.isDigit)).getD 1 := by
    rw [Piece.countOf, Piece.dropWhile_munchCount]
  have hlength : p + byteLength (Piece.munchCount rest).1 =
      p + byteLength (rest.takeWhile isBlank) +
        byteLength ((rest.dropWhile isBlank).takeWhile Char.isDigit) := by
    rw [Piece.munchCount, byteLength_append, Nat.add_assoc]
  rw [multiplier?, skipWhile?_eq _ h, hcount, hlength]
  show (count? cs _).bind _ = _
  by_cases hdigits : (rest.dropWhile isBlank).takeWhile Char.isDigit = []
  · rw [count?_none hskip hdigits, hdigits]
    rfl
  · rw [count?_some hskip hdigits, readDigits?_digits (allDigits_takeWhile _) hdigits,
      Option.getD_some]
    split <;> rfl

theorem symbol?_eq (h : fromByte? p cs = some (c :: rest)) :
    symbol? cs p =
      some ((Piece.munchSymbol c rest).1, p + byteLength (Piece.munchSymbol c rest).1) := by
  have hnext := fromByte?_next h
  have hsmall : skipSmall? cs (p + c.utf8Size) =
      some (p + byteLength (Piece.munchSymbol c rest).1) := by
    rw [skipSmall?, peek?_eq hnext]
    unfold Piece.munchSymbol
    cases rest with
    | nil => rfl
    | cons d rest =>
      show (if d.isLower = true then _ else _) = _
      by_cases hlower : d.isLower = true
      · rw [if_pos hlower, advance?_eq hnext]
        dsimp only
        rw [if_pos hlower, Nat.add_assoc]
        rfl
      · rw [if_neg hlower]
        dsimp only
        rw [if_neg hlower]
        rfl
  rw [← Piece.munchSymbol_append c rest] at h
  rw [symbol?, advance?_eq (Piece.munchSymbol_append c rest ▸ h)]
  show (skipSmall? cs _).bind _ = _
  rw [hsmall]
  show (between? cs p _).bind _ = _
  rw [between?_eq h]
  rfl

/-! ## Pieces -/

/-- A run over one piece: the piece is taken up, and the cursor goes behind its spelling. -/
def Takes (mode : Mode) (p : Nat) (g : Groups) (piece : Piece) (spelling : List Char)
    (run : Option (Except Formula.Error (Groups × Nat))) : Prop :=
  run = some ((g.step mode ⟨piece, p⟩).map fun g => (g, p + byteLength spelling))

theorem element?_takes (h : fromByte? p cs = some (c :: rest)) (hc : c.isUpper = true) :
    Takes mode p g (Piece.munch c rest).1 (Piece.munch c rest).2.1 (element? cs p g) := by
  have hsplit := h
  rw [← Piece.munchSymbol_append c rest] at hsplit
  have hmultiplier := multiplier?_eq (fromByte?_add hsplit)
  have hpiece : Piece.munch c rest =
      (.atoms (String.ofList (Piece.munchSymbol c rest).1)
          (Piece.countOf (Piece.munchCount (Piece.munchSymbol c rest).2).1),
        (Piece.munchSymbol c rest).1 ++ (Piece.munchCount (Piece.munchSymbol c rest).2).1,
        (Piece.munchCount (Piece.munchSymbol c rest).2).2) := if_pos hc
  rw [hpiece, element?, symbol?_eq h]
  generalize (Piece.munchSymbol c rest).1 = letters at hmultiplier ⊢
  generalize Piece.munchCount (Piece.munchSymbol c rest).2 = count at hmultiplier ⊢
  obtain ⟨digits, rest'⟩ := count
  show (multiplier? cs _).bind _ = some (Except.map _ (counted (g.inner.add? _ _) >>= _))
  rw [hmultiplier, byteLength_append, ← Nat.add_assoc]
  by_cases hmany : maxCount < Piece.countOf digits
  · have hnone : g.inner.add? (String.ofList letters) (Piece.countOf digits) = none :=
      Composition.add?_eq_none_iff.mpr (by omega)
    rw [if_pos hmany, hnone]
    rfl
  · rw [if_neg hmany]
    show (match counted (g.inner.add? _ _) with | .error e => _ | .ok inner => _) = _
    cases counted (g.inner.add? (String.ofList letters) (Piece.countOf digits)) <;> rfl

theorem close?_takes (h : fromByte? p cs = some (')' :: rest)) :
    Takes mode p g (Piece.munch ')' rest).1 (Piece.munch ')' rest).2.1 (close? cs p g) := by
  have hmultiplier := multiplier?_eq (fromByte?_next h)
  have hpiece : Piece.munch ')' rest = (.closeParen (Piece.countOf (Piece.munchCount rest).1),
      ')' :: (Piece.munchCount rest).1, (Piece.munchCount rest).2) := rfl
  rw [hpiece, close?, advance?_eq h]
  generalize Piece.munchCount rest = count at hmultiplier ⊢
  obtain ⟨digits, rest'⟩ := count
  obtain ⟨inner, around⟩ := g
  cases around with
  | nil => rfl
  | cons outer around =>
    show (multiplier? cs _).bind _ = some (Except.map _ (if maxCount < _ then _ else
      counted (outer.merge? inner _) >>= _))
    rw [hmultiplier, byteLength_cons, ← Nat.add_assoc]
    by_cases hmany : maxCount < Piece.countOf digits
    · rw [if_pos hmany, if_pos hmany]
      rfl
    · rw [if_neg hmany, if_neg hmany]
      show (match counted (outer.merge? inner _) with | .error e => _ | .ok inner => _) = _
      cases counted (outer.merge? inner (Piece.countOf digits)) <;> rfl

/-- Digits that count nothing are read as a count, and refused above the bound. -/
theorem countOf_digits (hdigit : c.isDigit = true) (rest : List Char) :
    Piece.countOf (c :: rest.takeWhile Char.isDigit) =
      Nat.ofDigitChars 10 (c :: rest.takeWhile Char.isDigit) 0 := by
  have hblank : isBlank c = false := not_isBlank_of_isDigit hdigit
  have hdigits : AllDigits (c :: rest.takeWhile Char.isDigit) := by
    rw [← List.takeWhile_cons_of_pos hdigit]
    exact allDigits_takeWhile _
  rw [Piece.countOf, List.dropWhile_cons_of_neg (Bool.eq_false_iff.mp hblank),
    readDigits?_digits hdigits (List.cons_ne_nil _ _), Option.getD_some]

/-- **A piece leads from one boundary to another**, and does to the groups what it stands for. -/
theorem piece?_takes (h : fromByte? p cs = some (c :: rest)) (hblank : isBlank c = false) :
    Takes mode p g (Piece.munch c rest).1 (Piece.munch c rest).2.1 (piece? mode cs p c g) := by
  unfold piece?
  by_cases hupper : c.isUpper = true
  · rw [if_pos hupper]
    exact element?_takes h hupper
  rw [if_neg hupper]
  by_cases hopen : c = '('
  · subst hopen
    rw [if_pos rfl, advance?_eq h]
    rfl
  rw [if_neg hopen]
  by_cases hclose : c = ')'
  · subst hclose
    rw [if_pos rfl]
    exact close?_takes h
  rw [if_neg hclose, hblank, if_neg Bool.false_ne_true, Piece.munch, if_neg hupper, if_neg hopen,
    if_neg hclose]
  by_cases hdigit : c.isDigit = true
  · rw [if_pos hdigit, if_pos hdigit]
    cases mode with
    | strict => rfl
    | permissive =>
      have htake := List.takeWhile_cons_of_pos (l := rest) hdigit
      have hcount := count?_some h (by rw [htake]; exact List.cons_ne_nil _ _)
      rw [htake, ← countOf_digits hdigit] at hcount
      dsimp only
      rw [hcount]
      show _ = some (Except.map _ (if maxCount < _ then _ else _))
      by_cases hmany : maxCount < Piece.countOf (c :: rest.takeWhile Char.isDigit)
      · rw [if_pos hmany, if_pos hmany]
        rfl
      · rw [if_neg hmany, if_neg hmany]
        rfl
  · rw [if_neg hdigit, if_neg hdigit]
    cases mode with
    | strict => rfl
    | permissive =>
      dsimp only
      rw [advance?_eq h]
      rfl

/-- A blank character is passed. -/
theorem piece?_blank (h : fromByte? p cs = some (c :: rest)) (hblank : isBlank c = true) :
    piece? mode cs p c g = some (.ok (g, p + c.utf8Size)) := by
  have hupper := not_isUpper_of_isBlank hblank
  have hopen : c ≠ '(' := by
    rintro rfl
    cases hblank
  have hclose : c ≠ ')' := by
    rintro rfl
    cases hblank
  unfold piece?
  rw [hupper, if_neg Bool.false_ne_true, if_neg hopen, if_neg hclose, if_pos hblank,
    advance?_eq h]
  rfl

/-- The pieces behind a place are taken up one by one. -/
theorem groups?_eq {n p : Nat} {rest : List Char} {g : Groups} (h : fromByte? p cs = some rest)
    (hn : rest.length < n) :
    groups? mode cs n p g = some ((Piece.scanFrom p rest).foldlM (Groups.step mode) g) := by
  induction n generalizing p rest g with
  | zero => exact absurd hn (Nat.not_lt_zero _)
  | succ n ih =>
    rw [groups?, peek?_eq h]
    cases rest with
    | nil =>
      rw [Piece.scanFrom]
      rfl
    | cons c rest =>
      have hn : rest.length < n := Nat.lt_of_succ_lt_succ hn
      rw [Piece.scanFrom]
      show (piece? mode cs p c g).bind _ = _
      by_cases hblank : isBlank c = true
      · rw [if_pos hblank, piece?_blank h hblank]
        exact ih (fromByte?_next h) hn
      · rw [if_neg hblank, piece?_takes h (eq_false_of_ne_true hblank), List.foldlM_cons]
        rw [← Piece.munch_append c rest] at h
        have hshorter := Nat.le_of_lt_succ (Piece.munch_shorter c rest)
        cases g.step mode ⟨(Piece.munch c rest).1, p⟩ with
        | error e => rfl
        | ok g => exact ih (fromByte?_add h) (Nat.lt_of_le_of_lt hshorter hn)

/-- **The cursor never leaves the boundaries of characters.** -/
theorem formula?_eq (mode : Mode) (text : String) :
    formula? mode text = some (Formula.read mode text) := by
  rw [formula?, groups?_eq (fromByte?_zero _) (Nat.lt_succ_self _), Formula.read, ofPieces,
    Piece.scan]
  cases (Piece.scanFrom 0 text.toList).foldlM (Groups.step mode) .start with
  | error e => rfl
  | ok g =>
    show (match g.finish with | .error e => _ | .ok c => _) = some (g.finish >>= _)
    cases g.finish with
    | error e => rfl
    | ok c => exact (apply_ite some _ _ _).symm

end Abacus.Cursor
