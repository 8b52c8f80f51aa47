import Abacus.Proofs.Matter.Overflow

/-!
# What belongs to no formula

Whether a character belongs to a formula is decided by what stands before it: a small letter needs
a capital letter, a digit needs a symbol or a group, with other digits or blank characters at most
between them. Whatever else is neither blank nor a parenthesis nor a capital letter is noise.

The text before a character is read backwards here, from the character to the left. The scan works
the other way: it takes a symbol with its count in one piece, and is left with noise where no piece
begins. So that both agree is a matter of the places where the scan may stand.

* `belongsBehind`, `isNoise`: the character is part of the formula, or noise, behind such a text.
* `clear`: no character of a text is noise; `FirstNoise`: where the first one stands.
* `Boundary`: places where a scan may stand. What would still belong to the piece before the place
  is no longer to come.

Results:
* `clear_munch`: the scan goes on from one such place to the next, and takes no noise.
* `Piece.belongs_of_clear`: a text without noise is cut into pieces that belong to the formula.
* `Piece.scanFrom_noise`: the pieces in front of the first noise are those of the text before it.

What the two modes make of noise is `Proofs/Matter/Strictness`; the numbers among it are
`Proofs/Matter/Skipping`.
-/

namespace Abacus.Matter

/-! ## In a text -/

/-- The text ends in a capital letter. -/
def capitalEnds (back : List Char) : Bool := back.head?.any Char.isUpper

/-- The text ends in a symbol or in a group. -/
def unitEnds : List Char → Bool
  | [] => false
  | c :: back => c.isUpper || c == ')' || (c.isLower && capitalEnds back)

/-- A digit behind the text belongs to a count or a multiplier. -/
def countDue (back : List Char) : Bool := unitEnds ((back.dropWhile Char.isDigit).dropWhile isBlank)

/-- The character is part of the formula behind the text, or is blank. -/
def belongsBehind (back : List Char) (c : Char) : Bool :=
  isBlank c || c == '(' || c == ')' || c.isUpper || (c.isLower && capitalEnds back) ||
    (c.isDigit && countDue back)

/-- The character belongs to nothing behind the text. -/
def isNoise (back : List Char) (c : Char) : Bool := !belongsBehind back c

/-- No character is noise where the text follows another. -/
def clear : List Char → List Char → Bool
  | _, [] => true
  | back, c :: cs => belongsBehind back c && clear (c :: back) cs

/-- The character is the first noise in the text, and stands behind the characters before it. -/
structure FirstNoise (cs before : List Char) (c : Char) : Prop where
  splits : ∃ behind, cs = before ++ c :: behind
  clear : clear [] before = true
  noise : isNoise before.reverse c = true

variable {back cs before y z : List Char} {c : Char}

theorem belongsBehind_iff : belongsBehind back c = true ↔
    isBlank c = true ∨ c = '(' ∨ c = ')' ∨ c.isUpper = true ∨
      (c.isLower = true ∧ capitalEnds back = true) ∨
      (c.isDigit = true ∧ countDue back = true) := by
  simp [belongsBehind, or_assoc]

theorem clear_cons : clear back (c :: cs) = true ↔
    belongsBehind back c = true ∧ clear (c :: back) cs = true := by
  rw [clear, Bool.and_eq_true]

theorem clear_append : clear back (y ++ z) = true ↔
    clear back y = true ∧ clear (y.reverse ++ back) z = true := by
  induction y generalizing back with
  | nil => simp [clear]
  | cons c y ih =>
    rw [List.cons_append, clear_cons, clear_cons, ih, List.reverse_cons, List.append_assoc,
      and_assoc]
    rfl

/-- A text is free of noise, or there is a first one. -/
theorem clear_or_firstNoise (cs : List Char) :
    clear [] cs = true ∨ ∃ before c, FirstNoise cs before c := by
  have general (back cs : List Char) : clear back cs = true ∨ ∃ before c behind,
      cs = before ++ c :: behind ∧ clear back before = true ∧
        isNoise (before.reverse ++ back) c = true := by
    induction cs generalizing back with
    | nil => exact .inl rfl
    | cons c cs ih =>
      cases hc : belongsBehind back c with
      | false =>
        have hnoise : isNoise back c = true := by rw [isNoise, hc, Bool.not_false]
        exact .inr ⟨[], c, cs, rfl, rfl, hnoise⟩
      | true =>
        rcases ih (c :: back) with h | ⟨before, d, behind, rfl, hclear, hnoise⟩
        · exact .inl (clear_cons.mpr ⟨hc, h⟩)
        · refine .inr ⟨c :: before, d, behind, rfl, clear_cons.mpr ⟨hc, hclear⟩, ?_⟩
          rwa [List.reverse_cons, List.append_assoc]
  refine (general [] cs).imp_right ?_
  rintro ⟨before, c, behind, hcs, hclear, hnoise⟩
  exact ⟨before, c, ⟨behind, hcs⟩, hclear, by rwa [List.append_nil] at hnoise⟩

/-! ## Characters of a piece -/

theorem clear_of_isBlank (h : ∀ c ∈ cs, isBlank c = true) (back : List Char) :
    clear back cs = true := by
  induction cs generalizing back with
  | nil => rfl
  | cons c cs ih =>
    refine clear_cons.mpr ⟨belongsBehind_iff.mpr (.inl (h c List.mem_cons_self)), ?_⟩
    exact ih (fun d hd => h d (List.mem_cons_of_mem _ hd)) _

theorem countDue_digit (h : c.isDigit = true) (back : List Char) :
    countDue (c :: back) = countDue back := by
  rw [countDue, List.dropWhile_cons_of_pos h, countDue]

theorem clear_of_isDigit (h : ∀ c ∈ cs, c.isDigit = true) (hdue : countDue back = true) :
    clear back cs = true := by
  induction cs generalizing back with
  | nil => rfl
  | cons c cs ih =>
    have hc := h c List.mem_cons_self
    refine clear_cons.mpr ⟨belongsBehind_iff.mpr ?_, ?_⟩
    · exact .inr (.inr (.inr (.inr (.inr ⟨hc, hdue⟩))))
    · exact ih (fun d hd => h d (List.mem_cons_of_mem _ hd)) (countDue_digit hc back ▸ hdue)

theorem not_isUpper_of_isBlank (h : isBlank c = true) : c.isUpper = false :=
  (inert_iff.mp (inert_of_isBlank h)).2.2

theorem not_isBlank_of_isDigit (h : c.isDigit = true) : isBlank c = false :=
  not_isBlank_of_isAlphanum (isAlphanum_iff.mpr (.inr h))

theorem not_isDigit_of_isBlank (h : isBlank c = true) : c.isDigit = false := by
  rw [Bool.eq_false_iff]
  intro hd
  rw [not_isBlank_of_isDigit hd] at h
  cases h

theorem unitEnds_digit (h : c.isDigit = true) (back : List Char) :
    unitEnds (c :: back) = false := by
  have hl : c.isLower = false := by
    have halpha := not_isAlpha_of_isDigit h
    rw [Bool.eq_false_iff, Ne, isAlpha_iff, not_or] at halpha
    exact Bool.eq_false_iff.mpr halpha.2
  have hc : (c == ')') = false := by
    rw [beq_eq_false_iff_ne]
    rintro rfl
    cases h
  rw [unitEnds, not_isUpper_of_isDigit h, hl, hc]
  rfl

/-- What ends a symbol or a group is neither a digit nor blank. -/
theorem not_of_unitEnds (h : unitEnds (c :: back) = true) :
    c.isDigit = false ∧ isBlank c = false := by
  constructor
  · rw [Bool.eq_false_iff]
    intro hd
    rw [unitEnds_digit hd] at h
    cases h
  · rw [Bool.eq_false_iff]
    intro hb
    have halpha : ¬ c.isAlphanum = true := by
      intro ha
      rw [not_isBlank_of_isAlphanum ha] at hb
      cases hb
    simp only [isAlphanum_iff, isAlpha_iff, not_or, Bool.not_eq_true] at halpha
    obtain ⟨⟨hu, hl⟩, -⟩ := halpha
    rw [unitEnds, hu, hl, Bool.false_and, Bool.or_false, Bool.false_or, beq_iff_eq] at h
    rw [h] at hb
    cases hb

theorem dropWhile_isBlank_of_unitEnds (h : unitEnds back = true) :
    back.dropWhile isBlank = back := by
  cases back with
  | nil => rfl
  | cons c back => exact List.dropWhile_cons_of_neg (Bool.eq_false_iff.mp (not_of_unitEnds h).2)

/-- A count may begin behind a symbol or a group, also after blank characters. -/
theorem countDue_of_unitEnds (h : unitEnds back = true) {w : List Char}
    (hw : ∀ c ∈ w, isBlank c = true) : countDue (w ++ back) = true := by
  have hdigits : (w ++ back).dropWhile Char.isDigit = w ++ back := by
    cases w with
    | nil =>
      cases back with
      | nil => rfl
      | cons c back =>
        exact List.dropWhile_cons_of_neg (Bool.eq_false_iff.mp (not_of_unitEnds h).1)
    | cons c w =>
      have hd := not_isDigit_of_isBlank (hw c List.mem_cons_self)
      exact List.dropWhile_cons_of_neg (Bool.eq_false_iff.mp hd)
  rw [countDue, hdigits, List.dropWhile_append_of_pos hw, dropWhile_isBlank_of_unitEnds h, h]

/-- Behind digits the text ends in one. -/
theorem exists_digit_reverse {w : List Char} (hne : w ≠ []) (hw : ∀ c ∈ w, c.isDigit = true)
    (back : List Char) : ∃ c cs, w.reverse ++ back = c :: cs ∧ c.isDigit = true := by
  obtain ⟨c, cs, hcs⟩ := List.exists_cons_of_ne_nil (mt List.reverse_eq_nil_iff.mp hne)
  refine ⟨c, cs ++ back, by rw [hcs]; rfl, hw c ?_⟩
  exact List.mem_reverse.mp (hcs ▸ List.mem_cons_self)

theorem head_dropWhile {p : Char → Bool} (h : (cs.dropWhile p).head? = some c) : p c = false := by
  have hnot := List.head?_dropWhile_not p cs
  rwa [h] at hnot

/-! ## Where a scan may stand -/

/-- What is behind the place is cut off: the small letter, the blank characters and the digits that
would belong to it are no longer to come. -/
structure Boundary (back cs : List Char) : Prop where
  lower : ∀ c, cs.head? = some c → c.isLower = true → capitalEnds back = false
  digit : ∀ c, cs.head? = some c → c.isDigit = true → countDue back = false
  blank : ∀ c, cs.head? = some c → isBlank c = true → unitEnds (back.dropWhile isBlank) = false

theorem Boundary.start (cs : List Char) : Boundary [] cs :=
  ⟨fun _ _ _ => rfl, fun _ _ _ => rfl, fun _ _ _ => rfl⟩

theorem Boundary.skip (h : Boundary back (c :: cs)) (hb : isBlank c = true) :
    Boundary (c :: back) cs := by
  have hdue := h.blank c rfl hb
  refine ⟨fun _ _ _ => not_isUpper_of_isBlank hb, fun _ _ _ => ?_, fun _ _ _ => ?_⟩
  · have hd : ¬ c.isDigit = true := Bool.eq_false_iff.mp (not_isDigit_of_isBlank hb)
    rw [countDue, List.dropWhile_cons_of_neg hd, List.dropWhile_cons_of_pos hb, hdue]
  · rw [List.dropWhile_cons_of_pos hb, hdue]

/-- What belongs to the formula begins with a capital letter or a parenthesis. -/
theorem Boundary.begins_piece (h : Boundary back (c :: cs)) (hb : isBlank c = false)
    (hc : belongsBehind back c = true) : c.isUpper = true ∨ c = '(' ∨ c = ')' := by
  rcases belongsBehind_iff.mp hc with hc | hc | hc | hc | ⟨hl, hcap⟩ | ⟨hd, hdue⟩
  · rw [hb] at hc
    cases hc
  · exact .inr (.inl hc)
  · exact .inr (.inr hc)
  · exact .inl hc
  · rw [h.lower c rfl hl] at hcap
    cases hcap
  · rw [h.digit c rfl hd] at hdue
    cases hdue

namespace Piece

theorem clear_munchCount (h : unitEnds back = true) (cs : List Char) :
    clear back (munchCount cs).1 = true := by
  have hblank : ∀ c ∈ cs.takeWhile isBlank, isBlank c = true := fun _ => mem_takeWhile_imp
  refine clear_append.mpr ⟨clear_of_isBlank hblank back, ?_⟩
  refine clear_of_isDigit (fun _ => mem_takeWhile_imp) (countDue_of_unitEnds h ?_)
  simpa only [List.mem_reverse] using hblank

/-- Behind its count a symbol or a group is cut off. -/
theorem boundary_munchCount
    (hlower : ∀ c, cs.head? = some c → c.isLower = true → capitalEnds back = false) :
    Boundary ((munchCount cs).1.reverse ++ back) (munchCount cs).2 := by
  refine ⟨fun c hc hl => ?_, fun c hc hd => ?_, fun c hc hb => ?_⟩
  · cases hw : (munchCount cs).1.reverse with
    | nil =>
      have happend := munchCount_append cs
      rw [List.reverse_eq_nil_iff.mp hw, List.nil_append] at happend
      exact hlower c (happend ▸ hc) hl
    | cons d w =>
      have hd : d ∈ (munchCount cs).1 := List.mem_reverse.mp (hw ▸ List.mem_cons_self)
      exact (inert_iff.mp (inert_munchCount hd)).2.2
  · exact absurd hd (Bool.eq_false_iff.mp (head_dropWhile hc))
  · cases hdigits : (cs.dropWhile isBlank).takeWhile Char.isDigit with
    | nil =>
      have happend :=
        List.takeWhile_append_dropWhile (p := Char.isDigit) (l := cs.dropWhile isBlank)
      rw [hdigits, List.nil_append] at happend
      have hhead : (cs.dropWhile isBlank).head? = some c := happend ▸ hc
      exact absurd hb (Bool.eq_false_iff.mp (head_dropWhile hhead))
    | cons d ds =>
      have hall : ∀ e ∈ d :: ds, e.isDigit = true := fun _ he => mem_takeWhile_imp (hdigits ▸ he)
      obtain ⟨e, es, hes, he⟩ := exists_digit_reverse (List.cons_ne_nil d ds) hall
        ((cs.takeWhile isBlank).reverse ++ back)
      have hback : (munchCount cs).1.reverse ++ back = e :: es := by
        rw [munchCount, hdigits, List.reverse_append, List.append_assoc, hes]
      have hnot : ¬ isBlank e = true := Bool.eq_false_iff.mp (not_isBlank_of_isDigit he)
      rw [hback, List.dropWhile_cons_of_neg hnot, unitEnds_digit he]

theorem smallAt_cases (cs : List Char) :
    (smallAt cs = [] ∧ ∀ c, cs.head? = some c → ¬ c.isLower = true) ∨
      ∃ c, c.isLower = true ∧ smallAt cs = [c] := by
  cases cs with
  | nil => exact .inl ⟨rfl, nofun⟩
  | cons c cs =>
    by_cases hl : c.isLower = true
    · exact .inr ⟨c, hl, by rw [smallAt, List.takeWhile_cons_of_pos hl]; rfl⟩
    · refine .inl ⟨by rw [smallAt, List.takeWhile_cons_of_neg hl]; rfl, ?_⟩
      rintro d ⟨⟩
      exact hl

/-- A symbol is clear of noise, and ends as one. -/
theorem clear_symbol (hu : c.isUpper = true) (back cs : List Char) :
    clear back (c :: smallAt cs) = true ∧
      unitEnds ((c :: smallAt cs).reverse ++ back) = true ∧
      ∀ d, (cs.drop (smallAt cs).length).head? = some d → d.isLower = true →
        capitalEnds ((c :: smallAt cs).reverse ++ back) = false := by
  have hbelongs : belongsBehind back c = true := belongsBehind_iff.mpr (by simp [hu])
  rcases smallAt_cases cs with ⟨hsmall, hhead⟩ | ⟨d, hl, hsmall⟩
  · rw [hsmall]
    refine ⟨clear_cons.mpr ⟨hbelongs, rfl⟩, ?_, fun d hd hl => absurd hl (hhead d hd)⟩
    show (c.isUpper || _ || _) = true
    rw [hu, Bool.true_or, Bool.true_or]
  · rw [hsmall]
    have hcap : capitalEnds (c :: back) = true := hu
    refine ⟨clear_cons.mpr ⟨hbelongs, clear_cons.mpr ⟨?_, rfl⟩⟩, ?_, fun _ _ _ => ?_⟩
    · exact belongsBehind_iff.mpr (by simp [hl, hcap])
    · show (_ || _ || (d.isLower && capitalEnds (c :: back))) = true
      rw [hl, hcap, Bool.and_self, Bool.or_true]
    · exact not_isUpper_of_isLower hl

/-- **The scan goes on at a place where it may stand**, and no character it took is noise. -/
theorem clear_munch (h : Boundary back (c :: cs)) (hb : isBlank c = false)
    (hc : belongsBehind back c = true) :
    clear back (munch c cs).2.1 = true ∧
      Boundary ((munch c cs).2.1.reverse ++ back) (munch c cs).2.2 := by
  rcases h.begins_piece hb hc with hu | rfl | rfl
  · obtain ⟨hclear, hunit, hlower⟩ := clear_symbol hu back cs
    rw [munch, if_pos hu, munchSymbol_eq]
    dsimp only
    rw [clear_append, List.reverse_append, List.append_assoc]
    exact ⟨⟨hclear, clear_munchCount hunit _⟩, boundary_munchCount hlower⟩
  · have hopen : munch '(' cs = (.openParen, ['('], cs) := rfl
    rw [hopen]
    exact ⟨clear_cons.mpr ⟨hc, rfl⟩, fun _ _ _ => rfl, fun _ _ _ => rfl, fun _ _ _ => rfl⟩
  · have hclose : munch ')' cs =
      (.closeParen (countOf (munchCount cs).1), ')' :: (munchCount cs).1, (munchCount cs).2) := rfl
    have hunit : unitEnds (')' :: back) = true := rfl
    rw [hclose]
    dsimp only
    rw [clear_cons, List.reverse_cons, List.append_assoc]
    exact ⟨⟨hc, clear_munchCount hunit cs⟩, boundary_munchCount fun _ _ _ => rfl⟩

theorem not_of_isNoise (h : isNoise back c = true) :
    isBlank c = false ∧ c ≠ '(' ∧ c ≠ ')' ∧ c.isUpper = false := by
  rw [isNoise, Bool.not_eq_true', Bool.eq_false_iff, Ne, belongsBehind_iff] at h
  simp only [not_or, Bool.not_eq_true] at h
  exact ⟨h.1, h.2.1, h.2.2.1, h.2.2.2.1⟩

/-- Where a scan stands, noise is a piece of its own or begins a count of nothing. -/
theorem munch_noise (h : isNoise back c = true) (cs : List Char) :
    (munch c cs).1 =
      if c.isDigit then .strayCount (countOf (c :: cs.takeWhile Char.isDigit)) else .noise c := by
  obtain ⟨-, ho, hc, hu⟩ := not_of_isNoise h
  rw [munch, hu, if_neg Bool.false_ne_true, if_neg ho, if_neg hc]
  split
  · rfl
  · rfl

/-! ## In front of what a piece does not reach -/

/-- What is skipped ends before what is left. -/
theorem truncate_while {p : Char → Bool} (h : z <:+ (y ++ z).dropWhile p) :
    (y ++ z).takeWhile p = y.takeWhile p ∧ (y ++ z).dropWhile p = y.dropWhile p ++ z := by
  induction y with
  | nil =>
    have hdrop : z.dropWhile p = z := (List.dropWhile_suffix p).eq_of_length_le h.length_le
    have happend := List.takeWhile_append_dropWhile (p := p) (l := z)
    rw [hdrop] at happend
    exact ⟨List.append_left_eq_self.mp happend, hdrop⟩
  | cons c y ih =>
    by_cases hc : p c = true
    · rw [List.cons_append, List.dropWhile_cons_of_pos hc] at h ⊢
      rw [List.takeWhile_cons_of_pos hc, List.takeWhile_cons_of_pos hc,
        List.dropWhile_cons_of_pos hc, (ih h).1, (ih h).2]
      exact ⟨rfl, rfl⟩
    · rw [List.cons_append, List.takeWhile_cons_of_neg hc, List.takeWhile_cons_of_neg hc,
        List.dropWhile_cons_of_neg hc, List.dropWhile_cons_of_neg hc]
      exact ⟨rfl, rfl⟩

theorem truncate_munchCount (h : z <:+ (munchCount (y ++ z)).2) :
    munchCount (y ++ z) = ((munchCount y).1, (munchCount y).2 ++ z) := by
  obtain ⟨htake, hdrop⟩ := truncate_while (h.trans (List.dropWhile_suffix _))
  rw [munchCount, hdrop] at h
  obtain ⟨htake', hdrop'⟩ := truncate_while h
  simp only [munchCount, htake, hdrop, htake', hdrop']

theorem truncate_smallAt (h : z <:+ (y ++ z).drop (smallAt (y ++ z)).length) :
    smallAt (y ++ z) = smallAt y ∧
      (y ++ z).drop (smallAt (y ++ z)).length = y.drop (smallAt y).length ++ z := by
  cases y with
  | nil =>
    rw [List.nil_append] at h ⊢
    have hdrop : z.drop (smallAt z).length = z := (List.drop_suffix _ _).eq_of_length_le h.length_le
    have happend := smallAt_append z
    rw [hdrop, List.append_left_eq_self] at happend
    exact ⟨happend, hdrop⟩
  | cons c y =>
    have hsmall : smallAt (c :: y ++ z) = smallAt (c :: y) := by
      rw [List.cons_append, smallAt, List.takeWhile_cons, smallAt, List.takeWhile_cons]
      split
      · rfl
      · rfl
    refine ⟨hsmall, ?_⟩
    have hle : (smallAt (c :: y)).length ≤ (c :: y).length := by
      have := congrArg List.length (smallAt_append (c :: y))
      rw [List.length_append] at this
      omega
    rw [hsmall, List.drop_append_of_le_length hle]

/-- **A piece is the same without what it does not reach.** -/
theorem truncate_munch (c : Char) (h : z <:+ (munch c (y ++ z)).2.2) :
    munch c (y ++ z) = ((munch c y).1, (munch c y).2.1, (munch c y).2.2 ++ z) := by
  unfold munch at h ⊢
  rw [munchSymbol_eq] at h
  rw [munchSymbol_eq, munchSymbol_eq]
  split
  · rename_i hu
    rw [if_pos hu] at h
    dsimp only at h ⊢
    have hcount : z <:+ (y ++ z).drop (smallAt (y ++ z)).length :=
      h.trans ⟨_, munchCount_append _⟩
    obtain ⟨hsmall, hdrop⟩ := truncate_smallAt hcount
    rw [hdrop] at h
    rw [hdrop, hsmall, truncate_munchCount h]
  · split
    · rfl
    · rename_i hu ho
      rw [if_neg hu, if_neg ho] at h
      split
      · rename_i hc
        rw [if_pos hc] at h
        dsimp only
        rw [truncate_munchCount h]
      · rename_i hc
        rw [if_neg hc] at h
        split
        · rename_i hd
          rw [if_pos hd] at h
          obtain ⟨htake, hdrop⟩ := truncate_while h
          rw [htake, hdrop]
        · rfl

/-! ## Scans -/

/-- Where a scan stands, what belongs to the formula begins a piece of it. -/
theorem belongs_munch (h : Boundary back (c :: cs)) (hb : isBlank c = false)
    (hc : belongsBehind back c = true) : (munch c cs).1.Belongs := by
  rcases h.begins_piece hb hc with hu | rfl | rfl
  · rw [munch_capital hu]
    trivial
  · trivial
  · trivial

/-- Text without noise is cut into pieces that belong to the formula. -/
theorem belongs_of_clear {back cs : List Char} (h : Boundary back cs) (hc : clear back cs = true)
    (offset : Nat) : ∀ p ∈ scanFrom offset cs, p.piece.Belongs := by
  match cs with
  | [] =>
    rw [scanFrom]
    intro p hp
    cases hp
  | c :: cs =>
    rw [scanFrom]
    by_cases hb : isBlank c = true
    · rw [if_pos hb]
      exact belongs_of_clear (h.skip hb) (clear_cons.mp hc).2 _
    · rw [if_neg hb]
      have hblank := Bool.eq_false_iff.mpr hb
      have hbelongs := (clear_cons.mp hc).1
      obtain ⟨-, hrest⟩ := clear_munch h hblank hbelongs
      rw [← munch_append c cs, clear_append] at hc
      exact List.forall_mem_cons.mpr
        ⟨belongs_munch h hblank hbelongs, belongs_of_clear hrest hc.2 _⟩
termination_by cs.length
decreasing_by
  · exact Nat.lt_succ_self _
  · exact munch_shorter c cs

/-- Noise is not reached by a piece that begins before it. -/
theorem suffix_munch {back before : List Char} {c d : Char} {behind : List Char}
    (h : Boundary back (d :: (before ++ c :: behind))) (hb : isBlank d = false)
    (hd : belongsBehind back d = true) (hnoise : isNoise ((d :: before).reverse ++ back) c = true) :
    c :: behind <:+ (munch d (before ++ c :: behind)).2.2 := by
  obtain ⟨hclear, -⟩ := clear_munch h hb hd
  have happend : (munch d (before ++ c :: behind)).2.1 ++ (munch d (before ++ c :: behind)).2.2 =
      (d :: before) ++ c :: behind := munch_append d _
  rcases List.append_eq_append_iff.mp happend with ⟨r, -, hr⟩ | ⟨w, hw, hr⟩
  · exact ⟨r, hr.symm⟩
  · cases w with
    | nil => exact ⟨[], hr⟩
    | cons e w =>
      obtain ⟨rfl, -⟩ := List.cons_eq_cons.mp hr
      rw [hw, clear_append] at hclear
      rw [isNoise, (clear_cons.mp hclear.2).1] at hnoise
      cases hnoise

/-- **The pieces in front of noise are those of the text before it.** -/
theorem scanFrom_noise {back before : List Char} {c : Char} {behind : List Char}
    (h : Boundary back (before ++ c :: behind)) (hclear : clear back before = true)
    (hnoise : isNoise (before.reverse ++ back) c = true) (offset : Nat) :
    scanFrom offset (before ++ c :: behind) =
      scanFrom offset before ++ scanFrom (offset + byteLength before) (c :: behind) := by
  match before with
  | [] =>
    rw [scanFrom.eq_1 offset]
    rfl
  | d :: before =>
    obtain ⟨hd, hclear'⟩ := clear_cons.mp hclear
    rw [List.cons_append] at h ⊢
    rw [scanFrom, scanFrom.eq_def offset (d :: before)]
    dsimp only
    by_cases hb : isBlank d = true
    · have hnoise' : isNoise (before.reverse ++ d :: back) c = true := by
        rwa [List.reverse_cons, List.append_assoc] at hnoise
      rw [if_pos hb, if_pos hb, scanFrom_noise (h.skip hb) hclear' hnoise', byteLength_cons,
        Nat.add_assoc]
    · rw [if_neg hb, if_neg hb]
      have hblank := Bool.eq_false_iff.mpr hb
      have hmunch := truncate_munch d (suffix_munch h hblank hd hnoise)
      obtain ⟨-, hrest⟩ := clear_munch h hblank hd
      rw [hmunch] at hrest ⊢
      have happend := munch_append d before
      rw [← happend, clear_append] at hclear
      have hnoise' : isNoise ((munch d before).2.2.reverse ++
          ((munch d before).2.1.reverse ++ back)) c = true := by
        rwa [← List.append_assoc, ← List.reverse_append, happend]
      have hbytes := congrArg byteLength happend
      rw [byteLength_append] at hbytes
      rw [scanFrom_noise hrest hclear.2 hnoise', Nat.add_assoc, hbytes]
      rfl
termination_by before.length
decreasing_by
  · exact Nat.lt_succ_self _
  · exact munch_shorter d before

end Piece

end Abacus.Matter
