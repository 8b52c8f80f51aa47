import Abacus.Proofs.Matter.Counting

/-!
# Groups in a formula

A parenthesis ends whatever stands before it, so a group can be read apart from what surrounds it.
A text in which every parenthesis has its partner is made of blank characters, of pieces without a
parenthesis, and of groups with a text of the same kind inside.

* `openAfter?` counts open groups; `Balanced`: none is left open, and none is closed too often.
* `groups` lists all groups of a text, at every depth, with their multipliers. `splitGroup?` finds
  where one ends.
* `numbers` lists all counts and multipliers, one where no digits stand.
* `Nested`: how a balanced text is put together. Inductions over groups go along it.

The scan goes from left to right and knows nothing of groups. That it comes to the same pieces
inside a group as over the text of the group alone holds because no piece reaches across a
parenthesis: neither a symbol nor a count holds one.

Results:
* `nested_of_balanced`: texts with balanced parentheses are nested.
* `groups_group`, `numbers_group`, `total_group`: what a group adds to them.
* `Piece.scanFrom_closeParen`: the pieces in front of a closing parenthesis.

Used for the overflow of groups (`Proofs/Matter/Overflow`) and for numbers that are skipped
(`Proofs/Matter/Skipping`).
-/

namespace Abacus.Matter

/-! ## In a text -/

/-- How many groups are open behind a text that begins inside `depth` groups; none if it closes a
group that is not open. -/
def openAfter? : Nat → List Char → Option Nat
  | depth, [] => some depth
  | depth, c :: cs =>
    if c = '(' then openAfter? (depth + 1) cs
    else if c = ')' then
      match depth with
      | 0 => none
      | depth + 1 => openAfter? depth cs
    else openAfter? depth cs

/-- Every parenthesis has its partner. -/
def Balanced (cs : List Char) : Prop := openAfter? 0 cs = some 0

instance (cs : List Char) : Decidable (Balanced cs) := inferInstanceAs (Decidable (_ = _))

/-- Splits a text at the parenthesis that closes the group in which it begins, after `depth` groups
that were opened in it. -/
def splitGroup? : Nat → List Char → Option (List Char × List Char)
  | _, [] => none
  | depth, c :: cs =>
    if c = '(' then (splitGroup? (depth + 1) cs).map fun s => (c :: s.1, s.2)
    else if c = ')' then
      match depth with
      | 0 => some ([], cs)
      | depth + 1 => (splitGroup? depth cs).map fun s => (c :: s.1, s.2)
    else (splitGroup? depth cs).map fun s => (c :: s.1, s.2)

/-- A group: what stands between its parentheses, and how many times it is taken. -/
structure Group where
  inner : List Char
  multiplier : Nat

/-- The groups of a text, at every depth. -/
def groups : List Char → List Group
  | [] => []
  | c :: cs =>
    if c = '(' then
      ((splitGroup? 0 cs).map fun s => ⟨s.1, numberAt s.2⟩).toList ++ groups cs
    else groups cs

/-- The counts and the multipliers of a text; one where no digits stand. -/
def numbers : List Char → List Nat
  | [] => []
  | c :: cs =>
    if c.isUpper then numberAt (cs.drop (smallAt cs).length) :: numbers cs
    else if c = ')' then numberAt cs :: numbers cs
    else numbers cs

variable {c : Char} {cs y z : List Char} {d k : Nat}

/-! ## Characters that are passed over -/

theorem inert_iff : inert c = true ↔ c ≠ '(' ∧ c ≠ ')' ∧ c.isUpper = false := by
  rw [inert, Bool.and_eq_true, Bool.and_eq_true, bne_iff_ne, bne_iff_ne, Bool.not_eq_true',
    and_assoc]

theorem paren_cases (c : Char) : c = '(' ∨ c = ')' ∨ c ≠ '(' ∧ c ≠ ')' := by tauto

theorem openAfter?_cons (ho : c ≠ '(') (hc : c ≠ ')') (d : Nat) (cs : List Char) :
    openAfter? d (c :: cs) = openAfter? d cs := by
  rw [openAfter?.eq_def]
  simp only [if_neg ho, if_neg hc]

theorem openAfter?_openParen (d : Nat) (cs : List Char) :
    openAfter? d ('(' :: cs) = openAfter? (d + 1) cs := by
  rw [openAfter?.eq_def]
  exact if_pos rfl

theorem openAfter?_closeParen (d : Nat) (cs : List Char) :
    openAfter? (d + 1) (')' :: cs) = openAfter? d cs := rfl

theorem splitGroup?_cons (ho : c ≠ '(') (hc : c ≠ ')') (d : Nat) (cs : List Char) :
    splitGroup? d (c :: cs) = (splitGroup? d cs).map fun s => (c :: s.1, s.2) := by
  rw [splitGroup?.eq_def]
  simp only [if_neg ho, if_neg hc]

theorem splitGroup?_openParen (d : Nat) (cs : List Char) :
    splitGroup? d ('(' :: cs) = (splitGroup? (d + 1) cs).map fun s => ('(' :: s.1, s.2) := by
  rw [splitGroup?.eq_def]
  exact if_pos rfl

theorem closers_cons (ho : c ≠ '(') (hc : c ≠ ')') (k : Nat) (cs : List Char) :
    closers k (c :: cs) = closers k cs := by
  rw [closers.eq_def]
  simp only [if_neg ho, if_neg hc]

theorem groups_cons (ho : c ≠ '(') (cs : List Char) : groups (c :: cs) = groups cs := by
  rw [groups, if_neg ho]

theorem occurrences_inert (h : inert c = true) (cs : List Char) :
    occurrences (c :: cs) = occurrences cs := by
  rw [occurrences, (inert_iff.mp h).2.2, if_neg Bool.false_ne_true]

theorem numbers_inert (h : inert c = true) (cs : List Char) : numbers (c :: cs) = numbers cs := by
  obtain ⟨-, hc, hu⟩ := inert_iff.mp h
  rw [numbers, hu, if_neg Bool.false_ne_true, if_neg hc]

/-- What makes no difference character by character makes none for a text. -/
theorem skip_inert {α : Type} {f : List Char → α}
    (hf : ∀ c cs, inert c = true → f (c :: cs) = f cs) {w : List Char}
    (hw : ∀ c ∈ w, inert c = true) (cs : List Char) : f (w ++ cs) = f cs := by
  induction w with
  | nil => rfl
  | cons c w ih =>
    rw [List.cons_append, hf c _ (hw c List.mem_cons_self)]
    exact ih fun c h => hw c (List.mem_cons_of_mem _ h)

/-! ## Balanced parentheses -/

/-- The first parenthesis without a partner closes the innermost open group. -/
theorem exists_split (h : openAfter? (k + 1 + d) cs = some 0) :
    ∃ inner rest, cs = inner ++ ')' :: rest ∧ openAfter? k inner = some 0 ∧
      openAfter? d rest = some 0 := by
  induction cs generalizing k with
  | nil =>
    have := Option.some.inj h
    omega
  | cons c cs ih =>
    rcases paren_cases c with rfl | rfl | ⟨ho, hc⟩
    · rw [openAfter?_openParen, show k + 1 + d + 1 = k + 1 + 1 + d by omega] at h
      obtain ⟨inner, rest, rfl, hi, hr⟩ := ih h
      exact ⟨'(' :: inner, rest, rfl, by rwa [openAfter?_openParen], hr⟩
    · rw [show k + 1 + d = k + d + 1 by omega, openAfter?_closeParen] at h
      cases k with
      | zero =>
        rw [Nat.zero_add] at h
        exact ⟨[], cs, rfl, rfl, h⟩
      | succ k =>
        obtain ⟨inner, rest, rfl, hi, hr⟩ := ih h
        exact ⟨')' :: inner, rest, rfl, hi, hr⟩
    · rw [openAfter?_cons ho hc] at h
      obtain ⟨inner, rest, rfl, hi, hr⟩ := ih h
      exact ⟨c :: inner, rest, rfl, by rwa [openAfter?_cons ho hc], hr⟩

/-- The group ends where its inside has closed all it opened. -/
theorem splitGroup?_append (h : openAfter? d y = some 0) (z : List Char) :
    splitGroup? d (y ++ ')' :: z) = some (y, z) := by
  induction y generalizing d with
  | nil =>
    cases h
    rfl
  | cons c y ih =>
    rw [List.cons_append]
    rcases paren_cases c with rfl | rfl | ⟨ho, hc⟩
    · rw [openAfter?_openParen] at h
      rw [splitGroup?_openParen, ih h]
      rfl
    · cases d with
      | zero => cases h
      | succ d =>
        rw [openAfter?_closeParen] at h
        show (splitGroup? d (y ++ ')' :: z)).map _ = _
        rw [ih h]
        rfl
    · rw [openAfter?_cons ho hc] at h
      rw [splitGroup?_cons ho hc, ih h]
      rfl

/-- Where no more groups are closed than are skipped there is nothing to ask for. -/
theorem closers_eq_nil (h : openAfter? k cs = some d) : closers k cs = [] := by
  induction cs generalizing k with
  | nil => rfl
  | cons c cs ih =>
    rcases paren_cases c with rfl | rfl | ⟨ho, hc⟩
    · rw [closers_openParen]
      exact ih (openAfter?_openParen k cs ▸ h)
    · cases k with
      | zero => cases h
      | succ k => exact ih h
    · rw [closers_cons ho hc]
      exact ih (openAfter?_cons ho hc k cs ▸ h)

/-! ## In front of a closing parenthesis -/

section CloseParen

theorem takeWhile_closeParen {p : Char → Bool} (hp : p ')' = false) (y z : List Char) :
    (y ++ ')' :: z).takeWhile p = y.takeWhile p := by
  induction y with
  | nil => exact List.takeWhile_cons_of_neg (Bool.eq_false_iff.mp hp)
  | cons c y ih =>
    rw [List.cons_append, List.takeWhile_cons, List.takeWhile_cons, ih]

theorem dropWhile_closeParen {p : Char → Bool} (hp : p ')' = false) (y z : List Char) :
    (y ++ ')' :: z).dropWhile p = y.dropWhile p ++ ')' :: z := by
  induction y with
  | nil => exact List.dropWhile_cons_of_neg (Bool.eq_false_iff.mp hp)
  | cons c y ih =>
    rw [List.cons_append, List.dropWhile_cons, List.dropWhile_cons, ih]
    split
    · rfl
    · rfl

theorem numberAt_closeParen (y z : List Char) : numberAt (y ++ ')' :: z) = numberAt y := by
  rw [numberAt, dropWhile_closeParen rfl, takeWhile_closeParen rfl, numberAt]

theorem smallAt_closeParen (y z : List Char) : smallAt (y ++ ')' :: z) = smallAt y := by
  rw [smallAt, takeWhile_closeParen rfl, smallAt]

theorem drop_smallAt_closeParen (y z : List Char) :
    (y ++ ')' :: z).drop (smallAt (y ++ ')' :: z)).length =
      y.drop (smallAt y).length ++ ')' :: z := by
  have hle : (smallAt y).length ≤ y.length := by
    have := congrArg List.length (smallAt_append y)
    rw [List.length_append] at this
    omega
  rw [smallAt_closeParen, List.drop_append_of_le_length hle]

theorem numbers_closeParen (y z : List Char) :
    numbers (y ++ ')' :: z) = numbers y ++ numberAt z :: numbers z := by
  induction y with
  | nil => rfl
  | cons c y ih =>
    rw [List.cons_append, numbers, numbers, ih, drop_smallAt_closeParen, numberAt_closeParen,
      numberAt_closeParen]
    split
    · rfl
    · split
      · rfl
      · rfl

theorem closers_closeParen (h : openAfter? (k + d) y = some 0) (z : List Char) :
    closers k (y ++ ')' :: z) = closers k y ++ numberAt z :: closers 0 z := by
  induction y generalizing k d with
  | nil =>
    obtain rfl : k = 0 := by
      have := Option.some.inj h
      omega
    rfl
  | cons c y ih =>
    rw [List.cons_append]
    rcases paren_cases c with rfl | rfl | ⟨ho, hc⟩
    · rw [openAfter?_openParen, Nat.add_right_comm] at h
      rw [closers_openParen, closers_openParen, ih h]
    · cases k with
      | zero =>
        cases d with
        | zero => cases h
        | succ d =>
          have h : openAfter? (0 + d) y = some 0 := by
            rw [Nat.zero_add] at h ⊢
            exact h
          rw [closers_closeParen_zero, closers_closeParen_zero, numberAt_closeParen, ih h]
          rfl
      | succ k =>
        rw [Nat.add_right_comm, openAfter?_closeParen] at h
        rw [closers_closeParen_succ, closers_closeParen_succ, ih h]
    · rw [openAfter?_cons ho hc] at h
      rw [closers_cons ho hc, closers_cons ho hc, ih h]

theorem groups_closeParen (h : openAfter? d y = some 0) (z : List Char) :
    groups (y ++ ')' :: z) = groups y ++ groups z := by
  induction y generalizing d with
  | nil => rfl
  | cons c y ih =>
    rw [List.cons_append]
    rcases paren_cases c with rfl | rfl | ⟨ho, hc⟩
    · rw [openAfter?_openParen] at h
      obtain ⟨inner, rest, hy, hi, -⟩ := @exists_split y d 0 (by rwa [Nat.zero_add, Nat.add_comm])
      have hsplit : splitGroup? 0 (y ++ ')' :: z) = some (inner, rest ++ ')' :: z) := by
        rw [hy, List.append_assoc]
        exact splitGroup?_append hi _
      rw [groups, if_pos rfl, hsplit, groups, if_pos rfl, ih h, hy, splitGroup?_append hi,
        Option.map_some, Option.map_some, numberAt_closeParen, List.append_assoc]
    · cases d with
      | zero => cases h
      | succ d => exact ih h
    · rw [groups_cons ho, groups_cons ho]
      exact ih (openAfter?_cons ho hc d y ▸ h)

/-- The occurrences in a group are taken with its multiplier. -/
theorem total_closeParen (h : openAfter? d y = some 0) (hz : Balanced z) (s : String) :
    total s (occurrences (y ++ ')' :: z)) =
      total s (occurrences y) * numberAt z + total s (occurrences z) := by
  induction y generalizing d with
  | nil =>
    have hclose : occurrences (')' :: z) = occurrences z := rfl
    have hnil : total s (occurrences []) = 0 := rfl
    rw [List.nil_append, hclose, hnil, Nat.zero_mul, Nat.zero_add]
  | cons c y ih =>
    rw [List.cons_append, occurrences, occurrences]
    by_cases hu : c.isUpper = true
    · have ho : c ≠ '(' := by rintro rfl; cases hu
      have hc : c ≠ ')' := by rintro rfl; cases hu
      rw [openAfter?_cons ho hc] at h
      have hclosers : closers 0 (y ++ ')' :: z) = closers 0 y ++ [numberAt z] := by
        rw [@closers_closeParen y d 0 (by rwa [Nat.zero_add]), closers_eq_nil hz]
      rw [if_pos hu, if_pos hu, total_cons, total_cons, ih h, drop_smallAt_closeParen,
        numberAt_closeParen, smallAt_closeParen, hclosers, Nat.add_mul, Nat.add_assoc]
      congr 1
      unfold Occurrence.atoms
      dsimp only
      split
      · rw [List.prod_append, List.prod_singleton, Nat.mul_assoc]
      · rw [Nat.zero_mul]
    · rw [if_neg hu, if_neg hu]
      rcases paren_cases c with rfl | rfl | ⟨ho, hc⟩
      · exact ih (openAfter?_openParen d y ▸ h)
      · cases d with
        | zero => cases h
        | succ d => exact ih h
      · exact ih (openAfter?_cons ho hc d y ▸ h)

end CloseParen

/-! ## A group and what follows it -/

section Group

variable {inner rest : List Char}

theorem groups_group (h : Balanced inner) (rest : List Char) :
    groups ('(' :: (inner ++ ')' :: rest)) =
      ⟨inner, numberAt rest⟩ :: (groups inner ++ groups rest) := by
  rw [groups, if_pos rfl, splitGroup?_append h, groups_closeParen h]
  rfl

theorem numbers_group (inner rest : List Char) :
    numbers ('(' :: (inner ++ ')' :: rest)) = numbers inner ++ numberAt rest :: numbers rest :=
  numbers_closeParen inner rest

theorem total_group (hi : Balanced inner) (hr : Balanced rest) (s : String) :
    total s (occurrences ('(' :: (inner ++ ')' :: rest))) =
      total s (occurrences inner) * numberAt rest + total s (occurrences rest) :=
  total_closeParen hi hr s

end Group

/-! ## Pieces -/

namespace Piece

/-- Behind its first character a piece holds no parenthesis and no capital letter. -/
theorem exists_inert_munch (c : Char) (cs : List Char) :
    ∃ w, (∀ d ∈ w, inert d = true) ∧ cs = w ++ (munch c cs).2.2 := by
  unfold munch
  split
  · rw [munchSymbol_eq]
    refine ⟨smallAt cs ++ (munchCount (cs.drop (smallAt cs).length)).1, fun d hd => ?_, ?_⟩
    · rcases List.mem_append.mp hd with hd | hd
      · exact inert_smallAt hd
      · exact inert_munchCount hd
    · dsimp only
      rw [List.append_assoc, munchCount_append, smallAt_append]
  · split
    · exact ⟨[], nofun, rfl⟩
    · split
      · exact ⟨_, fun d => inert_munchCount, (munchCount_append cs).symm⟩
      · split
        · exact ⟨_, fun d => inert_digits, List.takeWhile_append_dropWhile.symm⟩
        · exact ⟨[], nofun, rfl⟩

/-- What takes no notice of such characters takes none of what a piece holds behind its first. -/
theorem skip_munch {α : Type} {f : List Char → α}
    (hf : ∀ c cs, inert c = true → f (c :: cs) = f cs) (c : Char) (cs : List Char) :
    f (munch c cs).2.2 = f cs := by
  obtain ⟨w, hw, hcs⟩ := exists_inert_munch c cs
  conv_rhs => rw [hcs]
  exact (skip_inert hf hw _).symm

theorem munchCount_closeParen (y z : List Char) :
    munchCount (y ++ ')' :: z) = ((munchCount y).1, (munchCount y).2 ++ ')' :: z) := by
  unfold munchCount
  dsimp only
  rw [dropWhile_closeParen rfl, dropWhile_closeParen rfl, takeWhile_closeParen rfl,
    takeWhile_closeParen rfl]

/-- **A piece ends before a closing parenthesis.** -/
theorem munch_closeParen (c : Char) (y z : List Char) :
    munch c (y ++ ')' :: z) = ((munch c y).1, (munch c y).2.1, (munch c y).2.2 ++ ')' :: z) := by
  unfold munch
  rw [munchSymbol_eq, munchSymbol_eq, drop_smallAt_closeParen, smallAt_closeParen,
    takeWhile_closeParen rfl, dropWhile_closeParen rfl]
  dsimp only
  rw [munchCount_closeParen, munchCount_closeParen]
  split
  · rfl
  · split
    · rfl
    · split
      · rfl
      · split
        · rfl
        · rfl

/-- The pieces of a text in front of a closing parenthesis are those of the text alone. -/
theorem scanFrom_closeParen (offset : Nat) (y z : List Char) :
    scanFrom offset (y ++ ')' :: z) =
      scanFrom offset y ++ scanFrom (offset + byteLength y) (')' :: z) := by
  match y with
  | [] =>
    rw [scanFrom.eq_1 offset]
    rfl
  | c :: y =>
    rw [List.cons_append, scanFrom, scanFrom.eq_def offset (c :: y)]
    dsimp only
    by_cases hb : isBlank c = true
    · rw [if_pos hb, if_pos hb, scanFrom_closeParen, byteLength_cons, Nat.add_assoc]
    · have hbytes := congrArg byteLength (munch_append c y)
      rw [byteLength_append] at hbytes
      rw [if_neg hb, if_neg hb, munch_closeParen, scanFrom_closeParen, Nat.add_assoc, hbytes]
      rfl
termination_by y.length
decreasing_by
  · exact Nat.lt_succ_self _
  · exact munch_shorter c y

/-- The pieces of a group and of what follows it. -/
theorem exists_scanFrom_group (offset : Nat) (inner rest : List Char) :
    ∃ o₁ o₂ o₃, scanFrom offset ('(' :: (inner ++ ')' :: rest)) =
      ⟨.openParen, offset⟩ :: (scanFrom o₁ inner ++
        ⟨.closeParen (numberAt rest), o₂⟩ :: scanFrom o₃ (munch ')' rest).2.2) := by
  have hopen (cs : List Char) : munch '(' cs = (.openParen, ['('], cs) := rfl
  have hclose : (munch ')' rest).1 = .closeParen (numberAt rest) := by
    rw [← countOf_munchCount]
    rfl
  rw [scanFrom, if_neg (by decide), hopen, scanFrom_closeParen, scanFrom.eq_def _ (')' :: rest)]
  dsimp only
  rw [if_neg (by decide), hclose]
  exact ⟨_, _, _, rfl⟩

end Piece

/-! ## Balanced texts -/

/-- Texts made of blank characters, of pieces without a parenthesis, and of groups. -/
inductive Nested : List Char → Prop
  | nil : Nested []
  | blank {c : Char} {cs : List Char} (hb : isBlank c = true) (h : Nested cs) : Nested (c :: cs)
  | piece {c : Char} {cs : List Char} (hb : isBlank c = false) (ho : c ≠ '(') (hc : c ≠ ')')
      (hcs : Balanced cs) (h : Nested (Piece.munch c cs).2.2) : Nested (c :: cs)
  | group {inner rest : List Char} (hinner : Balanced inner) (hrest : Balanced rest)
      (hi : Nested inner) (hr : Nested (Piece.munch ')' rest).2.2) :
      Nested ('(' :: (inner ++ ')' :: rest))

theorem balanced_munch (c : Char) (h : Balanced cs) : Balanced (Piece.munch c cs).2.2 := by
  refine (Piece.skip_munch (fun c cs hinert => ?_) c cs).trans h
  obtain ⟨ho, hc, -⟩ := inert_iff.mp hinert
  exact openAfter?_cons ho hc 0 cs

/-- **A text with balanced parentheses is nested.** -/
theorem nested_of_balanced (h : Balanced cs) : Nested cs := by
  -- on the length of the text: a group leaves two shorter ones
  induction hn : cs.length using Nat.strong_induction_on generalizing cs with
  | _ n ih =>
    subst hn
    have shorter {ds : List Char} (hds : Balanced ds) (hlt : ds.length < cs.length) : Nested ds :=
      ih _ hlt hds rfl
    cases cs with
    | nil => exact .nil
    | cons c cs =>
      rcases paren_cases c with rfl | rfl | ⟨ho, hc⟩
      · have hopen : openAfter? (0 + 1 + 0) cs = some 0 := (openAfter?_openParen 0 cs).symm.trans h
        obtain ⟨inner, rest, rfl, hinner, hrest⟩ := exists_split hopen
        have hlt := Piece.munch_shorter ')' rest
        rw [List.length_cons, List.length_append] at shorter
        refine .group hinner hrest (shorter hinner (by omega)) ?_
        exact shorter (balanced_munch ')' hrest) (by omega)
      · cases h
      · have hcs : Balanced cs := (openAfter?_cons ho hc 0 cs).symm.trans h
        cases hb : isBlank c with
        | true => exact .blank hb (shorter hcs (Nat.lt_succ_self _))
        | false =>
          exact .piece hb ho hc hcs (shorter (balanced_munch c hcs) (Piece.munch_shorter c cs))

end Abacus.Matter
