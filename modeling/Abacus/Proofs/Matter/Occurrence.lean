import Abacus.Matter.Piece
import Abacus.Proofs.Text.Ascii
import Mathlib.Algebra.Ring.Nat

/-!
# Where elements stand in a formula

What a formula says of its elements, read off the text without a scan. Every capital letter is an
occurrence of an element. Its symbol, its count and the groups around it are found in the text
that begins there: the groups around it are those whose closing parenthesis is still to come while
the opening one is not.

* `Occurrence`: the symbol, the count, and the multipliers of the groups around it from the inside
  out. Its atoms are the product of the numbers.
* `smallAt`, `numberAt`: the small letter that belongs to a symbol, and the number that a text
  begins with. Blank characters may stand before a number; without digits it is one.
* `closers`: the multipliers of the groups that a text closes without having opened them.
* `occurrences` lists the occurrences from left to right, `total` is the number of atoms of an
  element.

Nothing here fails. A text with noise or with unbalanced parentheses has its occurrences too, and
numbers may be of any size. Counts are exact, without a bound.

Results:
* `Piece.occurrences_scanFrom`: the pieces of a text have the occurrences of the text. So what is
  proved of a run over the pieces is said of the text in the end.

The groups themselves, with all they hold, are `Proofs/Matter/Grouping`.
-/

namespace Abacus.Matter

/-- A place where an element stands: its symbol, its own count, and the multipliers of the groups
around it from the inside out. -/
structure Occurrence where
  symbol : String
  count : Nat
  multipliers : List Nat

/-- The number of atoms an occurrence stands for. -/
def Occurrence.atoms (o : Occurrence) : Nat := o.count * o.multipliers.prod

/-- The number of atoms of an element over all its occurrences. -/
def total (symbol : String) (os : List Occurrence) : Nat :=
  ((os.filter fun o => o.symbol = symbol).map Occurrence.atoms).sum

/-! ## In a text -/

/-- The number that a text begins with, behind blank characters; one if no digit stands there. -/
def numberAt (cs : List Char) : Nat :=
  (readDigits? ((cs.dropWhile isBlank).takeWhile Char.isDigit)).getD 1

/-- The small letter that belongs to a symbol, if there is one. -/
def smallAt (cs : List Char) : List Char := (cs.takeWhile Char.isLower).take 1

/-- The multipliers of the groups that a text closes without having opened them, after `depth`
groups that were opened before the text and are not asked for. -/
def closers : Nat → List Char → List Nat
  | _, [] => []
  | depth, c :: cs =>
    if c = '(' then closers (depth + 1) cs
    else if c = ')' then
      match depth with
      | 0 => numberAt cs :: closers 0 cs
      | depth + 1 => closers depth cs
    else closers depth cs

/-- The occurrences of elements in a text. -/
def occurrences : List Char → List Occurrence
  | [] => []
  | c :: cs =>
    if c.isUpper then
      ⟨String.ofList (c :: smallAt cs), numberAt (cs.drop (smallAt cs).length), closers 0 cs⟩ ::
        occurrences cs
    else occurrences cs

/-! ## In pieces -/

/-- The multipliers of the groups that the pieces close without having opened them. -/
def closersIn : Nat → List Placed → List Nat
  | _, [] => []
  | depth, p :: ps =>
    match p.piece, depth with
    | .openParen, depth => closersIn (depth + 1) ps
    | .closeParen m, 0 => m :: closersIn 0 ps
    | .closeParen _, depth + 1 => closersIn depth ps
    | _, depth => closersIn depth ps

/-- The occurrences of elements among pieces. -/
def occurrencesIn : List Placed → List Occurrence
  | [] => []
  | p :: ps =>
    match p.piece with
    | .atoms symbol count => ⟨symbol, count, closersIn 0 ps⟩ :: occurrencesIn ps
    | _ => occurrencesIn ps

/-- One group more around the pieces is one closer less to ask for. -/
theorem closersIn_succ (depth : Nat) (ps : List Placed) :
    closersIn (depth + 1) ps = (closersIn depth ps).tail := by
  induction ps generalizing depth with
  | nil => rfl
  | cons p ps ih =>
    obtain ⟨piece, offset⟩ := p
    cases piece with
    | openParen => exact ih _
    | closeParen m =>
      cases depth with
      | zero => rfl
      | succ depth => exact ih _
    | atoms | strayCount | noise => exact ih _

/-! ## The scan -/

/-- The character is neither a parenthesis nor a capital letter. -/
def inert (c : Char) : Bool := c != '(' && c != ')' && !c.isUpper

theorem inert_of {c : Char} (hp : c.isUpper = false) (ho : c ≠ '(') (hc : c ≠ ')') :
    inert c = true := by
  rw [inert, hp]
  simp [ho, hc]

theorem inert_of_isLower {c : Char} (h : c.isLower = true) : inert c = true := by
  refine inert_of ?_ (by rintro rfl; cases h) (by rintro rfl; cases h)
  exact not_isUpper_of_isLower h

theorem inert_of_isDigit {c : Char} (h : c.isDigit = true) : inert c = true := by
  refine inert_of ?_ (by rintro rfl; cases h) (by rintro rfl; cases h)
  exact not_isUpper_of_isDigit h

theorem inert_of_isBlank {c : Char} (h : isBlank c = true) : inert c = true := by
  refine inert_of ?_ (by rintro rfl; cases h) (by rintro rfl; cases h)
  rw [Bool.eq_false_iff]
  intro hu
  have ha : c.isAlphanum = true := isAlphanum_iff.mpr (.inl (isAlpha_iff.mpr (.inl hu)))
  rw [not_isBlank_of_isAlphanum ha] at h
  cases h

theorem closers_inert {c : Char} (h : inert c = true) (depth : Nat) (cs : List Char) :
    closers depth (c :: cs) = closers depth cs := by
  rw [inert, Bool.and_eq_true, Bool.and_eq_true, bne_iff_ne, bne_iff_ne] at h
  rw [closers.eq_def]
  simp only [if_neg h.1.1, if_neg h.1.2]

theorem closers_skip {w : List Char} (hw : ∀ c ∈ w, inert c = true) (depth : Nat)
    (cs : List Char) : closers depth (w ++ cs) = closers depth cs := by
  induction w with
  | nil => rfl
  | cons c w ih =>
    rw [List.cons_append, closers_inert (hw c List.mem_cons_self)]
    exact ih fun c h => hw c (List.mem_cons_of_mem _ h)

theorem occurrences_skip {w : List Char} (hw : ∀ c ∈ w, inert c = true) (cs : List Char) :
    occurrences (w ++ cs) = occurrences cs := by
  induction w with
  | nil => rfl
  | cons c w ih =>
    have hc := hw c List.mem_cons_self
    rw [inert, Bool.and_eq_true, Bool.not_eq_true'] at hc
    rw [List.cons_append, occurrences, hc.2]
    exact ih fun c h => hw c (List.mem_cons_of_mem _ h)

/-- A capital letter is no parenthesis. -/
theorem closers_isUpper {c : Char} (h : c.isUpper = true) (depth : Nat) (cs : List Char) :
    closers depth (c :: cs) = closers depth cs := by
  have ho : c ≠ '(' := by rintro rfl; cases h
  have hc : c ≠ ')' := by rintro rfl; cases h
  rw [closers.eq_def]
  simp only [if_neg ho, if_neg hc]

theorem closers_openParen (depth : Nat) (cs : List Char) :
    closers depth ('(' :: cs) = closers (depth + 1) cs := by
  rw [closers.eq_def]
  exact if_pos rfl

theorem closers_closeParen_zero (cs : List Char) :
    closers 0 (')' :: cs) = numberAt cs :: closers 0 cs := rfl

theorem closers_closeParen_succ (depth : Nat) (cs : List Char) :
    closers (depth + 1) (')' :: cs) = closers depth cs := rfl

theorem mem_takeWhile_imp {p : Char → Bool} {c : Char} {cs : List Char} (h : c ∈ cs.takeWhile p) :
    p c = true :=
  List.all_eq_true.mp List.all_takeWhile c h

theorem smallAt_append (cs : List Char) : smallAt cs ++ cs.drop (smallAt cs).length = cs := by
  cases cs with
  | nil => rfl
  | cons c cs =>
    rw [smallAt, List.takeWhile_cons]
    cases c.isLower <;> rfl

theorem inert_smallAt {c : Char} {cs : List Char} (h : c ∈ smallAt cs) : inert c = true :=
  inert_of_isLower (mem_takeWhile_imp (List.mem_of_mem_take h))

theorem closers_smallAt (depth : Nat) (cs : List Char) :
    closers depth (cs.drop (smallAt cs).length) = closers depth cs := by
  rw [← closers_skip (w := smallAt cs) (fun c => inert_smallAt), smallAt_append]

theorem occurrences_smallAt (cs : List Char) :
    occurrences (cs.drop (smallAt cs).length) = occurrences cs := by
  rw [← occurrences_skip (w := smallAt cs) (fun c => inert_smallAt), smallAt_append]

theorem inert_digits {c : Char} {cs : List Char} (h : c ∈ cs.takeWhile Char.isDigit) :
    inert c = true :=
  inert_of_isDigit (mem_takeWhile_imp h)

theorem closers_digits (depth : Nat) (cs : List Char) :
    closers depth (cs.dropWhile Char.isDigit) = closers depth cs := by
  rw [← closers_skip (w := cs.takeWhile Char.isDigit) (fun c => inert_digits),
    List.takeWhile_append_dropWhile]

theorem occurrences_digits (cs : List Char) :
    occurrences (cs.dropWhile Char.isDigit) = occurrences cs := by
  rw [← occurrences_skip (w := cs.takeWhile Char.isDigit) (fun c => inert_digits),
    List.takeWhile_append_dropWhile]

namespace Piece

theorem munchSymbol_eq (c : Char) (cs : List Char) :
    munchSymbol c cs = (c :: smallAt cs, cs.drop (smallAt cs).length) := by
  cases cs with
  | nil => rfl
  | cons d cs =>
    rw [munchSymbol, smallAt, List.takeWhile_cons]
    cases d.isLower <;> rfl

theorem dropWhile_munchCount (cs : List Char) :
    (munchCount cs).1.dropWhile isBlank = (cs.dropWhile isBlank).takeWhile Char.isDigit := by
  rw [munchCount, List.dropWhile_append_of_pos fun c => mem_takeWhile_imp]
  cases h : (cs.dropWhile isBlank).takeWhile Char.isDigit with
  | nil => rfl
  | cons c digits =>
    have hc : c.isDigit = true := mem_takeWhile_imp (h ▸ List.mem_cons_self)
    have ha : c.isAlphanum = true := isAlphanum_iff.mpr (.inr hc)
    rw [List.dropWhile_cons, not_isBlank_of_isAlphanum ha]
    rfl

theorem countOf_munchCount (cs : List Char) : countOf (munchCount cs).1 = numberAt cs := by
  rw [countOf, dropWhile_munchCount, numberAt]

theorem inert_munchCount {c : Char} {cs : List Char} (h : c ∈ (munchCount cs).1) :
    inert c = true := by
  rcases List.mem_append.mp h with h | h
  · exact inert_of_isBlank (mem_takeWhile_imp h)
  · exact inert_digits h

theorem closers_munchCount (depth : Nat) (cs : List Char) :
    closers depth (munchCount cs).2 = closers depth cs := by
  rw [← closers_skip (fun c => inert_munchCount) depth (munchCount cs).2, munchCount_append]

theorem occurrences_munchCount (cs : List Char) :
    occurrences (munchCount cs).2 = occurrences cs := by
  rw [← occurrences_skip (fun c => inert_munchCount) (munchCount cs).2, munchCount_append]

theorem closers_munch {c : Char} {cs : List Char} {ps : List Placed} (offset : Nat)
    (ih : ∀ depth, closersIn depth ps = closers depth (munch c cs).2.2) (depth : Nat) :
    closersIn depth (⟨(munch c cs).1, offset⟩ :: ps) = closers depth (c :: cs) := by
  unfold munch at ih ⊢
  by_cases hu : c.isUpper = true
  · rw [if_pos hu, munchSymbol_eq] at ih
    rw [if_pos hu, closers_isUpper hu, ← closers_smallAt, ← closers_munchCount]
    exact ih depth
  rw [if_neg hu] at ih ⊢
  by_cases ho : c = '('
  · rw [if_pos ho] at ih ⊢
    rw [ho, closers_openParen]
    exact ih (depth + 1)
  rw [if_neg ho] at ih ⊢
  by_cases hc : c = ')'
  · rw [if_pos hc] at ih ⊢
    rw [hc]
    cases depth with
    | zero =>
      rw [closers_closeParen_zero, ← countOf_munchCount, ← closers_munchCount 0, ← ih]
      rfl
    | succ depth =>
      rw [closers_closeParen_succ, ← closers_munchCount, ← ih]
      rfl
  rw [if_neg hc] at ih ⊢
  rw [closers_inert (inert_of (Bool.eq_false_iff.mpr hu) ho hc)]
  by_cases hd : c.isDigit = true
  · rw [if_pos hd] at ih ⊢
    rw [← closers_digits]
    exact ih depth
  · rw [if_neg hd] at ih ⊢
    exact ih depth

theorem occurrences_munch {c : Char} {cs : List Char} {ps : List Placed} (offset : Nat)
    (hc : closersIn 0 ps = closers 0 (munch c cs).2.2)
    (ih : occurrencesIn ps = occurrences (munch c cs).2.2) :
    occurrencesIn (⟨(munch c cs).1, offset⟩ :: ps) = occurrences (c :: cs) := by
  unfold munch at hc ih ⊢
  by_cases hu : c.isUpper = true
  · rw [if_pos hu, munchSymbol_eq] at hc ih ⊢
    rw [occurrences, if_pos hu, ← closers_smallAt, ← closers_munchCount, ← occurrences_smallAt,
      ← occurrences_munchCount, ← countOf_munchCount, ← hc, ← ih]
    rfl
  rw [if_neg hu] at ih ⊢
  rw [occurrences, if_neg hu]
  by_cases ho : c = '('
  · rw [if_pos ho] at ih ⊢
    exact ih
  rw [if_neg ho] at ih ⊢
  by_cases hp : c = ')'
  · rw [if_pos hp] at ih ⊢
    exact ih.trans (occurrences_munchCount cs)
  rw [if_neg hp] at ih ⊢
  by_cases hd : c.isDigit = true
  · rw [if_pos hd] at ih ⊢
    exact ih.trans (occurrences_digits cs)
  · rw [if_neg hd] at ih ⊢
    exact ih

theorem closers_scanFrom (offset depth : Nat) (cs : List Char) :
    closersIn depth (scanFrom offset cs) = closers depth cs := by
  match cs with
  | [] =>
    rw [scanFrom]
    rfl
  | c :: cs =>
    rw [scanFrom]
    by_cases hb : isBlank c = true
    · rw [if_pos hb, closers_inert (inert_of_isBlank hb)]
      exact closers_scanFrom _ depth cs
    · rw [if_neg hb]
      exact closers_munch _ (fun depth => closers_scanFrom _ depth _) depth
termination_by cs.length
decreasing_by
  · exact Nat.lt_succ_self _
  · exact munch_shorter c cs

/-- The pieces of a text have the occurrences of the text. -/
theorem occurrences_scanFrom (offset : Nat) (cs : List Char) :
    occurrencesIn (scanFrom offset cs) = occurrences cs := by
  match cs with
  | [] =>
    rw [scanFrom]
    rfl
  | c :: cs =>
    rw [scanFrom]
    by_cases hb : isBlank c = true
    · rw [if_pos hb]
      have hs := occurrences_skip (w := [c]) (by simpa using inert_of_isBlank hb) cs
      exact (occurrences_scanFrom _ cs).trans hs.symm
    · rw [if_neg hb]
      exact occurrences_munch _ (closers_scanFrom _ 0 _) (occurrences_scanFrom _ _)
termination_by cs.length
decreasing_by
  · exact Nat.lt_succ_self _
  · exact munch_shorter c cs

end Piece

end Abacus.Matter
