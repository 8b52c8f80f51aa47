import Abacus.Proofs.Matter.Strictness

/-!
# Numbers that are skipped

Digits that belong to neither an element nor a group are skipped in the permissive mode, but the
number they spell is read all the same and may pass the bound. So a formula is refused for its
counts where a number, an exact sum or a product in it passes the bound, or a number that counts
nothing does; as long as none of the latter does they leave no trace in the composition.

* `straysBehind`, `strays`: the numbers of a text that count nothing. Each begins behind no other
  digit, and where neither a count nor a multiplier is due (`countDue`).
* `strayCounts`: those the scan finds.
* `CutBetween`: the place is not between two digits, so a number is found once and whole.

Results:
* `Piece.strays_scanFrom`: the scan finds the numbers that count nothing, and no others.
* `Formula.read_skipping`: the outcome of a permissive reading of a formula with balanced
  parentheses, as a condition on the text.
* `Formula.read_refuses_stray`: a number that counts nothing can be refused, although no count, no
  multiplier and no sum in the formula passes the bound.

`Formula.read_overflows` is the same condition for a formula in which nothing is skipped, in either
mode. The strict mode refuses the first number that counts nothing, however small it is.
-/

namespace Abacus.Matter

/-! ## In a text -/

/-- The text ends in a digit. -/
def digitEnds (back : List Char) : Bool := back.head?.any Char.isDigit

/-- The numbers that count nothing where the text follows another, which is read backwards: each
begins behind no other digit, and where neither a count nor a multiplier is due. -/
def straysBehind : List Char → List Char → List Nat
  | _, [] => []
  | back, c :: cs =>
    if c.isDigit && !digitEnds back && !countDue back then
      numberAt (c :: cs) :: straysBehind (c :: back) cs
    else straysBehind (c :: back) cs

/-- The numbers of a text that count nothing. -/
def strays (cs : List Char) : List Nat := straysBehind [] cs

variable {back cs y z : List Char} {c : Char}

theorem straysBehind_skip (h : c.isDigit = false ∨ digitEnds back = true ∨ countDue back = true)
    (cs : List Char) : straysBehind back (c :: cs) = straysBehind (c :: back) cs := by
  rw [straysBehind, if_neg]
  rcases h with h | h | h
  · simp [h]
  · simp [h]
  · simp [h]

theorem straysBehind_stray (hc : c.isDigit = true) (hends : digitEnds back = false)
    (hdue : countDue back = false) (cs : List Char) :
    straysBehind back (c :: cs) = numberAt (c :: cs) :: straysBehind (c :: back) cs := by
  rw [straysBehind, if_pos]
  rw [hc, hends, hdue]
  rfl

/-- A digit that belongs to the formula belongs to a count or a multiplier. -/
theorem countDue_of_belongsBehind (h : belongsBehind back c = true) (hd : c.isDigit = true) :
    countDue back = true := by
  obtain ⟨ho, hc, hu⟩ := inert_iff.mp (inert_of_isDigit hd)
  rcases belongsBehind_iff.mp h with h | h | h | h | ⟨hl, -⟩ | ⟨-, hdue⟩
  · rw [not_isDigit_of_isBlank h] at hd
    cases hd
  · exact absurd h ho
  · exact absurd h hc
  · rw [hu] at h
    cases h
  · have hnot := not_isAlpha_of_isDigit hd
    rw [isAlpha_iff.mpr (.inr hl)] at hnot
    cases hnot
  · exact hdue

/-- Text without noise counts with all its numbers. -/
theorem straysBehind_clear (h : clear back y = true) (z : List Char) :
    straysBehind back (y ++ z) = straysBehind (y.reverse ++ back) z := by
  induction y generalizing back with
  | nil => rfl
  | cons c y ih =>
    obtain ⟨hc, hy⟩ := clear_cons.mp h
    have hskip : c.isDigit = false ∨ digitEnds back = true ∨ countDue back = true := by
      cases hd : c.isDigit with
      | false => exact .inl rfl
      | true => exact .inr (.inr (countDue_of_belongsBehind hc hd))
    rw [List.cons_append, straysBehind_skip hskip, ih hy, List.reverse_cons, List.append_assoc]
    rfl

/-- The digits behind a digit belong to the same number. -/
theorem straysBehind_digits (h : digitEnds back = true) (hy : ∀ c ∈ y, c.isDigit = true)
    (z : List Char) : straysBehind back (y ++ z) = straysBehind (y.reverse ++ back) z := by
  induction y generalizing back with
  | nil => rfl
  | cons c y ih =>
    have hc : digitEnds (c :: back) = true := hy c List.mem_cons_self
    have hrest : ∀ d ∈ y, d.isDigit = true := fun d hd => hy d (List.mem_cons_of_mem _ hd)
    rw [List.cons_append, straysBehind_skip (.inr (.inl h)), ih hc hrest, List.reverse_cons,
      List.append_assoc]
    rfl

/-! ## The scan -/

/-- The numbers of the pieces that count nothing. -/
def strayCounts (ps : List Placed) : List Nat :=
  ps.filterMap fun p => match p.piece with
    | .strayCount value => some value
    | _ => none

/-- The place is not inside a run of digits. -/
def CutBetween (back cs : List Char) : Prop := digitEnds back = true → digitEnds cs = false

theorem strayCounts_of_belongs {p : Placed} (h : p.piece.Belongs) (ps : List Placed) :
    strayCounts (p :: ps) = strayCounts ps := by
  obtain ⟨piece, offset⟩ := p
  cases piece with
  | atoms | openParen | closeParen => rfl
  | strayCount | noise => cases h

theorem not_digitEnds_dropWhile (cs : List Char) :
    digitEnds (cs.dropWhile Char.isDigit) = false := by
  cases h : (cs.dropWhile Char.isDigit).head? with
  | none => rw [digitEnds, h, Option.any_none]
  | some c => rw [digitEnds, h, Option.any_some, head_dropWhile h]

namespace Piece

/-- A piece takes all digits of a run. -/
theorem cutBetween_munch (c : Char) (cs back : List Char) :
    CutBetween ((munch c cs).2.1.reverse ++ back) (munch c cs).2.2 := by
  rw [CutBetween, munch]
  split
  · exact fun _ => not_digitEnds_dropWhile _
  · split
    · rename_i ho
      intro h
      rw [ho] at h
      cases h
    · split
      · exact fun _ => not_digitEnds_dropWhile _
      · split
        · exact fun _ => not_digitEnds_dropWhile _
        · rename_i hd
          exact fun h => absurd h hd

/-- Noise ends neither a symbol nor a group. -/
theorem not_unitEnds_of_isNoise (h : isNoise back c = true) : unitEnds (c :: back) = false := by
  obtain ⟨-, -, hc, hu⟩ := not_of_isNoise h
  rw [isNoise, Bool.not_eq_true', Bool.eq_false_iff, Ne, belongsBehind_iff] at h
  simp only [not_or] at h
  rw [unitEnds, hu, beq_eq_false_iff_ne.mpr hc, Bool.false_or, Bool.false_or, Bool.eq_false_iff,
    Ne, Bool.and_eq_true]
  exact h.2.2.2.2.1

/-- **A scan may stand behind noise.** -/
theorem boundary_noise (h : isNoise back c = true) (cs : List Char) :
    Boundary ((munch c cs).2.1.reverse ++ back) (munch c cs).2.2 := by
  obtain ⟨hb, ho, hc, hu⟩ := not_of_isNoise h
  have hblank : ¬ isBlank c = true := Bool.eq_false_iff.mp hb
  have hunit := not_unitEnds_of_isNoise h
  rw [munch, hu, if_neg Bool.false_ne_true, if_neg ho, if_neg hc]
  by_cases hd : c.isDigit = true
  · rw [if_pos hd]
    have hdigits : ∀ d ∈ c :: cs.takeWhile Char.isDigit, d.isDigit = true :=
      List.forall_mem_cons.mpr ⟨hd, fun _ => mem_takeWhile_imp⟩
    obtain ⟨e, es, hes, he⟩ := exists_digit_reverse (List.cons_ne_nil _ _) hdigits back
    have hnot : ¬ isBlank e = true := Bool.eq_false_iff.mp (not_isBlank_of_isDigit he)
    rw [hes]
    refine ⟨fun _ _ _ => not_isUpper_of_isDigit he, fun d hhead hdigit => ?_, fun _ _ _ => ?_⟩
    · rw [head_dropWhile hhead] at hdigit
      cases hdigit
    · rw [List.dropWhile_cons_of_neg hnot, unitEnds_digit he]
  · rw [if_neg hd]
    refine ⟨fun _ _ _ => hu, fun _ _ _ => ?_, fun _ _ _ => ?_⟩
    · show countDue (c :: back) = false
      rw [countDue, List.dropWhile_cons_of_neg hd, List.dropWhile_cons_of_neg hblank, hunit]
    · show unitEnds ((c :: back).dropWhile isBlank) = false
      rw [List.dropWhile_cons_of_neg hblank, hunit]

theorem countOf_digits (hd : c.isDigit = true) (cs : List Char) :
    countOf (c :: cs.takeWhile Char.isDigit) = numberAt (c :: cs) := by
  have hblank : ¬ isBlank c = true := Bool.eq_false_iff.mp (not_isBlank_of_isDigit hd)
  rw [countOf, numberAt, List.dropWhile_cons_of_neg hblank, List.dropWhile_cons_of_neg hblank,
    List.takeWhile_cons_of_pos hd]

/-- Noise is a number that counts nothing, or no number. -/
theorem strays_munch_noise (h : isNoise back c = true) (hcut : CutBetween back (c :: cs))
    (offset : Nat) (ps : List Placed) :
    ∃ ns, strayCounts (⟨(munch c cs).1, offset⟩ :: ps) = ns ++ strayCounts ps ∧
      straysBehind back (c :: cs) =
        ns ++ straysBehind ((munch c cs).2.1.reverse ++ back) (munch c cs).2.2 := by
  obtain ⟨-, ho, hc, hu⟩ := not_of_isNoise h
  rw [munch, hu, if_neg Bool.false_ne_true, if_neg ho, if_neg hc]
  by_cases hd : c.isDigit = true
  · have hends : digitEnds back = false := by
      rw [Bool.eq_false_iff]
      intro hends
      have hnot : c.isDigit = false := hcut hends
      rw [hd] at hnot
      cases hnot
    have hdue : countDue back = false := by
      rw [Bool.eq_false_iff]
      intro hdue
      have hbelongs : belongsBehind back c = true := belongsBehind_iff.mpr (by simp [hd, hdue])
      rw [isNoise, hbelongs] at h
      cases h
    have hdigit : digitEnds (c :: back) = true := hd
    have hrest : straysBehind (c :: back) cs =
        straysBehind ((cs.takeWhile Char.isDigit).reverse ++ c :: back)
          (cs.dropWhile Char.isDigit) := by
      rw [← straysBehind_digits hdigit fun _ => mem_takeWhile_imp, List.takeWhile_append_dropWhile]
    rw [if_pos hd]
    refine ⟨[numberAt (c :: cs)], ?_, ?_⟩
    · rw [← countOf_digits hd]
      rfl
    · rw [straysBehind_stray hd hends hdue, hrest, List.reverse_cons, List.append_assoc]
      rfl
  · rw [if_neg hd]
    exact ⟨[], rfl, straysBehind_skip (.inl (Bool.eq_false_iff.mpr hd)) cs⟩

/-- **The scan finds the numbers that count nothing**, and no others. -/
theorem strays_scanFrom {back cs : List Char} (h : Boundary back cs) (hcut : CutBetween back cs)
    (offset : Nat) : strayCounts (scanFrom offset cs) = straysBehind back cs := by
  match cs with
  | [] =>
    rw [scanFrom]
    rfl
  | c :: cs =>
    rw [scanFrom]
    by_cases hb : isBlank c = true
    · have hd := not_isDigit_of_isBlank hb
      have hcut' : CutBetween (c :: back) cs := fun hends => by
        rw [digitEnds, List.head?_cons, Option.any_some, hd] at hends
        cases hends
      rw [if_pos hb, straysBehind_skip (.inl hd)]
      exact strays_scanFrom (h.skip hb) hcut' _
    · have hblank := Bool.eq_false_iff.mpr hb
      have hcut' := cutBetween_munch c cs back
      rw [if_neg hb]
      cases hc : belongsBehind back c with
      | true =>
        obtain ⟨hclear, hrest⟩ := clear_munch h hblank hc
        rw [strayCounts_of_belongs (belongs_munch h hblank hc), strays_scanFrom hrest hcut',
          ← straysBehind_clear hclear, munch_append]
      | false =>
        have hnoise : isNoise back c = true := by rw [isNoise, hc, Bool.not_false]
        obtain ⟨ns, hpieces, htext⟩ := strays_munch_noise hnoise hcut offset
          (scanFrom (offset + byteLength (munch c cs).2.1) (munch c cs).2.2)
        rw [hpieces, htext, strays_scanFrom (boundary_noise hnoise cs) hcut']
termination_by cs.length
decreasing_by
  · exact Nat.lt_succ_self _
  · exact munch_shorter c cs
  · exact munch_shorter c cs

theorem strays_scan (text : String) : strayCounts (scan text) = strays text.toList :=
  strays_scanFrom (.start _) nofun 0

end Piece

theorem mem_strayCounts {n : Nat} {ps : List Placed} :
    n ∈ strayCounts ps ↔ ∃ p ∈ ps, p.piece = .strayCount n := by
  rw [strayCounts, List.mem_filterMap]
  refine exists_congr fun p => and_congr_right fun _ => ?_
  obtain ⟨piece, offset⟩ := p
  cases piece <;> simp

/-! ## A whole formula -/

namespace Formula

variable {text : String}

/-- A run takes no number beyond the bound, whether it counts or not. -/
theorem le_of_mem_strayCounts {mode : Mode} {ps : List Placed} {g g' : Groups}
    (h : ps.foldlM (Groups.step mode) g = .ok g') : ∀ n ∈ strayCounts ps, n ≤ maxCount := by
  induction ps generalizing g with
  | nil => nofun
  | cons p ps ih =>
    rw [List.foldlM_cons] at h
    obtain ⟨g₁, hstep, h⟩ := Except.bind_eq_ok.mp h
    intro n hn
    obtain ⟨q, hq, hpiece⟩ := mem_strayCounts.mp hn
    rcases List.mem_cons.mp hq with rfl | hq
    · have htakes := Groups.step_eq_ok_iff.mp hstep
      rw [hpiece] at htakes
      cases htakes with
      | strayCount _ hn => exact hn
    · exact ih h n (mem_strayCounts.mpr ⟨q, hq, hpiece⟩)

/-- Where the numbers that count nothing are within the bound, every piece is part of the formula or
is skipped. -/
theorem tolerated_of_strays (h : ∀ n ∈ strays text.toList, n ≤ maxCount) :
    ∀ p ∈ Piece.scan text, p.piece.Tolerated .permissive := by
  intro p hp
  cases hpiece : p.piece with
  | atoms | openParen | closeParen => trivial
  | strayCount n =>
    refine ⟨rfl, h n ?_⟩
    rw [← Piece.strays_scan]
    exact mem_strayCounts.mpr ⟨p, hp, hpiece⟩
  | noise => rfl

/-- A number beyond the bound is refused, though it counts nothing. -/
theorem read_of_stray (hb : Balanced text.toList) {n : Nat} (hn : n ∈ strays text.toList)
    (hmax : maxCount < n) : read .permissive text = .error .countOverflow := by
  rcases read_permissive text with hread | ⟨-, c, hread⟩ | ⟨depth, hopen, -⟩ | ⟨before, hat, -⟩
  · exact hread
  · obtain ⟨g, hrun, -⟩ := ofPieces_eq_ok (ofPieces_of_read hread)
    have hle := le_of_mem_strayCounts hrun n (by rwa [Piece.strays_scan])
    omega
  · cases hb.symm.trans hopen
  · exact absurd hat.overcloses (balanced_iff.mp hb).1

/-- **A formula is refused for its counts where it overflows, or for a number that counts nothing.**
If its parentheses are balanced and what belongs to no formula is skipped, it is refused iff some
count or multiplier, or what some element comes to in the whole formula or in a group, before or
after the group is multiplied, passes the bound, or a number does that belongs to neither an element
nor a group. Otherwise it is read, and nothing that was skipped is counted. -/
theorem read_skipping (hb : Balanced text.toList) :
    (read .permissive text = .error .countOverflow ↔
      Overflows text.toList ∨ ∃ n ∈ strays text.toList, maxCount < n) ∧
    (¬ Overflows text.toList → (∀ n ∈ strays text.toList, n ≤ maxCount) →
      ∃ c, read .permissive text = .ok c ∧
        c.entries = ((occurrences text.toList).map Occurrence.symbol).eraseDups.map
          fun s => (s, total s (occurrences text.toList))) := by
  by_cases hstrays : ∀ n ∈ strays text.toList, n ≤ maxCount
  · have hnone : ¬ ∃ n ∈ strays text.toList, maxCount < n := fun ⟨n, hn, hmax⟩ =>
      absurd (hstrays n hn) (Nat.not_le.mpr hmax)
    rw [or_iff_left hnone, read_permissive_eq]
    rcases ofPieces_overflowsUnless hb (tolerated_of_strays hstrays) with
      ⟨hfits, c, hc, -⟩ | ⟨hover, herr⟩
    · have hread : read .permissive text = .ok c := (read_permissive_eq text).trans hc
      rw [hc]
      exact ⟨⟨nofun, fun h => absurd h hfits⟩, fun _ _ => ⟨c, rfl, entries_of_read hread⟩⟩
    · rw [herr]
      exact ⟨⟨fun _ => not_not.mp hover, fun _ => rfl⟩, fun h => absurd h hover⟩
  · obtain ⟨n, hn, hmax⟩ : ∃ n ∈ strays text.toList, maxCount < n := by
      simpa only [not_forall, Nat.not_le, exists_prop] using hstrays
    exact ⟨⟨fun _ => .inr ⟨n, hn, hmax⟩, fun _ => read_of_stray hb hn hmax⟩,
      fun _ h => absurd h hstrays⟩

/-- A number between two elements is not counted; one greater by one refuses the formula. -/
theorem read_skipping_between :
    (∃ c, read .permissive "7(H2 18446744073709551615O)3 4" = .ok c ∧
      c.entries = [("H", 6), ("O", 3)]) ∧
    read .permissive "7(H2 18446744073709551616O)3 4" = .error .countOverflow := by
  obtain ⟨hiff, hcounts⟩ := @read_skipping "7(H2 18446744073709551615O)3 4" (by decide +kernel)
  have hread : read .permissive "7(H2 18446744073709551615O)3 4" =
      .ok ⟨[("H", 6), ("O", 3)], by decide, by decide⟩ := by
    with_unfolding_all rfl
  have hfits : ¬ Overflows "7(H2 18446744073709551615O)3 4".toList := by
    intro h
    rw [hiff.mpr (.inl h)] at hread
    cases hread
  obtain ⟨c, hc, hentries⟩ := hcounts hfits (by decide +kernel)
  refine ⟨⟨c, hc, hentries.trans (by decide +kernel)⟩, ?_⟩
  obtain ⟨hiff', -⟩ := @read_skipping "7(H2 18446744073709551616O)3 4" (by decide +kernel)
  exact hiff'.mpr (.inr ⟨18446744073709551616, by decide +kernel, by decide⟩)

/-- **A number that is skipped can be refused all the same**: no count, no multiplier and no exact
sum of this formula passes the bound, only the number in front of it, which counts nothing. -/
theorem read_refuses_stray :
    Balanced "18446744073709551616H2O".toList ∧ ¬ Overflows "18446744073709551616H2O".toList ∧
      read .permissive "18446744073709551616H2O" = .error .countOverflow := by
  have hoccurrences : occurrences "18446744073709551616H2O".toList =
      [⟨"H", 2, []⟩, ⟨"O", 1, []⟩] := by
    with_unfolding_all rfl
  have hgroups : groups "18446744073709551616H2O".toList = [] := by with_unfolding_all rfl
  refine ⟨by decide +kernel, ?_, by decide +kernel⟩
  rintro (⟨n, hn, hmax⟩ | ⟨s, hmax⟩ | ⟨g, hg, -⟩)
  · have hall : ∀ n ∈ numbers "18446744073709551616H2O".toList, n ≤ maxCount := by decide +kernel
    exact absurd (hall n hn) (Nat.not_le.mpr hmax)
  · have hnil : total s [] = 0 := rfl
    rw [hoccurrences, total_cons, total_cons, hnil] at hmax
    split at hmax <;> split at hmax <;> exact absurd hmax (by decide)
  · rw [hgroups] at hg
    cases hg

end Formula

end Abacus.Matter
