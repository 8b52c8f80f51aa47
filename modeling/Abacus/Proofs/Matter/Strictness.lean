import Abacus.Proofs.Matter.Noise
import Abacus.Proofs.Matter.Parentheses

/-!
# Formulas read strictly

Up to the first noise the two modes do the same. There a strict reading ends, with an error that
names the noise, while the other one goes on. So a fault before the noise is reported in both
modes, and one behind it is reported in the permissive mode only.

* `noiseError`: how the first noise is refused. A digit is reported as a count without an element,
  any other character by itself; the offset is in bytes.
* `StopsAtNoise`, `LacksElements`, `Agrees`: the outcomes of a strict reading. It is refused for the
  first noise; or for the lack of an element, where the permissive mode reads an empty composition;
  or it has the outcome of the permissive reading.
* `Continues`: nothing before the noise is at fault but groups that are still open.

That the outcomes exclude one another is a statement of its own, since each is about the same two
readings.

Results:
* `Groups.step_of_belongs`, `run_of_belongs`: the modes agree on what belongs to the formula.
* `read_strict_of_firstNoise`, `read_of_clear`: readings with and without noise.
* `read_strict`: one outcome and no other, when it is the noise, and that what is read strictly is
  read permissively.

What noise is, is said of the text in `Proofs/Matter/Noise`.
-/

namespace Abacus.Matter

theorem Composition.eq_empty {c : Composition} (h : c.isEmpty = true) : c = .empty := by
  obtain ⟨entries, distinct, bounded⟩ := c
  obtain rfl : entries = [] := List.isEmpty_iff.mp h
  rfl

namespace Formula

variable {text : String} {before : List Char} {c : Char}

/-! ## What a strict reading comes to -/

/-- How the first noise is refused. -/
def noiseError (before : List Char) (c : Char) : Error :=
  if c.isDigit then .strayCount (byteLength before) else .unexpectedCharacter c (byteLength before)

/-- A strict reading is refused for the first noise. -/
def StopsAtNoise (text : String) : Prop :=
  ∃ before c, FirstNoise text.toList before c ∧ read .strict text = .error (noiseError before c)

/-- Only the lack of elements is refused. -/
def LacksElements (text : String) : Prop :=
  read .strict text = .error .empty ∧ read .permissive text = .ok .empty

/-- The modes agree: on a composition, on a fault in the parentheses, or on a count. -/
def Agrees (text : String) : Prop :=
  read .strict text = read .permissive text ∧
    ((∃ c, read .permissive text = .ok c) ∨
      (∃ offset, read .permissive text = .error (.unmatchedClosingParen offset)) ∨
      (∃ depth, read .permissive text = .error (.unclosedParen depth)) ∨
      read .permissive text = .error .countOverflow)

/-- Nothing in the text is at fault but groups that are still open. -/
def Continues (before : List Char) : Prop :=
  (∃ c, read .permissive (String.ofList before) = .ok c) ∨
    ∃ depth, read .permissive (String.ofList before) = .error (.unclosedParen depth)

/-! ## Both modes -/

theorem Groups.step_of_belongs {p : Placed} (h : p.piece.Belongs) (g : Groups) (mode : Mode) :
    g.step mode p = g.step .permissive p := by
  obtain ⟨piece, offset⟩ := p
  cases piece with
  | atoms | openParen | closeParen => rfl
  | strayCount | noise => exact h.elim

/-- **The modes agree on what belongs to the formula.** -/
theorem run_of_belongs {ps : List Placed} (h : ∀ p ∈ ps, p.piece.Belongs) (g : Groups)
    (mode : Mode) : ps.foldlM (Groups.step mode) g = ps.foldlM (Groups.step .permissive) g := by
  induction ps generalizing g with
  | nil => rfl
  | cons p ps ih =>
    obtain ⟨hp, hps⟩ := List.forall_mem_cons.mp h
    rw [List.foldlM_cons, List.foldlM_cons, Groups.step_of_belongs hp]
    exact congrArg _ (funext fun g => ih hps g)

/-- What is skipped is never complained about. -/
theorem error_of_run {g : Groups} {offset : Nat} {cs : List Char} {err : Error}
    (h : (Piece.scanFrom offset cs).foldlM (Groups.step .permissive) g = .error err) :
    err = .countOverflow ∨ ∃ offset, err = .unmatchedClosingParen offset := by
  rcases run_permissive g offset cs with ⟨g', hrun⟩ | hrun | ⟨_, _, -, -, hrun⟩
  · rw [hrun] at h
    cases h
  · rw [hrun] at h
    cases h
    exact .inl rfl
  · rw [hrun] at h
    cases h
    exact .inr ⟨_, rfl⟩

theorem read_permissive_eq (text : String) :
    read .permissive text = ofPieces .permissive (Piece.scan text) := by
  rw [read]
  cases ofPieces .permissive (Piece.scan text) with
  | error err => rfl
  | ok c => rfl

/-- The reading goes on behind the text iff no piece of it is refused. -/
theorem continues_iff (before : List Char) : Continues before ↔
    ∃ g, (Piece.scanFrom 0 before).foldlM (Groups.step .permissive) .start = .ok g := by
  rw [Continues, read_permissive_eq, ofPieces, Piece.scan, String.toList_ofList]
  cases hrun : (Piece.scanFrom 0 before).foldlM (Groups.step .permissive) .start with
  | error err =>
    refine iff_of_false ?_ ?_
    · rintro (⟨c, h⟩ | ⟨depth, h⟩)
      · cases h
      · obtain rfl : err = .unclosedParen depth := Except.error.inj h
        rcases error_of_run hrun with herr | ⟨_, herr⟩
        · cases herr
        · cases herr
    · rintro ⟨g, h⟩
      cases h
  | ok g =>
    refine iff_of_true ?_ ⟨g, rfl⟩
    show (∃ c, g.finish = .ok c) ∨ ∃ depth, g.finish = .error (.unclosedParen depth)
    rw [Groups.finish]
    split
    · exact .inl ⟨_, rfl⟩
    · exact .inr ⟨_, rfl⟩

/-! ## The readings -/

/-- With noise in the text a strict reading ends there, unless it has ended before. -/
theorem read_strict_of_firstNoise (h : FirstNoise text.toList before c) :
    (∃ g, (Piece.scanFrom 0 before).foldlM (Groups.step .permissive) .start = .ok g) ∧
        read .strict text = .error (noiseError before c) ∨
      ∃ err, (Piece.scanFrom 0 before).foldlM (Groups.step .permissive) .start = .error err ∧
        ∀ mode, read mode text = .error err := by
  obtain ⟨⟨behind, hcs⟩, hclear, hnoise⟩ := h
  have hback : isNoise (before.reverse ++ []) c = true := by rwa [List.append_nil]
  have hscan : Piece.scan text =
      Piece.scanFrom 0 before ++ Piece.scanFrom (0 + byteLength before) (c :: behind) := by
    rw [Piece.scan, hcs]
    exact Piece.scanFrom_noise (.start _) hclear hback 0
  have hbelongs := Piece.belongs_of_clear (.start _) hclear 0
  have hread (mode : Mode) : read mode text =
      ((((Piece.scanFrom 0 before).foldlM (Groups.step .permissive) .start >>=
        (Piece.scanFrom (0 + byteLength before) (c :: behind)).foldlM (Groups.step mode)) >>=
          Groups.finish) >>= fun c =>
            if mode = .strict ∧ c.isEmpty = true then .error .empty else .ok c) := by
    rw [read, ofPieces, hscan, List.foldlM_append, run_of_belongs hbelongs]
  cases hrun : (Piece.scanFrom 0 before).foldlM (Groups.step .permissive) .start with
  | error err =>
    refine .inr ⟨err, rfl, fun mode => ?_⟩
    rw [hread, hrun]
    rfl
  | ok g =>
    refine .inl ⟨⟨g, rfl⟩, ?_⟩
    obtain ⟨hb, -⟩ := Piece.not_of_isNoise hnoise
    rw [hread, hrun, Piece.scanFrom, hb, if_neg Bool.false_ne_true, Piece.munch_noise hnoise,
      noiseError, Nat.zero_add]
    split
    · rfl
    · rfl

/-- Without noise the modes agree, but for a formula without elements. -/
theorem read_of_clear (h : clear [] text.toList = true) : LacksElements text ∨ Agrees text := by
  have hbelongs := Piece.belongs_of_clear (.start _) h 0
  have hstrict : read .strict text = read .permissive text >>= fun c =>
      if c.isEmpty = true then .error .empty else .ok c := by
    rw [read_permissive_eq, read, ofPieces, Piece.scan, run_of_belongs hbelongs]
    simp only [true_and]
    rfl
  rcases read_permissive text with
    hread | ⟨-, c, hread⟩ | ⟨depth, -, hread⟩ | ⟨before, -, hread⟩
  · exact .inr ⟨by rw [hstrict, hread]; rfl, .inr (.inr (.inr hread))⟩
  · rw [Except.bind_of_ok hread] at hstrict
    by_cases hempty : c.isEmpty = true
    · rw [if_pos hempty] at hstrict
      rw [Composition.eq_empty hempty] at hread
      exact .inl ⟨hstrict, hread⟩
    · rw [if_neg hempty] at hstrict
      exact .inr ⟨hstrict.trans hread.symm, .inl ⟨c, hread⟩⟩
  · exact .inr ⟨by rw [hstrict, hread]; rfl, .inr (.inr (.inl ⟨_, hread⟩))⟩
  · exact .inr ⟨by rw [hstrict, hread]; rfl, .inr (.inl ⟨_, hread⟩)⟩

/-- What stops a reading before the noise stops it in both modes. -/
theorem agrees_of_run {offset : Nat} {cs : List Char} {err : Error}
    (hrun : (Piece.scanFrom offset cs).foldlM (Groups.step .permissive) .start = .error err)
    (hread : ∀ mode, read mode text = .error err) : Agrees text := by
  refine ⟨by rw [hread, hread], ?_⟩
  rw [hread]
  rcases error_of_run hrun with rfl | ⟨offset, rfl⟩
  · exact .inr (.inr (.inr rfl))
  · exact .inr (.inl ⟨offset, rfl⟩)

/-! ## One outcome, and no other -/

theorem LacksElements.not_agrees (h : LacksElements text) : ¬ Agrees text := by
  rintro ⟨heq, -⟩
  rw [h.1, h.2] at heq
  cases heq

theorem StopsAtNoise.not_lacksElements (h : StopsAtNoise text) : ¬ LacksElements text := by
  obtain ⟨before, c, -, hread⟩ := h
  rintro ⟨hstrict, -⟩
  rw [hread, noiseError] at hstrict
  split at hstrict
  · cases hstrict
  · cases hstrict

theorem StopsAtNoise.not_agrees (h : StopsAtNoise text) : ¬ Agrees text := by
  obtain ⟨before, c, -, hread⟩ := h
  rintro ⟨heq, hkind⟩
  rw [hread, noiseError] at heq
  rw [← heq] at hkind
  rcases hkind with ⟨c', h⟩ | ⟨offset, h⟩ | ⟨depth, h⟩ | h
  · cases h
  all_goals
    split at h
    · cases h
    · cases h

/-- Some outcome there is. -/
theorem stops_or_lacks_or_agrees (text : String) :
    StopsAtNoise text ∨ LacksElements text ∨ Agrees text := by
  rcases clear_or_firstNoise text.toList with hclear | ⟨before, c, hfirst⟩
  · exact .inr (read_of_clear hclear)
  · rcases read_strict_of_firstNoise hfirst with ⟨-, hread⟩ | ⟨err, hrun, hread⟩
    · exact .inl ⟨before, c, hfirst, hread⟩
    · exact .inr (.inr (agrees_of_run hrun hread))

/-- A strict reading ends at the first noise iff it comes there. -/
theorem stopsAtNoise_iff (text : String) :
    StopsAtNoise text ↔ ∃ before c, FirstNoise text.toList before c ∧ Continues before := by
  constructor
  · intro hstop
    have hnot := hstop.not_agrees
    obtain ⟨before, c, hfirst, -⟩ := hstop
    refine ⟨before, c, hfirst, (continues_iff before).mpr ?_⟩
    rcases read_strict_of_firstNoise hfirst with ⟨hrun, -⟩ | ⟨err, hrun, hread⟩
    · exact hrun
    · exact absurd (agrees_of_run hrun hread) hnot
  · rintro ⟨before, c, hfirst, hgo⟩
    obtain ⟨g, hg⟩ := (continues_iff before).mp hgo
    rcases read_strict_of_firstNoise hfirst with ⟨-, hread⟩ | ⟨err, hrun, -⟩
    · exact ⟨before, c, hfirst, hread⟩
    · rw [hg] at hrun
      cases hrun

/-- **A strict reading restricts a permissive one.** It ends at the first noise, which it names by
its kind and its offset, or it refuses a formula without elements that is read as empty otherwise,
or it has the outcome of the permissive reading; and it does only one of these. It ends at the noise
iff nothing before the noise is at fault. -/
theorem read_strict (text : String) :
    (StopsAtNoise text ∧ ¬ LacksElements text ∧ ¬ Agrees text ∨
      ¬ StopsAtNoise text ∧ LacksElements text ∧ ¬ Agrees text ∨
      ¬ StopsAtNoise text ∧ ¬ LacksElements text ∧ Agrees text) ∧
    (StopsAtNoise text ↔ ∃ before c, FirstNoise text.toList before c ∧ Continues before) ∧
    ∀ c, read .strict text = .ok c → read .permissive text = .ok c := by
  refine ⟨?_, stopsAtNoise_iff text, fun c hread => ?_⟩
  · rcases stops_or_lacks_or_agrees text with h | h | h
    · exact .inl ⟨h, h.not_lacksElements, h.not_agrees⟩
    · exact .inr (.inl ⟨fun hs => hs.not_lacksElements h, h, h.not_agrees⟩)
    · exact .inr (.inr ⟨fun hs => hs.not_agrees h, fun hl => hl.not_agrees h, h⟩)
  · rcases stops_or_lacks_or_agrees text with ⟨_, _, -, h⟩ | ⟨h, -⟩ | ⟨h, -⟩
    · rw [hread] at h
      cases h
    · rw [hread] at h
      cases h
    · exact h.symm.trans hread

/-- The digit belongs to no count, since the one before it has ended; the parenthesis behind it is
not looked at. -/
example : read .strict "H2 3)" = .error (.strayCount 3) := by decide +kernel

end Formula

end Abacus.Matter
