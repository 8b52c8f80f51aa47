import Abacus.Proofs.Matter.Grouping

/-!
# What is wrong with the parentheses of a formula

A run keeps one composition for every group that is open, so the number of open groups is the
number of parentheses opened and not yet closed. No other piece of a formula holds a parenthesis,
whatever characters it is made of, and so none is passed over.

* `Overcloses`: some beginning of the text closes more groups than it opens.
* `ClosesAt`: the first parenthesis that does so stands behind such a text. Its offset is the number
  of bytes before it.
* `Piece.depthAfter?`: what a piece does to the number of open groups, none if it closes one too
  many.

The verdict is on the number of parentheses alone. Of what stands between them only the counts
matter, since a count that overflows ends the reading before a later fault is met.

Results:
* `openAfter?_eq_some_iff`: groups are counted right iff no beginning of the text closes too many.
* `Formula.Groups.depth_step`: what one piece does to the number of open groups.
* `Formula.depth_run`, `Formula.run_permissive`: what a run over a text comes to.
* `Formula.read_parentheses`: the verdict on the parentheses of a formula. In either mode unbalanced
  ones are a fault of the text; in the permissive mode the fault and its place are known.

In the strict mode the noise before a parenthesis is reported first (`Proofs/Matter/Strictness`).
-/

namespace Abacus.Matter

/-! ## Counting parentheses -/

/-- Some beginning of the text closes more groups than it opens. -/
def Overcloses (cs : List Char) : Prop := ∃ p, p <+: cs ∧ p.count '(' < p.count ')'

theorem not_overcloses_iff {cs : List Char} :
    ¬ Overcloses cs ↔ ∀ p, p <+: cs → p.count ')' ≤ p.count '(' := by
  simp only [Overcloses, not_exists, not_and, Nat.not_lt]

theorem forall_prefix_cons {P : List Char → Prop} {c : Char} {cs : List Char} :
    (∀ p, p <+: c :: cs → P p) ↔ P [] ∧ ∀ p, p <+: cs → P (c :: p) := by
  constructor
  · intro h
    exact ⟨h [] List.nil_prefix, fun p hp => h _ (List.cons_prefix_cons.mpr ⟨rfl, hp⟩)⟩
  · rintro ⟨hnil, hcons⟩ p hp
    rcases List.prefix_cons_iff.mp hp with rfl | ⟨q, rfl, hq⟩
    · exact hnil
    · exact hcons q hq

/-- **Open groups are counted by their parentheses**, unless some beginning of the text closes
more groups than are open. -/
theorem openAfter?_eq_some_iff {d k : Nat} {cs : List Char} :
    openAfter? d cs = some k ↔
      (∀ p, p <+: cs → p.count ')' ≤ d + p.count '(') ∧
        k + cs.count ')' = d + cs.count '(' := by
  induction cs generalizing d with
  | nil => simp [openAfter?, eq_comm]
  | cons c cs ih =>
    rw [forall_prefix_cons]
    rcases paren_cases c with rfl | rfl | ⟨ho, hc⟩
    · have hclose (p : List Char) : ('(' :: p).count ')' = p.count ')' :=
        List.count_cons_of_ne (by decide)
      simp only [openAfter?_openParen, ih, hclose, List.count_cons_self, List.count_nil,
        Nat.zero_le, true_and, Nat.add_assoc, Nat.add_comm 1]
    · have hopen (p : List Char) : (')' :: p).count '(' = p.count '(' :=
        List.count_cons_of_ne (by decide)
      cases d with
      | zero =>
        have hnone : openAfter? 0 (')' :: cs) = none := rfl
        rw [hnone]
        constructor
        · intro h
          cases h
        · rintro ⟨⟨-, hp⟩, -⟩
          have hfirst := hp [] List.nil_prefix
          rw [hopen, List.count_cons_self, List.count_nil, List.count_nil] at hfirst
          exact absurd hfirst (by decide)
      | succ d =>
        simp only [openAfter?_closeParen, ih, hopen, List.count_cons_self, List.count_nil,
          Nat.zero_le, true_and, Nat.add_right_comm d 1, Nat.succ_le_succ_iff, ← Nat.add_assoc,
          Nat.succ.injEq]
    · have hopen (p : List Char) : (c :: p).count '(' = p.count '(' := List.count_cons_of_ne ho
      have hclose (p : List Char) : (c :: p).count ')' = p.count ')' := List.count_cons_of_ne hc
      simp only [openAfter?_cons ho hc, ih, hopen, hclose, List.count_nil, Nat.zero_le, true_and]

theorem balanced_iff {cs : List Char} :
    Balanced cs ↔ ¬ Overcloses cs ∧ cs.count '(' = cs.count ')' := by
  rw [Balanced, openAfter?_eq_some_iff, not_overcloses_iff]
  simp [eq_comm]

/-! ## The first parenthesis too many -/

/-- The text ends in the first closing parenthesis that is one too many. -/
def ClosesAt (before cs : List Char) : Prop :=
  (∃ behind, cs = before ++ ')' :: behind) ∧ ¬ Overcloses before ∧ Overcloses (before ++ [')'])

theorem overcloses_extended {p cs : List Char} (h : Overcloses p) (hp : p <+: cs) :
    Overcloses cs := by
  obtain ⟨q, hq, hcount⟩ := h
  exact ⟨q, hq.trans hp, hcount⟩

theorem closesAt_of_balanced {before behind : List Char} (h : Balanced before) :
    ClosesAt before (before ++ ')' :: behind) := by
  obtain ⟨hover, hcount⟩ := balanced_iff.mp h
  refine ⟨⟨behind, rfl⟩, hover, before ++ [')'], List.prefix_rfl, ?_⟩
  simp [hcount]

theorem ClosesAt.overcloses {before cs : List Char} (h : ClosesAt before cs) : Overcloses cs := by
  obtain ⟨⟨behind, rfl⟩, -, hover⟩ := h
  exact overcloses_extended hover ⟨behind, List.append_assoc _ _ _⟩

/-- Only one parenthesis is the first too many. -/
theorem ClosesAt.unique {before before' cs : List Char} (h : ClosesAt before cs)
    (h' : ClosesAt before' cs) : before = before' := by
  have shorter {a b : List Char} (ha : ClosesAt a cs) (hb : ClosesAt b cs)
      (hlt : a.length < b.length) : False := by
    obtain ⟨⟨x, hx⟩, -, hover⟩ := ha
    obtain ⟨⟨y, hy⟩, hnot, -⟩ := hb
    have hpa : a ++ [')'] <+: cs := ⟨x, by rw [hx, List.append_assoc]; rfl⟩
    have hpb : b <+: cs := ⟨_, hy.symm⟩
    refine hnot (overcloses_extended hover (List.prefix_of_prefix_length_le hpa hpb ?_))
    rwa [List.length_append]
  have hbegins : before <+: before' ∨ before' <+: before := by
    obtain ⟨⟨x, hx⟩, -⟩ := h
    obtain ⟨⟨y, hy⟩, -⟩ := h'
    exact List.prefix_or_prefix_of_prefix ⟨_, hx.symm⟩ ⟨_, hy.symm⟩
  rcases Nat.lt_trichotomy before.length before'.length with hlt | heq | hlt
  · exact (shorter h h' hlt).elim
  · rcases hbegins with hp | hp
    · exact hp.eq_of_length heq
    · exact (hp.eq_of_length heq.symm).symm
  · exact (shorter h' h hlt).elim

/-! ## Pieces -/

/-- How many groups are open behind a piece. -/
def Piece.depthAfter? : Piece → Nat → Option Nat
  | .openParen, d => some (d + 1)
  | .closeParen _, 0 => none
  | .closeParen _, d + 1 => some d
  | .atoms .., d | .strayCount _, d | .noise _, d => some d

namespace Piece

theorem depthAfter?_of_ne {c : Char} (ho : c ≠ '(') (hc : c ≠ ')') (d : Nat) (cs : List Char) :
    (munch c cs).1.depthAfter? d = some d := by
  rw [munch, if_neg ho, if_neg hc]
  split
  · rfl
  · split
    · rfl
    · rfl

/-- A piece opens and closes what its first character does. -/
theorem openAfter?_munch (d : Nat) (c : Char) (cs : List Char) {w rest : List Char}
    (hw : ∀ x ∈ w, inert x = true) :
    openAfter? d (c :: (w ++ rest)) =
      ((munch c cs).1.depthAfter? d).bind fun k => openAfter? k rest := by
  have hskip (k : Nat) : openAfter? k (w ++ rest) = openAfter? k rest := by
    refine skip_inert (fun x xs hx => ?_) hw rest
    obtain ⟨ho, hc, -⟩ := inert_iff.mp hx
    exact openAfter?_cons ho hc k xs
  rcases paren_cases c with rfl | rfl | ⟨ho, hc⟩
  · rw [openAfter?_openParen, hskip]
    rfl
  · cases d with
    | zero => rfl
    | succ d =>
      rw [openAfter?_closeParen, hskip]
      rfl
  · rw [openAfter?_cons ho hc, hskip, depthAfter?_of_ne ho hc]
    rfl

theorem eq_closeParen_of_munch {c : Char} {cs : List Char} {m : Nat}
    (h : (munch c cs).1 = .closeParen m) : c = ')' := by
  rcases paren_cases c with rfl | rfl | ⟨ho, hc⟩
  · cases h
  · rfl
  · have hdepth := depthAfter?_of_ne ho hc 0 cs
    rw [h] at hdepth
    cases hdepth

/-- The spelling of a piece is its first character and inert ones. -/
theorem exists_spelling (c : Char) (cs : List Char) :
    ∃ w, (∀ x ∈ w, inert x = true) ∧ cs = w ++ (munch c cs).2.2 ∧ (munch c cs).2.1 = c :: w := by
  obtain ⟨w, hw, hcs⟩ := exists_inert_munch c cs
  have happend : (munch c cs).2.1 ++ (munch c cs).2.2 = (c :: w) ++ (munch c cs).2.2 := by
    rw [munch_append, List.cons_append, ← hcs]
  exact ⟨w, hw, hcs, List.append_cancel_right happend⟩

end Piece

/-! ## Runs -/

namespace Formula

variable {mode : Mode} {g g' : Groups}

/-- **What one piece does to the number of open groups.** -/
theorem Groups.depth_step {p : Placed} (h : g.step mode p = .ok g') :
    p.piece.depthAfter? g.around.length = some g'.around.length := by
  obtain ⟨piece, offset⟩ := p
  cases Groups.step_eq_ok_iff.mp h with
  | atoms | openParen | strayCount | noise => rfl
  | closeParen ho hm h =>
    rw [ho]
    rfl

/-- Where pieces are skipped, one is refused only for a count or for a parenthesis. -/
theorem Groups.step_permissive (g : Groups) (p : Placed) :
    (∃ g', g.step .permissive p = .ok g') ∨ g.step .permissive p = .error .countOverflow ∨
      (∃ m, p.piece = .closeParen m) ∧ g.around = [] ∧
        g.step .permissive p = .error (.unmatchedClosingParen p.offset) := by
  obtain ⟨piece, offset⟩ := p
  obtain ⟨inner, around⟩ := g
  unfold Groups.step
  cases piece with
  | atoms symbol count =>
    dsimp only
    cases inner.add? symbol count with
    | none => exact .inr (.inl rfl)
    | some c => exact .inl ⟨_, rfl⟩
  | openParen => exact .inl ⟨_, rfl⟩
  | closeParen m =>
    cases around with
    | nil => exact .inr (.inr ⟨⟨m, rfl⟩, rfl, rfl⟩)
    | cons outer around =>
      dsimp only
      split
      · exact .inr (.inl rfl)
      · cases outer.merge? inner m with
        | none => exact .inr (.inl rfl)
        | some c => exact .inl ⟨_, rfl⟩
  | strayCount value =>
    dsimp only
    split
    · exact .inr (.inl rfl)
    · exact .inl ⟨_, rfl⟩
  | noise char => exact .inl ⟨_, rfl⟩

/-- **The open groups of a run are those of the text.** -/
theorem depth_run {g g' : Groups} {cs : List Char} {offset : Nat}
    (h : (Piece.scanFrom offset cs).foldlM (Groups.step mode) g = .ok g') :
    openAfter? g.around.length cs = some g'.around.length := by
  match cs with
  | [] =>
    rw [Piece.scanFrom] at h
    cases h
    rfl
  | c :: cs =>
    rw [Piece.scanFrom] at h
    by_cases hb : isBlank c = true
    · rw [if_pos hb] at h
      obtain ⟨ho, hc, -⟩ := inert_iff.mp (inert_of_isBlank hb)
      rw [openAfter?_cons ho hc]
      exact depth_run h
    · rw [if_neg hb, List.foldlM_cons] at h
      obtain ⟨g₁, hstep, h⟩ := Except.bind_eq_ok.mp h
      obtain ⟨w, hw, hcs, -⟩ := Piece.exists_spelling c cs
      conv_lhs => rw [hcs, Piece.openAfter?_munch _ c cs hw]
      rw [Groups.depth_step hstep]
      exact depth_run h
termination_by cs.length
decreasing_by
  · exact Nat.lt_succ_self _
  · exact Piece.munch_shorter c cs

/-- **Where pieces are skipped, a run is refused only for a count or for the first parenthesis
that closes no group.** -/
theorem run_permissive (g : Groups) (offset : Nat) (cs : List Char) :
    (∃ g', (Piece.scanFrom offset cs).foldlM (Groups.step .permissive) g = .ok g') ∨
    (Piece.scanFrom offset cs).foldlM (Groups.step .permissive) g = .error .countOverflow ∨
    ∃ before behind, cs = before ++ ')' :: behind ∧
      openAfter? g.around.length before = some 0 ∧
      (Piece.scanFrom offset cs).foldlM (Groups.step .permissive) g =
        .error (.unmatchedClosingParen (offset + byteLength before)) := by
  match cs with
  | [] =>
    rw [Piece.scanFrom]
    exact .inl ⟨g, rfl⟩
  | c :: cs =>
    rw [Piece.scanFrom]
    by_cases hb : isBlank c = true
    · rw [if_pos hb]
      refine (run_permissive g _ cs).imp_right (Or.imp_right ?_)
      rintro ⟨before, behind, rfl, hopen, hrun⟩
      obtain ⟨ho, hc, -⟩ := inert_iff.mp (inert_of_isBlank hb)
      refine ⟨c :: before, behind, rfl, (openAfter?_cons ho hc _ _).trans hopen, ?_⟩
      rw [hrun, byteLength_cons, Nat.add_assoc]
    · rw [if_neg hb]
      obtain ⟨w, hw, hcs, hspell⟩ := Piece.exists_spelling c cs
      rcases g.step_permissive ⟨(Piece.munch c cs).1, offset⟩ with
        ⟨g₁, hstep⟩ | herr | ⟨⟨m, hclose⟩, haround, herr⟩
      · rw [List.foldlM_cons, Except.bind_of_ok hstep]
        refine (run_permissive g₁ _ (Piece.munch c cs).2.2).imp_right (Or.imp_right ?_)
        rintro ⟨before, behind, hrest, hopen, hrun⟩
        refine ⟨c :: (w ++ before), behind, ?_, ?_, ?_⟩
        · conv_lhs => rw [hcs, hrest]
          rw [List.cons_append, List.append_assoc]
        · rw [Piece.openAfter?_munch _ c cs hw, Groups.depth_step hstep]
          exact hopen
        · rw [hrun, hspell, ← List.cons_append, byteLength_append, Nat.add_assoc]
      · refine .inr (.inl ?_)
        rw [List.foldlM_cons, herr]
        rfl
      · refine .inr (.inr ⟨[], cs, ?_, by rw [haround]; rfl, ?_⟩)
        · rw [Piece.eq_closeParen_of_munch hclose]
          rfl
        · rw [List.foldlM_cons, herr]
          rfl
termination_by cs.length
decreasing_by
  · exact Nat.lt_succ_self _
  · exact Piece.munch_shorter c cs

/-! ## A whole formula -/

variable {text : String}

/-- A formula that is read has balanced parentheses. -/
theorem balanced_of_read {c : Composition} (h : read mode text = .ok c) :
    Balanced text.toList := by
  obtain ⟨g, hg, haround, -⟩ := ofPieces_eq_ok (ofPieces_of_read h)
  have hdepth := depth_run hg
  rw [haround] at hdepth
  exact hdepth

theorem isSyntax_of_counted {o : Option Composition} {err : Error} (h : counted o = .error err) :
    err.isSyntax = true := by
  cases o with
  | none =>
    cases h
    rfl
  | some c => cases h

theorem Groups.isSyntax_of_step {p : Placed} {err : Error} (h : g.step mode p = .error err) :
    err.isSyntax = true := by
  obtain ⟨piece, offset⟩ := p
  obtain ⟨inner, around⟩ := g
  unfold Groups.step at h
  cases piece with
  | atoms symbol count =>
    rcases Except.bind_eq_error.mp h with h | ⟨c, -, h⟩
    · exact isSyntax_of_counted h
    · cases h
  | openParen => cases h
  | closeParen m =>
    cases around with
    | nil =>
      cases h
      rfl
    | cons outer around =>
      dsimp only at h
      split at h
      · cases h
        rfl
      · rcases Except.bind_eq_error.mp h with h | ⟨c, -, h⟩
        · exact isSyntax_of_counted h
        · cases h
  | strayCount value =>
    cases mode with
    | strict =>
      cases h
      rfl
    | permissive =>
      dsimp only at h
      split at h
      · cases h
        rfl
      · cases h
  | noise char =>
    cases mode with
    | strict =>
      cases h
      rfl
    | permissive => cases h

theorem isSyntax_of_run {ps : List Placed} {g : Groups} {err : Error}
    (h : ps.foldlM (Groups.step mode) g = .error err) : err.isSyntax = true := by
  induction ps generalizing g with
  | nil => cases h
  | cons p ps ih =>
    rw [List.foldlM_cons] at h
    rcases Except.bind_eq_error.mp h with h | ⟨g₁, -, h⟩
    · exact Groups.isSyntax_of_step h
    · exact ih h

/-- The text itself is at fault in every error of the reading. -/
theorem isSyntax_of_read {err : Error} (h : read mode text = .error err) :
    err.isSyntax = true := by
  rcases Except.bind_eq_error.mp h with h | ⟨c, -, h⟩
  · rcases Except.bind_eq_error.mp h with h | ⟨g, -, h⟩
    · exact isSyntax_of_run h
    · rw [Groups.finish] at h
      split at h
      · cases h
      · cases h
        rfl
  · split at h
    · cases h
      rfl
    · cases h

/-- Where pieces are skipped, the outcome is decided by the counts and the parentheses. -/
theorem read_permissive (text : String) :
    read .permissive text = .error .countOverflow ∨
    (Balanced text.toList ∧ ∃ c, read .permissive text = .ok c) ∨
    (∃ depth, openAfter? 0 text.toList = some (depth + 1) ∧
      read .permissive text = .error (.unclosedParen (depth + 1))) ∨
    ∃ before, ClosesAt before text.toList ∧
      read .permissive text = .error (.unmatchedClosingParen (byteLength before)) := by
  rcases run_permissive .start 0 text.toList with
      ⟨g, hg⟩ | herr | ⟨before, behind, hcs, hopen, herr⟩
  · have hdepth := depth_run hg
    have hfinish : read .permissive text = g.finish >>= .ok := by
      have hpieces : ofPieces .permissive (Piece.scan text) = g.finish := Except.bind_of_ok hg _
      rw [read, hpieces]
      rfl
    rw [hfinish, Groups.finish]
    cases haround : g.around with
    | nil =>
      rw [haround] at hdepth
      exact .inr (.inl ⟨hdepth, g.inner, rfl⟩)
    | cons outer around =>
      rw [haround] at hdepth
      exact .inr (.inr (.inl ⟨around.length, hdepth, rfl⟩))
  · refine .inl ?_
    rw [read, ofPieces, Piece.scan, herr]
    rfl
  · refine .inr (.inr (.inr ⟨before, ?_, ?_⟩))
    · rw [hcs]
      exact closesAt_of_balanced hopen
    · rw [read, ofPieces, Piece.scan, herr, Nat.zero_add]
      rfl

/-- **The verdict on the parentheses of a formula.** A formula whose parentheses are not balanced
is never read. Where what belongs to no formula is skipped, and no count is too large, the first
closing parenthesis too many is reported where it stands; otherwise so many groups as are left
open; and otherwise the formula is read. -/
theorem read_parentheses (text : String) :
    (∀ mode, Overcloses text.toList ∨ text.toList.count '(' ≠ text.toList.count ')' →
      ∃ err, read mode text = .error err ∧ err.isSyntax = true) ∧
    (read .permissive text ≠ .error .countOverflow →
      ((∃ offset, read .permissive text = .error (.unmatchedClosingParen offset)) ↔
        Overcloses text.toList) ∧
      (∀ offset, read .permissive text = .error (.unmatchedClosingParen offset) ↔
        ∃ before, ClosesAt before text.toList ∧ offset = byteLength before) ∧
      (∀ depth, read .permissive text = .error (.unclosedParen depth) ↔
        ¬ Overcloses text.toList ∧ 0 < depth ∧
          text.toList.count '(' = text.toList.count ')' + depth) ∧
      (¬ Overcloses text.toList → text.toList.count '(' = text.toList.count ')' →
        ∃ c, read .permissive text = .ok c)) := by
  constructor
  · intro mode hparens
    cases hread : read mode text with
    | error err => exact ⟨err, rfl, isSyntax_of_read hread⟩
    | ok c =>
      obtain ⟨hover, hcount⟩ := balanced_iff.mp (balanced_of_read hread)
      exact absurd hcount (hparens.resolve_left hover)
  · intro hcounted
    rcases read_permissive text with
      hread | ⟨hbalanced, c, hread⟩ | ⟨k, hopen, hread⟩ | ⟨before, hat, hread⟩
    · exact absurd hread hcounted
    · obtain ⟨hover, hcount⟩ := balanced_iff.mp hbalanced
      have hat (before : List Char) : ¬ ClosesAt before text.toList :=
        fun h => hover h.overcloses
      refine ⟨by simp [hread, hover], fun offset => by simp [hread, hat], fun depth => ?_,
        fun _ _ => ⟨c, hread⟩⟩
      rw [hread, hcount]
      exact ⟨nofun, fun ⟨_, hpos, h⟩ => absurd h (by omega)⟩
    · rw [openAfter?_eq_some_iff] at hopen
      obtain ⟨hbegins, hcount⟩ := hopen
      have hover : ¬ Overcloses text.toList :=
        not_overcloses_iff.mpr fun p hp => by simpa using hbegins p hp
      have hat (before : List Char) : ¬ ClosesAt before text.toList :=
        fun h => hover h.overcloses
      refine ⟨by simp [hread, hover], fun offset => by simp [hread, hat], fun depth => ?_,
        fun _ h => absurd h (by omega)⟩
      rw [hread, Except.error.injEq, Error.unclosedParen.injEq]
      exact ⟨fun h => ⟨hover, by omega, by omega⟩, fun ⟨_, _, h⟩ => by omega⟩
    · have hover := hat.overcloses
      have hunique (offset : Nat) : (∃ before, ClosesAt before text.toList ∧
          offset = byteLength before) ↔ byteLength before = offset := by
        constructor
        · rintro ⟨before', hat', rfl⟩
          rw [hat.unique hat']
        · rintro rfl
          exact ⟨before, hat, rfl⟩
      refine ⟨by simp [hread, hover], fun offset => by simp [hread, hunique], fun depth => ?_,
        fun h => absurd hover h⟩
      rw [hread]
      exact ⟨nofun, fun h => absurd hover h.1⟩

/-- The second closing parenthesis is one too many, whatever follows it; the letter before it takes
two bytes. -/
theorem read_parentheses_accented :
    (∃ err, read .strict "(é)H)2(" = .error err ∧ err.isSyntax = true) ∧
      read .permissive "(é)H)2(" = .error (.unmatchedClosingParen 5) := by
  have hat : ClosesAt "(é)H".toList "(é)H)2(".toList := by
    exact @closesAt_of_balanced _ "2(".toList (by decide)
  have hcounted : read .permissive "(é)H)2(" ≠ .error .countOverflow := by decide +kernel
  obtain ⟨hall, hpermissive⟩ := read_parentheses "(é)H)2("
  refine ⟨hall .strict (.inl hat.overcloses), ?_⟩
  exact ((hpermissive hcounted).2.1 5).mpr ⟨_, hat, rfl⟩

end Formula

end Abacus.Matter
