import Abacus.Proofs.Matter.Grouping

/-!
# When counting overflows

Counts are added one by one and group by group, and a run that passes the bound anywhere is
refused. Partial sums only grow, so it is refused exactly if some number in the text, or what some
element comes to in some group or in the whole formula, passes the bound. This holds for a group
that is taken no times as well: it is counted before it is multiplied.

* `Overflows`: the condition on the text, with exact sums (`total`) over its groups (`groups`) and
  numbers (`numbers`).
* `Fits`: that it does not, where the text is counted on top of something.
* `Piece.Belongs`, `Piece.Tolerated`: the piece is part of the formula, or at least gives no error
  by itself in the mode.
* `OverflowsUnless`: a run succeeds with such a result if a condition holds, and is refused for its
  counts otherwise. It goes through runs in sequence (`OverflowsUnless.bind`), so the condition of a
  text is put together along the text.

The induction is along the nesting of the text (`Nested`): a group is a run of its own on an empty
composition, followed by one merge.

Results:
* `Composition.exists_merge?`: a group is merged iff no element passes the bound.
* `run_overflowsUnless`: what a run over a text with balanced parentheses needs, and what it adds.
* `Formula.read_overflows`: the result of reading such a formula, if nothing in it is skipped.

Where parts of the text are skipped, numbers among them count as well (`Proofs/Matter/Skipping`).
-/

namespace Abacus.Matter

/-! ## Additions within the bound -/

namespace Composition

variable {c group : Composition} {symbol : String} {n times : Nat}

theorem amount_le (c : Composition) (s : String) : c.amount s ≤ maxCount := by
  by_cases hs : s ∈ c.symbols
  · refine c.bounded (s, c.amount s) ?_
    rw [c.entries_eq]
    exact List.mem_map_of_mem hs
  · rw [amount, c.count?_eq, if_neg hs]
    exact Nat.zero_le maxCount

theorem exists_add? : (∃ d, c.add? symbol n = some d) ↔ c.amount symbol + n ≤ maxCount := by
  rw [← Option.isSome_iff_exists, Option.isSome_iff_ne_none, ne_eq, add?_eq_none_iff, Nat.not_lt]
  rfl

theorem exists_foldlM_add? {entries : List (String × Nat)}
    (h : ∀ s, c.amount s + amountIn s entries * times ≤ maxCount) :
    ∃ d, entries.foldlM (fun c e => c.add? e.1 (e.2 * times)) c = some d := by
  induction entries generalizing c with
  | nil => exact ⟨c, rfl⟩
  | cons e entries ih =>
    have hfirst : c.amount e.1 + e.2 * times ≤ maxCount := by
      have := h e.1
      rw [amountIn_cons, if_pos rfl, Nat.add_mul] at this
      omega
    obtain ⟨d, hd⟩ := exists_add?.mpr hfirst
    have hothers (s : String) : d.amount s + amountIn s entries * times ≤ maxCount := by
      have := h s
      rw [amountIn_cons, Nat.add_mul] at this
      rw [amount_add? hd]
      split
      · rename_i hs
        rw [if_pos hs] at this
        omega
      · rename_i hs
        rw [if_neg hs] at this
        omega
    obtain ⟨d', hd'⟩ := ih hothers
    exact ⟨d', by rw [List.foldlM_cons, hd]; exact hd'⟩

/-- **A group is merged iff no element passes the bound.** -/
theorem exists_merge? : (∃ d, c.merge? group times = some d) ↔
    ∀ s, c.amount s + group.amount s * times ≤ maxCount := by
  constructor
  · rintro ⟨d, hd⟩ s
    rw [← amount_merge? hd]
    exact d.amount_le s
  · intro h
    exact exists_foldlM_add? fun s => by rw [amountIn_entries]; exact h s

end Composition

/-! ## Runs that may overflow -/

open Formula

variable {mode : Mode}

/-- The run gives such a result if the condition holds, and overflows otherwise. -/
def OverflowsUnless {α : Type} (fits : Prop) (run : Except Error α) (result : α → Prop) : Prop :=
  (fits ∧ ∃ a, run = .ok a ∧ result a) ∨ (¬ fits ∧ run = .error .countOverflow)

namespace OverflowsUnless

variable {α β : Type} {p q : Prop} {run : Except Error α} {next : α → Except Error β}
  {r : α → Prop} {r' : β → Prop}

theorem of_ok {a : α} (hp : p) (h : run = .ok a) (hr : r a) : OverflowsUnless p run r :=
  .inl ⟨hp, a, h, hr⟩

/-- In sequence both conditions are needed. -/
theorem bind (h : OverflowsUnless p run r) (h' : ∀ a, r a → OverflowsUnless q (next a) r') :
    OverflowsUnless (p ∧ q) (run >>= next) r' := by
  rcases h with ⟨hp, a, ha, hr⟩ | ⟨hp, herr⟩
  · rw [Except.bind_of_ok ha]
    rcases h' a hr with ⟨hq, hb⟩ | ⟨hq, herr⟩
    · exact .inl ⟨⟨hp, hq⟩, hb⟩
    · exact .inr ⟨fun h => hq h.2, herr⟩
  · exact .inr ⟨fun h => hp h.1, by rw [herr]; rfl⟩

theorem congr (h : OverflowsUnless p run r) (hpq : q ↔ p) : OverflowsUnless q run r := by
  rwa [OverflowsUnless, hpq]

/-- What follows and cannot fail needs nothing. -/
theorem bind_ok (h : OverflowsUnless p run r) (h' : ∀ a, r a → ∃ b, next a = .ok b ∧ r' b) :
    OverflowsUnless p (run >>= next) r' := by
  have hnext (a : α) (ha : r a) : OverflowsUnless True (next a) r' := .inl ⟨trivial, h' a ha⟩
  exact (h.bind hnext).congr (by rw [and_true])

/-- A count is refused where it would pass the bound. -/
theorem counted {o : Option Composition} (h : (∃ c, o = some c) ↔ p) :
    OverflowsUnless p (counted o) fun c => o = some c := by
  refine congr ?_ h.symm
  cases o with
  | none => exact .inr ⟨nofun, rfl⟩
  | some c => exact .inl ⟨⟨c, rfl⟩, c, rfl, rfl⟩

end OverflowsUnless

/-! ## One piece -/

/-- The second groups are the first with so many atoms more in the innermost one. -/
def Formula.Groups.Gains (g : Groups) (gain : String → Nat) (g' : Groups) : Prop :=
  g'.around = g.around ∧ ∀ s, g'.inner.amount s = g.inner.amount s + gain s

/-- The piece is part of the formula: an element or a parenthesis. -/
def Piece.Belongs : Piece → Prop
  | .atoms .. | .openParen | .closeParen _ => True
  | .strayCount _ | .noise _ => False

instance : DecidablePred Piece.Belongs
  | .atoms .. | .openParen | .closeParen _ => .isTrue trivial
  | .strayCount _ | .noise _ => .isFalse id

/-- What begins with neither a capital letter nor a parenthesis is no part of the formula. -/
theorem Piece.not_belongs_munch {c : Char} (hu : ¬ c.isUpper = true) (ho : c ≠ '(') (hc : c ≠ ')')
    (cs : List Char) : ¬ (munch c cs).1.Belongs := by
  rw [munch, if_neg hu, if_neg ho, if_neg hc]
  split
  · exact id
  · exact id

theorem Piece.munch_capital {c : Char} (hu : c.isUpper = true) (cs : List Char) :
    (munch c cs).1 =
      .atoms (String.ofList (c :: smallAt cs)) (numberAt (cs.drop (smallAt cs).length)) := by
  rw [munch, if_pos hu, munchSymbol_eq, ← countOf_munchCount]

/-- The piece is part of the formula, or is skipped. -/
def Piece.Tolerated (mode : Mode) : Piece → Prop
  | .atoms .. | .openParen | .closeParen _ => True
  | .strayCount value => mode = .permissive ∧ value ≤ maxCount
  | .noise _ => mode = .permissive

theorem Piece.Belongs.tolerated {p : Piece} (h : p.Belongs) : p.Tolerated mode := by
  cases p with
  | atoms | openParen | closeParen => trivial
  | strayCount | noise => cases h

section Steps

theorem step_atoms (g : Groups) (symbol : String) (n offset : Nat) :
    OverflowsUnless (g.inner.amount symbol + n ≤ maxCount)
      (g.step mode ⟨.atoms symbol n, offset⟩) (g.Gains fun s => if s = symbol then n else 0) :=
  (OverflowsUnless.counted Composition.exists_add?).bind_ok fun d hd =>
    ⟨⟨d, g.around⟩, rfl, rfl, Composition.amount_add? hd⟩

/-- The end of a group that holds so many atoms. -/
theorem step_closeParen (mode : Mode) (m offset : Nat) {g g' : Groups} {amounts : String → Nat}
    (hg : Groups.Gains ⟨.empty, g.inner :: g.around⟩ amounts g') :
    OverflowsUnless (m ≤ maxCount ∧ ∀ s, g.inner.amount s + amounts s * m ≤ maxCount)
      (g'.step mode ⟨.closeParen m, offset⟩) (g.Gains fun s => amounts s * m) := by
  obtain ⟨inner, around⟩ := g'
  obtain ⟨rfl, hinner⟩ := hg
  have hamounts (s : String) : inner.amount s = amounts s := by
    rw [hinner, Composition.amount_empty, Nat.zero_add]
  unfold Groups.step
  dsimp only
  by_cases hm : maxCount < m
  · rw [if_pos hm]
    exact .inr ⟨fun h => absurd h.1 (Nat.not_le.mpr hm), rfl⟩
  · rw [if_neg hm]
    have hmerge : (∃ d, g.inner.merge? inner m = some d) ↔
        m ≤ maxCount ∧ ∀ s, g.inner.amount s + amounts s * m ≤ maxCount := by
      simp only [Composition.exists_merge?, hamounts, Nat.le_of_not_lt hm, true_and]
    refine (OverflowsUnless.counted hmerge).bind_ok fun d hd => ⟨⟨d, g.around⟩, rfl, rfl, ?_⟩
    intro s
    rw [Composition.amount_merge? hd, hamounts]

theorem step_skipped {g : Groups} {p : Piece} (h : p.Tolerated mode) (hp : ¬ p.Belongs)
    (offset : Nat) : g.step mode ⟨p, offset⟩ = .ok g := by
  cases p with
  | atoms | openParen | closeParen => exact absurd trivial hp
  | strayCount value =>
    obtain ⟨rfl, hv⟩ := h
    exact if_neg (Nat.not_lt.mpr hv)
  | noise char =>
    cases h
    rfl

end Steps

/-! ## What a text needs -/

/-- No number in the text, and nothing that an element comes to in a group or in the whole text,
passes the bound, where the whole text is counted on top of a base. -/
def Fits (base : String → Nat) (cs : List Char) : Prop :=
  (∀ n ∈ numbers cs, n ≤ maxCount) ∧
  (∀ g ∈ groups cs, ∀ s, total s (occurrences g.inner) ≤ maxCount ∧
    total s (occurrences g.inner) * g.multiplier ≤ maxCount) ∧
  ∀ s, base s + total s (occurrences cs) ≤ maxCount

section Fits

variable {base : String → Nat} {c : Char} {cs inner rest : List Char}

theorem fits_inert (base : String → Nat) (h : inert c = true) (cs : List Char) :
    Fits base (c :: cs) = Fits base cs := by
  rw [Fits, numbers_inert h, groups_cons (inert_iff.mp h).1, occurrences_inert h, Fits]

theorem total_inert (h : inert c = true) (cs : List Char) :
    (fun s => total s (occurrences (c :: cs))) = fun s => total s (occurrences cs) := by
  rw [occurrences_inert h]

theorem fits_munch (base : String → Nat) (c : Char) (cs : List Char) :
    Fits base (Piece.munch c cs).2.2 = Fits base cs :=
  Piece.skip_munch (fun _ cs hc => fits_inert base hc cs) c cs

theorem total_munch (c : Char) (cs : List Char) :
    (fun s => total s (occurrences (Piece.munch c cs).2.2)) =
      fun s => total s (occurrences cs) := by
  rw [Piece.skip_munch (fun _ cs hc => occurrences_inert hc cs)]

theorem fits_nil : Fits base [] ↔ ∀ s, base s ≤ maxCount := by
  simp [Fits, numbers, groups, occurrences, total]

/-- The text begins with an element. -/
theorem total_capital (hu : c.isUpper = true) (h : Balanced cs) (s : String) :
    total s (occurrences (c :: cs)) =
      (if s = String.ofList (c :: smallAt cs) then numberAt (cs.drop (smallAt cs).length) else 0) +
        total s (occurrences cs) := by
  rw [occurrences, if_pos hu, total_cons, Occurrence.atoms, closers_eq_nil h, List.prod_nil,
    Nat.mul_one]

/-- An element needs its own count on top of the base. -/
theorem fits_capital (hu : c.isUpper = true) (h : Balanced cs) :
    Fits base (c :: cs) ↔
      base (String.ofList (c :: smallAt cs)) + numberAt (cs.drop (smallAt cs).length) ≤ maxCount ∧
      Fits (fun s => base s + if s = String.ofList (c :: smallAt cs) then
        numberAt (cs.drop (smallAt cs).length) else 0) cs := by
  have ho : c ≠ '(' := by rintro rfl; cases hu
  simp only [Fits, groups_cons ho, total_capital hu h, ← Nat.add_assoc]
  rw [numbers, if_pos hu, List.forall_mem_cons]
  constructor
  · rintro ⟨⟨-, hnumbers⟩, hgroups, htotals⟩
    -- the own count is part of the sum of its symbol
    have hown := htotals (String.ofList (c :: smallAt cs))
    rw [if_pos rfl] at hown
    exact ⟨by omega, hnumbers, hgroups, htotals⟩
  · rintro ⟨hown, hnumbers, hgroups, htotals⟩
    exact ⟨⟨by omega, hnumbers⟩, hgroups, htotals⟩

/-- A group needs its own counts, its multiplier, and its counts taken so many times on top of the
base. -/
theorem fits_group (hi : Balanced inner) (hr : Balanced rest) :
    Fits base ('(' :: (inner ++ ')' :: rest)) ↔
      (Fits (fun _ => 0) inner ∧ numberAt rest ≤ maxCount ∧
        ∀ s, base s + total s (occurrences inner) * numberAt rest ≤ maxCount) ∧
      Fits (fun s => base s + total s (occurrences inner) * numberAt rest) rest := by
  simp only [Fits, groups_group hi, numbers_group, total_group hi hr, ← Nat.add_assoc,
    Nat.zero_add, List.forall_mem_cons, List.forall_mem_append]
  constructor
  · rintro ⟨⟨hni, hm, hnr⟩, ⟨hown, hgi, hgr⟩, htotals⟩
    refine ⟨⟨⟨hni, hgi, fun s => (hown s).1⟩, hm, fun s => ?_⟩, hnr, hgr, htotals⟩
    exact Nat.le_trans (Nat.le_add_right _ _) (htotals s)
  · rintro ⟨⟨⟨hni, hgi, hown⟩, hm, htimes⟩, hnr, hgr, htotals⟩
    refine ⟨⟨hni, hm, hnr⟩, ⟨fun s => ⟨hown s, ?_⟩, hgi, hgr⟩, htotals⟩
    exact Nat.le_trans (Nat.le_add_left _ _) (htimes s)

end Fits

/-! ## A run -/

/-- A text is read behind what was added already, and needs room on top of it. -/
theorem OverflowsUnless.read_on {p : Prop} {g : Groups} {gain : String → Nat} {cs : List Char}
    {run : Except Error Groups} {next : Groups → Except Error Groups}
    (h : OverflowsUnless p run (g.Gains gain))
    (h' : ∀ g', OverflowsUnless (Fits g'.inner.amount cs) (next g')
      (g'.Gains fun s => total s (occurrences cs))) :
    OverflowsUnless (p ∧ Fits (fun s => g.inner.amount s + gain s) cs) (run >>= next)
      (g.Gains fun s => gain s + total s (occurrences cs)) := by
  refine h.bind fun g₁ ⟨haround, hamount⟩ => ?_
  have hbase : g₁.inner.amount = fun s => g.inner.amount s + gain s := funext hamount
  rcases hbase ▸ h' g₁ with ⟨hfits, g₂, hok, haround', hamount'⟩ | herr
  · refine .of_ok hfits hok ⟨haround'.trans haround, fun s => ?_⟩
    rw [hamount', hamount, Nat.add_assoc]
  · exact .inr herr

/-- **A run over a text with balanced parentheses** overflows unless the text fits on top of what
is counted already, and then adds what every element comes to in the text. -/
theorem run_overflowsUnless {cs : List Char} (h : Nested cs) (g : Groups) (offset : Nat)
    (ht : ∀ p ∈ Piece.scanFrom offset cs, p.piece.Tolerated mode) :
    OverflowsUnless (Fits g.inner.amount cs)
      ((Piece.scanFrom offset cs).foldlM (Groups.step mode) g)
      (g.Gains fun s => total s (occurrences cs)) := by
  induction h generalizing g offset with
  | nil =>
    rw [Piece.scanFrom]
    exact .of_ok (fits_nil.mpr g.inner.amount_le) rfl ⟨rfl, fun s => rfl⟩
  | @blank c cs hb h ih =>
    have hinert := inert_of_isBlank hb
    rw [Piece.scanFrom, if_pos hb] at ht ⊢
    rw [fits_inert _ hinert, total_inert hinert]
    exact ih g _ ht
  | @piece c cs hb ho hc hcs h ih =>
    rw [Piece.scanFrom, hb, if_neg Bool.false_ne_true] at ht ⊢
    obtain ⟨hfirst, hothers⟩ := List.forall_mem_cons.mp ht
    simp only [fits_munch, total_munch] at ih
    rw [List.foldlM_cons]
    by_cases hu : c.isUpper = true
    · rw [fits_capital hu hcs, funext (total_capital hu hcs), Piece.munch_capital hu]
      exact (step_atoms g _ _ offset).read_on fun g₁ => ih g₁ _ hothers
    · have hinert := inert_of (Bool.eq_false_iff.mpr hu) ho hc
      have hstep := step_skipped (g := g) hfirst (Piece.not_belongs_munch hu ho hc cs) offset
      rw [fits_inert _ hinert, total_inert hinert, Except.bind_of_ok hstep]
      exact ih g _ hothers
  | @group inner rest hinner hrest hi hr ihi ihr =>
    obtain ⟨o₁, o₂, o₃, hscan⟩ := Piece.exists_scanFrom_group offset inner rest
    rw [hscan] at ht ⊢
    obtain ⟨-, ht⟩ := List.forall_mem_cons.mp ht
    obtain ⟨hti, ht⟩ := List.forall_mem_append.mp ht
    obtain ⟨-, htr⟩ := List.forall_mem_cons.mp ht
    simp only [fits_munch, total_munch] at ihr
    have hopen : g.step mode ⟨.openParen, offset⟩ = .ok ⟨.empty, g.inner :: g.around⟩ := rfl
    -- the inside is counted from nothing; at its end the amounts go on top of those around it
    have hinside := ihi ⟨.empty, g.inner :: g.around⟩ o₁ hti
    have hclosed := hinside.bind fun g₁ => step_closeParen mode (numberAt rest) o₂
    rw [fits_group hinner hrest, funext (total_group hinner hrest), List.foldlM_cons,
      Except.bind_of_ok hopen, List.foldlM_append]
    simp only [List.foldlM_cons]
    rw [← bind_assoc]
    exact hclosed.read_on fun g₂ => ihr g₂ o₃ htr

/-! ## A whole formula -/

/-- Some number in the text, or what some element comes to in the whole text or in a group, before
or after the group is multiplied, passes the bound. -/
def Overflows (cs : List Char) : Prop :=
  (∃ n ∈ numbers cs, maxCount < n) ∨
  (∃ s, maxCount < total s (occurrences cs)) ∨
  ∃ g ∈ groups cs, ∃ s, maxCount < total s (occurrences g.inner) ∨
    maxCount < total s (occurrences g.inner) * g.multiplier

theorem fits_zero_iff {cs : List Char} : Fits (fun _ => 0) cs ↔ ¬ Overflows cs := by
  unfold Fits Overflows
  push Not
  simp only [Nat.zero_add]
  tauto

namespace Formula

variable {text : String} {c : Composition}

/-- A composition is empty iff no element occurs. -/
theorem isEmpty_iff_of_ofPieces (h : ofPieces mode (Piece.scan text) = .ok c) :
    c.isEmpty = true ↔ occurrences text.toList = [] := by
  obtain ⟨g, hg, hd, rfl⟩ := ofPieces_eq_ok h
  have hsymbols := symbols_run hg hd
  rw [Piece.scan, Piece.occurrences_scanFrom] at hsymbols
  rw [Composition.isEmpty, List.isEmpty_iff, ← List.map_eq_nil_iff (f := Prod.fst)]
  change g.inner.symbols = [] ↔ _
  rw [hsymbols]
  change enlistAll [] _ = [] ↔ _
  constructor
  · intro hnil
    refine List.eq_nil_iff_forall_not_mem.mpr fun o ho => ?_
    have hmem : o.symbol ∈ enlistAll [] ((occurrences text.toList).map Occurrence.symbol) :=
      mem_enlistAll.mpr (.inr (List.mem_map_of_mem ho))
    rw [hnil] at hmem
    cases hmem
  · intro hnone
    rw [hnone]
    rfl

/-- The pieces of a text with balanced parentheses are counted unless something overflows. -/
theorem ofPieces_overflowsUnless (hb : Balanced text.toList)
    (ht : ∀ p ∈ Piece.scan text, p.piece.Tolerated mode) :
    OverflowsUnless (¬ Overflows text.toList) (ofPieces mode (Piece.scan text))
      fun c => ∀ s, c.amount s = total s (occurrences text.toList) := by
  have hrun := run_overflowsUnless (nested_of_balanced hb) .start 0 ht
  refine (hrun.congr fits_zero_iff.symm).bind_ok fun g ⟨haround, hamount⟩ => ?_
  refine ⟨g.inner, if_pos haround, fun s => ?_⟩
  rw [hamount]
  exact Nat.zero_add _

/-- **A formula overflows exactly where a number or an exact sum does.** If its parentheses are
balanced and nothing in it is skipped, it is refused for its counts iff some number in it, or what
some element comes to in the whole formula or in a group, before or after the group is multiplied,
passes the bound. Otherwise it is counted exactly, or is empty where an element is asked for. -/
theorem read_overflows (hb : Balanced text.toList)
    (hp : ∀ p ∈ Piece.scan text, p.piece.Belongs) :
    (read mode text = .error .countOverflow ↔ Overflows text.toList) ∧
    (¬ Overflows text.toList → mode = .strict ∧ occurrences text.toList = [] →
      read mode text = .error .empty) ∧
    (¬ Overflows text.toList → ¬ (mode = .strict ∧ occurrences text.toList = []) →
      ∃ c, read mode text = .ok c ∧ ∀ s, c.amount s = total s (occurrences text.toList)) := by
  rcases ofPieces_overflowsUnless hb fun p h => (hp p h).tolerated with
    ⟨hfits, c, hc, hamount⟩ | ⟨hover, herr⟩
  · have hread : read mode text = if mode = .strict ∧ c.isEmpty = true then .error .empty
        else .ok c := Except.bind_of_ok hc _
    rw [hread, ← isEmpty_iff_of_ofPieces hc]
    by_cases hempty : mode = .strict ∧ c.isEmpty = true
    · rw [if_pos hempty]
      exact ⟨⟨nofun, fun h => absurd h hfits⟩, fun _ _ => rfl, fun _ h => absurd hempty h⟩
    · rw [if_neg hempty]
      exact ⟨⟨nofun, fun h => absurd h hfits⟩, fun _ h => absurd h hempty,
        fun _ _ => ⟨c, rfl, hamount⟩⟩
  · have hread : read mode text = .error .countOverflow := by
      rw [read, herr]
      rfl
    have hover := not_not.mp hover
    exact ⟨⟨fun _ => hover, fun _ => hread⟩, fun h => absurd hover h, fun h => absurd hover h⟩

/-- A group that is taken no times is counted all the same, and leading zeros make no number
greater. -/
theorem read_overflows_taken_no_times :
    read .strict "(H18446744073709551615 H)0" = .error .countOverflow ∧
      ∃ c, read .permissive "(H18446744073709551614 H00000000000000000000001)0" = .ok c ∧
        c.amount "H" = 0 := by
  constructor
  · have hgroups : groups "(H18446744073709551615 H)0".toList =
        [⟨"H18446744073709551615 H".toList, 0⟩] := by
      with_unfolding_all rfl
    refine (read_overflows (by decide +kernel) (by decide +kernel)).1.mpr (.inr (.inr ?_))
    exact ⟨_, hgroups ▸ List.mem_singleton_self _, "H", .inl (by decide +kernel)⟩
  · obtain ⟨hover, -, hcounts⟩ := @read_overflows .permissive
      "(H18446744073709551614 H00000000000000000000001)0" (by decide +kernel) (by decide +kernel)
    have hread : read .permissive "(H18446744073709551614 H00000000000000000000001)0" =
        .ok ⟨[("H", 0)], by decide, by decide⟩ := by
      with_unfolding_all rfl
    have hfits : ¬ Overflows "(H18446744073709551614 H00000000000000000000001)0".toList := by
      intro h
      rw [hover.mpr h] at hread
      cases hread
    obtain ⟨c, hc, hamount⟩ := hcounts hfits nofun
    exact ⟨c, hc, by rw [hamount]; decide +kernel⟩

end Formula

end Abacus.Matter
