import Abacus.Matter.Formula
import Abacus.Proofs.Except
import Abacus.Proofs.Matter.Merging
import Abacus.Proofs.Matter.Occurrence

/-!
# What a formula counts

A formula that is read counts every element as often as its occurrences say, each taken with the
multipliers of the groups around it, and lists the elements in the order in which they first
occur.

The occurrences are read off the text (`Proofs/Matter/Occurrence`), with the groups around each by
looking ahead for their ends. The reading does not look ahead: it keeps a composition for every open
group and merges it outward at the end of the group. What such a stack comes to depends on what is
still to be read.

* `settle` closes the open groups with the multipliers to come, for the amount of one element.
* `gather` closes them for the order of the symbols.
* `Groups.Takes`: what one piece does to the open groups, where it is not refused.

One piece leaves `settle` and the occurrences to come together unchanged, and so does the run.

Results:
* `Groups.step_eq_ok_iff`: a step is taken exactly as `Groups.Takes` says.
* `amount_run`, `symbols_run`: what a run over the pieces leaves.
* `Formula.read_counts`: the counts and the order of the elements of a formula, in both modes.

Nothing is said of formulas that are refused: when they are is `Proofs/Matter/Overflow`,
`Proofs/Matter/Parentheses` and `Proofs/Matter/Strictness`.
-/

namespace Abacus.Matter

variable {mode : Mode}

/-! ## One piece -/

namespace Formula

/-- What a piece makes of the open groups, if it is not refused. -/
inductive Groups.Takes (mode : Mode) (g : Groups) : Piece → Groups → Prop
  | atoms {symbol : String} {count : Nat} {c : Composition}
      (h : g.inner.add? symbol count = some c) : Takes mode g (.atoms symbol count) ⟨c, g.around⟩
  | openParen : Takes mode g .openParen ⟨.empty, g.inner :: g.around⟩
  | closeParen {multiplier : Nat} {outer c : Composition} {around : List Composition}
      (ho : g.around = outer :: around) (hm : multiplier ≤ maxCount)
      (h : outer.merge? g.inner multiplier = some c) :
      Takes mode g (.closeParen multiplier) ⟨c, around⟩
  | strayCount {value : Nat} (hp : mode = .permissive) (hv : value ≤ maxCount) :
      Takes mode g (.strayCount value) g
  | noise {char : Char} (hp : mode = .permissive) : Takes mode g (.noise char) g

theorem counted_eq_ok {o : Option Composition} {c : Composition} :
    counted o = .ok c ↔ o = some c := by
  cases o with
  | none => exact ⟨nofun, nofun⟩
  | some d => simp [counted]

/-- What one piece does to the open groups. -/
theorem Groups.step_eq_ok_iff {g g' : Groups} {p : Placed} :
    g.step mode p = .ok g' ↔ Groups.Takes mode g p.piece g' := by
  obtain ⟨piece, offset⟩ := p
  constructor
  · intro h
    unfold Groups.step at h
    cases piece with
    | atoms symbol count =>
      obtain ⟨c, hc, h⟩ := Except.bind_eq_ok.mp h
      cases h
      exact .atoms (counted_eq_ok.mp hc)
    | openParen =>
      cases h
      exact .openParen
    | closeParen multiplier =>
      obtain ⟨inner, around⟩ := g
      cases around with
      | nil => cases h
      | cons outer around =>
        replace h : (if maxCount < multiplier then _ else _) = _ := h
        by_cases hm : maxCount < multiplier
        · rw [if_pos hm] at h
          cases h
        · rw [if_neg hm] at h
          obtain ⟨c, hc, h⟩ := Except.bind_eq_ok.mp h
          cases h
          exact .closeParen rfl (Nat.le_of_not_lt hm) (counted_eq_ok.mp hc)
    | strayCount value =>
      cases mode with
      | strict => cases h
      | permissive =>
        replace h : (if maxCount < value then _ else _) = _ := h
        by_cases hv : maxCount < value
        · rw [if_pos hv] at h
          cases h
        · rw [if_neg hv] at h
          cases h
          exact .strayCount rfl (Nat.le_of_not_lt hv)
    | noise char =>
      cases mode with
      | strict => cases h
      | permissive =>
        cases h
        exact .noise rfl
  · rintro (@⟨_, _, _, h⟩ | _ | @⟨_, outer, _, around, ho, hm, h⟩ | ⟨rfl, hv⟩ | rfl)
    · simp only [Groups.step, h]
      rfl
    · rfl
    · simp only [Groups.step, ho, h, if_neg (Nat.not_lt.mpr hm)]
      rfl
    · exact if_neg (Nat.not_lt.mpr hv)
    · rfl

end Formula

/-! ## The amounts -/

/-- What an amount comes to when the open groups are closed: each multiplier takes the amount of
the innermost group so many times and adds it to the group around it. -/
def settle (s : String) (amount : Nat) : List Composition → List Nat → Nat
  | outer :: around, m :: ms => settle s (amount * m + outer.amount s) around ms
  | _, _ => amount

/-- What is added in the innermost group is taken with all the multipliers. -/
theorem settle_add (s : String) (n : Nat) {around : List Composition} {ms : List Nat}
    (hl : ms.length = around.length) (amount : Nat) :
    settle s (amount + n) around ms = settle s amount around ms + n * ms.prod := by
  induction around generalizing amount n ms with
  | nil =>
    rw [List.length_eq_zero_iff.mp hl, List.prod_nil, Nat.mul_one]
    rfl
  | cons outer around ih =>
    cases ms with
    | nil => cases hl
    | cons m ms =>
      have hm : (amount + n) * m + outer.amount s = amount * m + outer.amount s + n * m := by
        rw [Nat.add_mul, Nat.add_right_comm]
      rw [settle, hm, ih (n * m) (Nat.succ.inj hl), settle, List.prod_cons, Nat.mul_assoc]

theorem total_cons (s : String) (o : Occurrence) (os : List Occurrence) :
    total s (o :: os) = (if s = o.symbol then o.atoms else 0) + total s os := by
  unfold total
  by_cases h : o.symbol = s
  · rw [List.filter_cons_of_pos (by simpa using h), if_pos h.symm, List.map_cons, List.sum_cons]
  · rw [List.filter_cons_of_neg (by simpa using h), if_neg fun hs => h hs.symm, Nat.zero_add]

open Formula

/-- A run that closes all groups finds a multiplier for each of them, and leaves of every element
what the open groups come to with these multipliers and the atoms still to be read. -/
theorem amount_run {ps : List Placed} {g g' : Groups}
    (h : ps.foldlM (Groups.step mode) g = .ok g') (hd : g'.around = []) :
    (closersIn 0 ps).length = g.around.length ∧
      ∀ s, g'.inner.amount s =
        settle s (g.inner.amount s) g.around (closersIn 0 ps) + total s (occurrencesIn ps) := by
  induction ps generalizing g with
  | nil =>
    cases h
    rw [hd]
    exact ⟨rfl, fun s => rfl⟩
  | cons p ps ih =>
    rw [List.foldlM_cons] at h
    obtain ⟨g₁, hs, h⟩ := Except.bind_eq_ok.mp h
    obtain ⟨hl, ha⟩ := ih h
    obtain ⟨piece, offset⟩ := p
    cases Groups.step_eq_ok_iff.mp hs with
    | @atoms symbol count c hc =>
      refine ⟨hl, fun s => ?_⟩
      rw [ha, Composition.amount_add? hc, settle_add _ _ hl, occurrencesIn, total_cons,
        Nat.add_assoc]
      congr 2
      split
      · rfl
      · exact Nat.zero_mul _
    | openParen =>
      have ht : closersIn 0 (⟨.openParen, offset⟩ :: ps) = (closersIn 0 ps).tail :=
        closersIn_succ 0 ps
      rw [ht]
      cases hms : closersIn 0 ps with
      | nil =>
        rw [hms] at hl
        cases hl
      | cons m ms =>
        rw [hms] at hl ha
        refine ⟨Nat.succ.inj hl, fun s => ?_⟩
        rw [ha, settle, Composition.amount_empty, Nat.zero_mul, Nat.zero_add]
        rfl
    | @closeParen m outer c around ho hm hc =>
      rw [ho]
      refine ⟨congrArg Nat.succ hl, fun s => ?_⟩
      rw [ha, Composition.amount_merge? hc, Nat.add_comm (outer.amount s)]
      rfl
    | strayCount => exact ⟨hl, ha⟩
    | noise => exact ⟨hl, ha⟩

/-! ## The order -/

/-- The order of the symbols when the open groups are closed: those of the groups around first. -/
def gather (symbols : List String) : List Composition → List String
  | [] => symbols
  | outer :: around => gather (enlistAll outer.symbols symbols) around

theorem gather_enlist (symbols : List String) (s : String) (around : List Composition) :
    gather (enlist symbols s) around = enlist (gather symbols around) s := by
  induction around generalizing symbols with
  | nil => rfl
  | cons outer around ih => rw [gather, enlistAll_enlist, ih, gather]

/-- A run that closes all groups leaves the symbols of the open groups, and behind them the new
ones in the order in which they are read. -/
theorem symbols_run {ps : List Placed} {g g' : Groups}
    (h : ps.foldlM (Groups.step mode) g = .ok g') (hd : g'.around = []) :
    g'.inner.symbols =
      enlistAll (gather g.inner.symbols g.around) ((occurrencesIn ps).map Occurrence.symbol) := by
  induction ps generalizing g with
  | nil =>
    cases h
    rw [hd]
    rfl
  | cons p ps ih =>
    rw [List.foldlM_cons] at h
    obtain ⟨g₁, hs, h⟩ := Except.bind_eq_ok.mp h
    rw [ih h]
    obtain ⟨piece, offset⟩ := p
    cases Groups.step_eq_ok_iff.mp hs with
    | atoms hc =>
      rw [Composition.symbols_add?_eq hc, gather_enlist]
      rfl
    | openParen => rfl
    | closeParen ho hm hc =>
      rw [Composition.symbols_merge? hc, ho]
      rfl
    | strayCount => rfl
    | noise => rfl

/-! ## A whole formula -/

namespace Formula

theorem ofPieces_eq_ok {ps : List Placed} {c : Composition} (h : ofPieces mode ps = .ok c) :
    ∃ g, ps.foldlM (Groups.step mode) .start = .ok g ∧ g.around = [] ∧ g.inner = c := by
  obtain ⟨g, hg, hf⟩ := Except.bind_eq_ok.mp h
  rw [Groups.finish] at hf
  by_cases hd : g.around = []
  · rw [if_pos hd] at hf
    exact ⟨g, hg, hd, Except.ok.inj hf⟩
  · rw [if_neg hd] at hf
    cases hf

theorem ofPieces_of_read {text : String} {c : Composition} (h : read mode text = .ok c) :
    ofPieces mode (Piece.scan text) = .ok c := by
  obtain ⟨d, hd, h⟩ := Except.bind_eq_ok.mp h
  split at h
  · cases h
  · cases h
    exact hd

variable {text : String} {c : Composition}

/-- Every element is counted as often as it occurs with the groups around it. -/
theorem amount_of_read (h : read mode text = .ok c) (s : String) :
    c.amount s = total s (occurrences text.toList) := by
  obtain ⟨g, hg, hd, rfl⟩ := ofPieces_eq_ok (ofPieces_of_read h)
  obtain ⟨hl, ha⟩ := amount_run hg hd
  rw [ha, Piece.scan, Piece.occurrences_scanFrom]
  exact Nat.zero_add _

/-- The elements are those that occur, in the order of their first occurrence. -/
theorem symbols_of_read (h : read mode text = .ok c) :
    c.symbols = ((occurrences text.toList).map Occurrence.symbol).eraseDups := by
  obtain ⟨g, hg, hd, rfl⟩ := ofPieces_eq_ok (ofPieces_of_read h)
  rw [symbols_run hg hd, Piece.scan, Piece.occurrences_scanFrom, ← enlistAll_nil]
  rfl

/-- What a formula that is read holds, element by element. -/
theorem entries_of_read (h : read mode text = .ok c) :
    c.entries = ((occurrences text.toList).map Occurrence.symbol).eraseDups.map
      fun s => (s, total s (occurrences text.toList)) := by
  rw [c.entries_eq, symbols_of_read h]
  exact List.map_congr_left fun s _ => by rw [amount_of_read h]

/-- **A formula counts its occurrences**: an element has a count exactly if it occurs, and then
the exact sum of its own counts, each taken with the multipliers of all the groups around it. The
entries list each such element once, in the order of first occurrence. -/
theorem read_counts (h : read mode text = .ok c) :
    (∀ s n, c.count? s = some n ↔
      (∃ o ∈ occurrences text.toList, o.symbol = s) ∧ n = total s (occurrences text.toList)) ∧
    (c.entries.map Prod.fst).Nodup ∧
    c.entries = ((occurrences text.toList).map Occurrence.symbol).eraseDups.map
      fun s => (s, total s (occurrences text.toList)) := by
  have hs := symbols_of_read h
  refine ⟨?_, c.distinct, ?_⟩
  · intro s n
    have hm : s ∈ c.symbols ↔ ∃ o ∈ occurrences text.toList, o.symbol = s := by
      rw [hs, List.mem_eraseDups, List.mem_map]
    rw [c.count?_eq, ← hm, ← amount_of_read h]
    by_cases hin : s ∈ c.symbols
    · rw [if_pos hin, Option.some.injEq]
      constructor
      · intro hn
        exact ⟨hin, hn.symm⟩
      · rintro ⟨-, hn⟩
        exact hn.symm
    · rw [if_neg hin]
      constructor
      · nofun
      · rintro ⟨hs, -⟩
        exact absurd hs hin
  · rw [c.entries_eq, hs]
    exact List.map_congr_left fun s _ => by rw [amount_of_read h]

/-- Three atoms of `O` in a group that is taken twice, and none of `N` in a group taken no times;
the oxygen is met first. -/
theorem read_counts_nested : ∃ c,
    read .strict "(O(H 2N)0O2)2" = .ok c ∧
      c.entries = ((occurrences "(O(H 2N)0O2)2".toList).map Occurrence.symbol).eraseDups.map
        (fun s => (s, total s (occurrences "(O(H 2N)0O2)2".toList))) ∧
      c.entries = [("O", 6), ("H", 0), ("N", 0)] := by
  have h : read .strict "(O(H 2N)0O2)2" =
      .ok ⟨[("O", 6), ("H", 0), ("N", 0)], by decide, by decide⟩ := by
    with_unfolding_all rfl
  exact ⟨_, h, (read_counts h).2.2, rfl⟩

end Formula

end Abacus.Matter
