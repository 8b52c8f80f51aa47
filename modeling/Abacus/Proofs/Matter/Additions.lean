import Abacus.Matter.Formula
import Abacus.Proofs.Matter.Merging
import Mathlib.Data.Finset.Card
import Mathlib.Data.Finset.Dedup

/-!
# Runs of additions

A composition is kept in entries that are changed in place. An addition looks for the entry of its
symbol, checks the sum before it writes it, and puts a new entry last where there is none. So a
refused addition changes nothing, and what is left after any run of additions is what the accepted
ones come to.

* `Entries`: an array of symbols with counts of 64 bits, which knows nothing of the bounds and of
  the distinct symbols that a `Composition` carries in its type.
* `addInPlace`: one addition as a program over such an array. An error leaves the array as it was
  written up to there, so that nothing was written has to be shown.
* `addAllInPlace`: a caller that goes on after a refusal.
* `Composition.stored` is the array of a composition; `after` and `accepted` say without an array
  what a run leaves and which additions it takes; `SumsUp` says it without a run.

Results:
* `Composition.addInPlace_run`: one addition in place does what `Composition.add?` does, or nothing.
* `Composition.addAllInPlace_run`: a run of them leaves the composition after the accepted ones.
* `Composition.after_sumsUp`: that composition sums up the accepted ones. The symbols keep the order
  of their first accepted addition, and all atoms together are counted up to the bound.
* `Composition.additions_spec`: the law of a run. It says of a further addition when it is refused.

Merging a group into the one around it is a run of additions too, and is in
`Proofs/Matter/Merging`.
-/

namespace Abacus.Matter

/-! ## In place -/

/-- Entries with counts of 64 bits. -/
abbrev Entries := Array (String × UInt64)

/-- Writes an addition to the entry that was found, or to a new one behind the others. -/
def writeEntry (symbol : String) (n : UInt64) (entries : Entries) :
    Option (Fin entries.size) → ExceptT Formula.Error (StateM Entries) Unit
  | none => set (entries.push (symbol, n))
  | some i => do
    if maxCount < entries[i].2.toNat + n.toNat then throw .countOverflow
    set (entries.set i (entries[i].1, entries[i].2 + n))

/-- Adds atoms of an element in place. What was written before a fault would stay written. -/
def addInPlace (symbol : String) (n : UInt64) : ExceptT Formula.Error (StateM Entries) Unit := do
  let entries ← get
  writeEntry symbol n entries (entries.findFinIdx? (·.1 == symbol))

/-- Makes additions one after the other, whatever becomes of each, and returns the accepted ones. -/
def addAllInPlace : List (String × UInt64) → StateM Entries (List (String × Nat))
  | [] => pure []
  | call :: calls => do
    let outcome ← (addInPlace call.1 call.2).run
    let accepted ← addAllInPlace calls
    pure (if outcome.isOk then (call.1, call.2.toNat) :: accepted else accepted)

namespace Composition

/-- The entries that hold the composition. -/
def stored (c : Composition) : Entries :=
  (c.entries.map fun e => (e.1, UInt64.ofNat e.2)).toArray

/-- After an addition: a refused one leaves the composition as it was. -/
def attempt (c : Composition) (call : String × UInt64) : Composition :=
  (c.add? call.1 call.2.toNat).getD c

/-- After additions one after the other. -/
def after (c : Composition) (calls : List (String × UInt64)) : Composition :=
  calls.foldl attempt c

/-- The additions that are accepted. -/
def accepted (c : Composition) : List (String × UInt64) → List (String × Nat)
  | [] => []
  | call :: calls =>
    if (c.add? call.1 call.2.toNat).isSome then
      (call.1, call.2.toNat) :: accepted (c.attempt call) calls
    else accepted (c.attempt call) calls

end Composition

/-! ## One addition -/

variable {symbol : String} {entries : List (String × Nat)}

theorem addEntry_of_not_mem (h : symbol ∉ entries.map Prod.fst) (n : Nat) :
    addEntry symbol n entries = entries ++ [(symbol, n)] := by
  induction entries with
  | nil => rfl
  | cons e entries ih =>
    rw [List.map_cons, List.mem_cons, not_or] at h
    rw [addEntry, if_neg fun he => h.1 he.symm, ih h.2]
    rfl

/-- The first entry of a symbol is the one that is found and changed. -/
theorem addEntry_of_first {i : Nat} (hi : i < entries.length) (he : entries[i].1 = symbol)
    (hfirst : ∀ j (hj : j < i), entries[j].1 ≠ symbol) (n : Nat) :
    addEntry symbol n entries = entries.set i (entries[i].1, entries[i].2 + n) ∧
      findCount? symbol entries = some entries[i].2 := by
  induction entries generalizing i with
  | nil => cases hi
  | cons e entries ih =>
    cases i with
    | zero =>
      have he : e.1 = symbol := he
      exact ⟨if_pos he, if_pos he⟩
    | succ i =>
      have hne : ¬ e.1 = symbol := hfirst 0 (Nat.succ_pos i)
      obtain ⟨hadd, hfind⟩ := ih (Nat.lt_of_succ_lt_succ hi) he fun j hj =>
        hfirst (j + 1) (Nat.succ_lt_succ hj)
      rw [addEntry, if_neg hne, findCount?, if_neg hne, hadd, hfind]
      exact ⟨rfl, rfl⟩

/-- An addition is written to the entry that it finds in the entries as they are. -/
theorem addInPlace_eq (symbol : String) (n : UInt64) (entries : Entries) :
    (addInPlace symbol n).run.run entries =
      (writeEntry symbol n entries (entries.findFinIdx? (·.1 == symbol))).run.run entries := rfl

theorem writeEntry_some_run (n : UInt64) (entries : Entries) (i : Fin entries.size) :
    (writeEntry symbol n entries (some i)).run.run entries =
      if maxCount < entries[i].2.toNat + n.toNat then (.error .countOverflow, entries)
      else (.ok (), entries.set i (entries[i].1, entries[i].2 + n)) := by
  by_cases h : maxCount < entries[i].2.toNat + n.toNat
  · rw [if_pos h, writeEntry, if_pos h]
    rfl
  · rw [if_neg h, writeEntry, if_neg h]
    rfl

theorem toNat_le_maxCount (n : UInt64) : n.toNat ≤ maxCount :=
  Nat.le_pred_of_lt n.toNat_lt

namespace Composition

variable {c d : Composition}

theorem size_stored (c : Composition) : c.stored.size = c.entries.length := by
  rw [stored, List.size_toArray, List.length_map]

theorem getElem_stored (c : Composition) {i : Nat} (hi : i < c.stored.size) :
    c.stored[i] = (c.entries.get ⟨i, c.size_stored ▸ hi⟩).map id UInt64.ofNat := by
  simp [stored, Prod.map]

/-- No entry is found only where the symbol was never added. -/
theorem not_mem_of_not_found (h : c.stored.findFinIdx? (·.1 == symbol) = none) :
    symbol ∉ c.entries.map Prod.fst := by
  intro hs
  obtain ⟨e, he, rfl⟩ := List.mem_map.mp hs
  have hmem : e.map id UInt64.ofNat ∈ c.stored :=
    List.mem_toArray.mpr (List.mem_map.mpr ⟨e, he, rfl⟩)
  exact Array.findFinIdx?_eq_none_iff.mp h _ hmem (beq_self_eq_true e.1)

/-- The entry that is found is the first of its symbol. -/
theorem first_of_found {i : Fin c.stored.size}
    (h : c.stored.findFinIdx? (·.1 == symbol) = some i) :
    ∃ hi : i.1 < c.entries.length, c.entries[i.1].1 = symbol ∧
      ∀ j (hj : j < i.1), c.entries[j].1 ≠ symbol := by
  obtain ⟨he, hfirst⟩ := Array.findFinIdx?_eq_some_iff.mp h
  refine ⟨c.size_stored ▸ i.2, ?_, fun j hj hjs => ?_⟩
  · rw [beq_iff_eq, Fin.getElem_fin, getElem_stored] at he
    exact he
  · refine hfirst ⟨j, hj.trans i.2⟩ hj ?_
    rw [beq_iff_eq, Fin.getElem_fin, getElem_stored]
    exact hjs

theorem toNat_ofNat_count (c : Composition) {e : String × Nat} (he : e ∈ c.entries) :
    (UInt64.ofNat e.2).toNat = e.2 :=
  UInt64.toNat_ofNat_of_lt' (Nat.lt_of_le_pred (by decide) (c.bounded e he))

theorem stored_of_new (hs : symbol ∉ c.entries.map Prod.fst)
    (hd : c.add? symbol n.toNat = some d) : d.stored = c.stored.push (symbol, n) := by
  rw [stored, entries_of_add? hd, addEntry_of_not_mem hs, List.map_append, stored,
    List.push_toArray, List.map_singleton, UInt64.ofNat_toNat]

theorem stored_of_found {i : Fin c.stored.size}
    (h : c.stored.findFinIdx? (·.1 == symbol) = some i)
    (hd : c.add? symbol n.toNat = some d) :
    d.stored = c.stored.set i (c.stored[i].1, c.stored[i].2 + n) := by
  obtain ⟨hi, he, hfirst⟩ := first_of_found h
  have hentry : c.stored[i] = c.entries[i.1].map id UInt64.ofNat := c.getElem_stored i.2
  refine Eq.trans ?_ (List.set_toArray _ i.1 _ i.2).symm
  rw [stored, entries_of_add? hd, (addEntry_of_first hi he hfirst n.toNat).1, List.map_set,
    hentry, UInt64.ofNat_add, UInt64.ofNat_toNat]
  rfl

/-- **One addition in place** does what `add?` does, or nothing. -/
theorem addInPlace_run (c : Composition) (symbol : String) (n : UInt64) :
    (addInPlace symbol n).run.run c.stored =
      match c.add? symbol n.toNat with
      | some d => (.ok (), d.stored)
      | none => (.error .countOverflow, c.stored) := by
  rw [addInPlace_eq]
  cases hf : c.stored.findFinIdx? (·.1 == symbol) with
  | none =>
    have hs := not_mem_of_not_found hf
    cases hd : c.add? symbol n.toNat with
    | none =>
      rw [add?_eq_none_iff, count?, findCount?_eq_none hs, Option.getD_none, Nat.zero_add] at hd
      exact absurd (toNat_le_maxCount n) (Nat.not_le.mpr hd)
    | some d => exact congrArg (Prod.mk (Except.ok ())) (stored_of_new hs hd).symm
  | some i =>
    obtain ⟨hi, he, hfirst⟩ := first_of_found hf
    have hcount : c.stored[i].2.toNat = (c.count? symbol).getD 0 := by
      rw [Fin.getElem_fin, getElem_stored, count?, (addEntry_of_first hi he hfirst n.toNat).2]
      exact toNat_ofNat_count c (List.getElem_mem hi)
    rw [writeEntry_some_run, hcount]
    cases hd : c.add? symbol n.toNat with
    | none => exact if_pos (add?_eq_none_iff.mp hd)
    | some d =>
      rw [if_neg fun hlt => by rw [add?_eq_none_iff.mpr hlt] at hd; cases hd]
      exact congrArg (Prod.mk (Except.ok ())) (stored_of_found hf hd).symm

/-! ## Runs -/

variable {call : String × UInt64}

theorem run_refused (h : c.add? call.1 call.2.toNat = none) (calls : List (String × UInt64)) :
    c.after (call :: calls) = c.after calls ∧
      c.accepted (call :: calls) = c.accepted calls := by
  have hattempt : c.attempt call = c := by rw [attempt, h, Option.getD_none]
  rw [after, List.foldl_cons, accepted, h, hattempt]
  exact ⟨rfl, rfl⟩

theorem run_accepted (h : c.add? call.1 call.2.toNat = some d)
    (calls : List (String × UInt64)) :
    c.after (call :: calls) = d.after calls ∧
      c.accepted (call :: calls) = (call.1, call.2.toNat) :: d.accepted calls := by
  have hattempt : c.attempt call = d := by rw [attempt, h, Option.getD_some]
  rw [after, List.foldl_cons, accepted, h, hattempt]
  exact ⟨rfl, rfl⟩

/-- **A run in place** leaves what the accepted additions come to. -/
theorem addAllInPlace_run (c : Composition) (calls : List (String × UInt64)) :
    (addAllInPlace calls).run c.stored = (c.accepted calls, (c.after calls).stored) := by
  induction calls generalizing c with
  | nil => rfl
  | cons call calls ih =>
    have hrun := addInPlace_run c call.1 call.2
    have hstep : (addAllInPlace (call :: calls)).run c.stored =
        let ran := (addInPlace call.1 call.2).run.run c.stored
        let rest := (addAllInPlace calls).run ran.2
        (if ran.1.isOk then (call.1, call.2.toNat) :: rest.1 else rest.1, rest.2) := rfl
    cases hd : c.add? call.1 call.2.toNat with
    | none =>
      obtain ⟨hafter, haccepted⟩ := run_refused hd calls
      rw [hstep, hrun, hd, hafter, haccepted]
      exact ih c
    | some d =>
      obtain ⟨hafter, haccepted⟩ := run_accepted hd calls
      rw [hstep, hrun, hd, hafter, haccepted]
      dsimp only
      rw [ih d]
      rfl

/-- A run appends the symbols that are new, and adds what is accepted. -/
theorem after_gains (c : Composition) (calls : List (String × UInt64)) :
    (c.after calls).symbols = enlistAll c.symbols ((c.accepted calls).map Prod.fst) ∧
      ∀ s, (c.after calls).amount s = c.amount s + amountIn s (c.accepted calls) := by
  induction calls generalizing c with
  | nil => exact ⟨rfl, fun s => rfl⟩
  | cons call calls ih =>
    cases hd : c.add? call.1 call.2.toNat with
    | none =>
      obtain ⟨hafter, haccepted⟩ := run_refused hd calls
      rw [hafter, haccepted]
      exact ih c
    | some d =>
      obtain ⟨hafter, haccepted⟩ := run_accepted hd calls
      obtain ⟨hsymbols, hamount⟩ := ih d
      rw [hafter, haccepted]
      refine ⟨?_, fun s => ?_⟩
      · rw [hsymbols, symbols_add?_eq hd]
        rfl
      · rw [hamount, amount_add? hd, amountIn_cons, Nat.add_assoc]

/-! ## What is left -/

/-- The sum of the counts of entries. -/
def sumIn (entries : List (String × Nat)) : Nat := (entries.map Prod.snd).sum

theorem sumIn_addEntry (symbol : String) (n : Nat) (entries : List (String × Nat)) :
    sumIn (addEntry symbol n entries) = sumIn entries + n := by
  induction entries with
  | nil => exact Nat.add_comm n 0
  | cons e entries ih =>
    rw [addEntry]
    split
    · exact Nat.add_right_comm e.2 n (sumIn entries)
    · show e.2 + sumIn (addEntry symbol n entries) = e.2 + sumIn entries + n
      rw [ih, Nat.add_assoc]

theorem sumIn_after (c : Composition) (calls : List (String × UInt64)) :
    sumIn (c.after calls).entries = sumIn c.entries + sumIn (c.accepted calls) := by
  induction calls generalizing c with
  | nil => rfl
  | cons call calls ih =>
    cases hd : c.add? call.1 call.2.toNat with
    | none =>
      obtain ⟨hafter, haccepted⟩ := run_refused hd calls
      rw [hafter, haccepted]
      exact ih c
    | some d =>
      obtain ⟨hafter, haccepted⟩ := run_accepted hd calls
      rw [hafter, haccepted, ih d, entries_of_add? hd, sumIn_addEntry, Nat.add_assoc]
      rfl

/-- The composition sums up another one and additions to it. -/
structure SumsUp (c start : Composition) (added : List (String × Nat)) : Prop where
  symbols : c.symbols = (start.symbols ++ added.map Prod.fst).eraseDups
  distinct : c.symbols.Nodup
  count s : c.count? s =
    if s ∈ start.symbols ++ added.map Prod.fst then some (start.amount s + amountIn s added)
    else none
  size : c.size = (start.symbols ++ added.map Prod.fst).toFinset.card
  atoms : c.atoms = min (sumIn start.entries + sumIn added) maxCount

theorem after_sumsUp (start : Composition) (calls : List (String × UInt64)) :
    (start.after calls).SumsUp start (start.accepted calls) := by
  obtain ⟨henlist, hamount⟩ := start.after_gains calls
  have hsymbols : (start.after calls).symbols =
      (start.symbols ++ (start.accepted calls).map Prod.fst).eraseDups :=
    henlist.trans (enlistAll_of_nodup start.distinct _)
  have hdistinct : (start.after calls).symbols.Nodup := (start.after calls).distinct
  have hmem (s : String) : s ∈ (start.after calls).symbols ↔
      s ∈ start.symbols ++ (start.accepted calls).map Prod.fst := by
    rw [hsymbols, List.mem_eraseDups]
  refine ⟨hsymbols, hdistinct, fun s => ?_, ?_, ?_⟩
  · rw [count?_eq, hamount]
    exact if_congr (hmem s) rfl rfl
  · have hset : (start.after calls).symbols.toFinset =
        (start.symbols ++ (start.accepted calls).map Prod.fst).toFinset := by
      ext s
      rw [List.mem_toFinset, List.mem_toFinset, hmem]
    rw [← hset, List.toFinset_card_of_nodup hdistinct, size, symbols, List.length_map]
  · rw [atoms, saturatingSum_eq, exactSum_eq, ← sumIn_after]
    rfl

/-- **The law of a run of additions**, accepted and refused ones in any order, from any
composition. What is left sums up the accepted ones. A further one is refused exactly if the sum of
its symbol would pass the bound, and then the entries are as they were. -/
theorem additions_spec (start : Composition) (calls : List (String × UInt64)) :
    (addAllInPlace calls).run start.stored = (start.accepted calls, (start.after calls).stored) ∧
      (start.after calls).SumsUp start (start.accepted calls) ∧
      ∀ symbol (n : UInt64),
        ((start.after calls).add? symbol n.toNat = none ↔
          maxCount < start.amount symbol + amountIn symbol (start.accepted calls) + n.toNat) ∧
        (addInPlace symbol n).run.run (start.after calls).stored =
          if start.amount symbol + amountIn symbol (start.accepted calls) + n.toNat ≤ maxCount then
            (.ok (), (start.after (calls ++ [(symbol, n)])).stored)
          else (.error .countOverflow, (start.after calls).stored) := by
  refine ⟨start.addAllInPlace_run calls, start.after_sumsUp calls, fun symbol n => ?_⟩
  have hrefused : (start.after calls).add? symbol n.toNat = none ↔
      maxCount < start.amount symbol + amountIn symbol (start.accepted calls) + n.toNat := by
    rw [add?_eq_none_iff, ← (start.after_gains calls).2]
    rfl
  have hnext : start.after (calls ++ [(symbol, n)]) = (start.after calls).attempt (symbol, n) :=
    List.foldl_append
  refine ⟨hrefused, ?_⟩
  rw [addInPlace_run, hnext, attempt]
  cases hd : (start.after calls).add? symbol n.toNat with
  | none => exact (if_neg (Nat.not_le.mpr (hrefused.mp hd))).symm
  | some d =>
    have hfits := Nat.not_lt.mp fun hlt => Option.some_ne_none d (hd ▸ hrefused.mpr hlt)
    exact (if_pos hfits).symm

/-- The refused addition leaves no trace, and one of no atoms makes an entry. -/
example : (addAllInPlace [("H", 18446744073709551615), ("H", 1), ("O", 0)]).run #[] =
    ([("H", 18446744073709551615), ("O", 0)], #[("H", 18446744073709551615), ("O", 0)]) := by
  cbv

end Composition

end Abacus.Matter
