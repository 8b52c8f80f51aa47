import Abacus.Matter.Composition
import Mathlib.Algebra.Ring.Nat
import Mathlib.Data.List.Induction

/-!
# Adding and merging compositions

What `add?` and `merge?` do to the two views of a composition: the list of its symbols and the
count of each. A symbol that was never added counts as zero (`amount`), so an addition is the same
equation whether or not the symbol is there. That a symbol is listed with a count of zero is seen in
the list alone.

* `enlist`: a list with a symbol behind it, unless it holds the symbol already; `enlistAll` does so
  with all of a second list.
* `amountIn`: what a list of entries holds of a symbol, all of its entries together.

`merge?` adds the entries of a group one by one, each taken so many times, and gives up at the first
that passes the bound. What it does is an induction over those entries.

Results:
* `entries_eq`: a composition is its symbols in order, each with its amount.
* `symbols_merge?`: merging appends the symbols that are new, in the order of the group.
* `amount_merge?`: merging adds the amounts, taken so many times.

When `merge?` gives up is `Proofs/Matter/Overflow`.
-/

namespace Abacus.Matter

theorem exactSum_eq (counts : List Nat) : exactSum counts = counts.sum := by
  induction counts with
  | nil => rfl
  | cons n counts ih => rw [exactSum, List.sum_cons, ih]

/-- The list with a symbol behind it, unless it holds the symbol already. -/
def enlist (symbols : List String) (s : String) : List String :=
  if s ∈ symbols then symbols else symbols ++ [s]

theorem mem_enlist {symbols : List String} {s t : String} :
    t ∈ enlist symbols s ↔ t ∈ symbols ∨ t = s := by
  unfold enlist
  split
  · rename_i h
    constructor
    · exact .inl
    · rintro (ht | rfl)
      · exact ht
      · exact h
  · rw [List.mem_append, List.mem_singleton]

/-- The symbols of a first list and behind them what a second adds. -/
def enlistAll (symbols others : List String) : List String := others.foldl enlist symbols

theorem mem_enlistAll {symbols others : List String} {t : String} :
    t ∈ enlistAll symbols others ↔ t ∈ symbols ∨ t ∈ others := by
  unfold enlistAll
  induction others generalizing symbols with
  | nil => simp
  | cons s others ih => rw [List.foldl_cons, ih, mem_enlist, List.mem_cons, or_assoc]

theorem enlistAll_append (symbols others more : List String) :
    enlistAll symbols (others ++ more) = enlistAll (enlistAll symbols others) more :=
  List.foldl_append

/-- A symbol can be added before or after the merge. -/
theorem enlistAll_enlist (symbols others : List String) (s : String) :
    enlistAll symbols (enlist others s) = enlist (enlistAll symbols others) s := by
  by_cases h : s ∈ others
  · rw [enlist, if_pos h, enlist, if_pos (mem_enlistAll.mpr (.inr h))]
  · rw [enlist, if_neg h, enlistAll_append]
    rfl

/-- Added one by one to no symbols, a list keeps the first of equal ones. -/
theorem enlistAll_nil (others : List String) : enlistAll [] others = others.eraseDups := by
  induction others using List.reverseRecOn with
  | nil => rfl
  | append_singleton others s ih =>
    rw [enlistAll_append, ih, List.eraseDups_append]
    show enlist others.eraseDups s = _
    by_cases h : s ∈ others
    · have hr : [s].removeAll others = [] := by simp [List.removeAll, h]
      rw [enlist, if_pos (List.mem_eraseDups.mpr h), hr, List.eraseDups_nil, List.append_nil]
    · have hr : [s].removeAll others = [s] := by simp [List.removeAll, h]
      rw [enlist, if_neg fun hs => h (List.mem_eraseDups.mp hs), hr, List.eraseDups_cons]
      rfl

/-- Added to symbols without repetitions, a list keeps what is new, once. -/
theorem enlistAll_of_nodup {symbols : List String} (h : symbols.Nodup) (others : List String) :
    enlistAll symbols others = (symbols ++ others).eraseDups := by
  have hsymbols : enlistAll [] symbols = symbols := by
    induction symbols using List.reverseRecOn with
    | nil => rfl
    | append_singleton symbols s ih =>
      obtain ⟨hd, -, hdisj⟩ := List.nodup_append.mp h
      rw [enlistAll_append, ih hd]
      exact if_neg fun hs => hdisj s hs s (List.mem_singleton_self s) rfl
  rw [← enlistAll_nil, enlistAll_append, hsymbols]

/-! ## The entries of a composition -/

theorem findCount?_eq_none {s : String} {entries : List (String × Nat)}
    (h : s ∉ entries.map Prod.fst) : findCount? s entries = none := by
  induction entries with
  | nil => rfl
  | cons e entries ih =>
    rw [List.map_cons, List.mem_cons, not_or] at h
    rw [findCount?, if_neg fun he => h.1 he.symm, ih h.2]

theorem findCount?_of_mem {e : String × Nat} {entries : List (String × Nat)}
    (hd : (entries.map Prod.fst).Nodup) (he : e ∈ entries) :
    findCount? e.1 entries = some e.2 := by
  induction entries with
  | nil => cases he
  | cons x entries ih =>
    rw [List.map_cons, List.nodup_cons] at hd
    rcases List.mem_cons.mp he with rfl | he
    · exact if_pos rfl
    · have hne : x.1 ≠ e.1 := fun h => hd.1 (h ▸ List.mem_map_of_mem he)
      rw [findCount?, if_neg hne, ih hd.2 he]

namespace Composition

/-- The count of an element, zero if it was never added. -/
def amount (c : Composition) (s : String) : Nat := (c.count? s).getD 0

theorem count?_eq (c : Composition) (s : String) :
    c.count? s = if s ∈ c.symbols then some (c.amount s) else none := by
  split
  · rename_i h
    obtain ⟨e, he, rfl⟩ := List.mem_map.mp h
    have hf := findCount?_of_mem c.distinct he
    rw [amount, count?, hf]
    rfl
  · rename_i h
    exact findCount?_eq_none h

/-- A composition is its symbols in order, each with its amount. -/
theorem entries_eq (c : Composition) : c.entries = c.symbols.map fun s => (s, c.amount s) := by
  rw [symbols, List.map_map]
  refine (List.map_id _).symm.trans (List.map_congr_left fun e he => ?_)
  rw [Function.comp, amount, count?, findCount?_of_mem c.distinct he]
  rfl

theorem amount_empty (s : String) : empty.amount s = 0 := rfl

variable {c d : Composition} {symbol : String} {n : Nat}

theorem amount_add? (h : c.add? symbol n = some d) (s : String) :
    d.amount s = c.amount s + if s = symbol then n else 0 := by
  rw [amount, count_add? h]
  split
  · rename_i hs
    rw [hs]
    rfl
  · rfl

theorem symbols_add?_eq (h : c.add? symbol n = some d) : d.symbols = enlist c.symbols symbol :=
  symbols_add? h

/-- The amounts that a list of entries adds to a symbol. -/
def amountIn (s : String) (entries : List (String × Nat)) : Nat :=
  ((entries.filter fun e => e.1 = s).map Prod.snd).sum

theorem amountIn_cons (s : String) (e : String × Nat) (entries : List (String × Nat)) :
    amountIn s (e :: entries) = (if s = e.1 then e.2 else 0) + amountIn s entries := by
  unfold amountIn
  by_cases h : e.1 = s
  · rw [List.filter_cons_of_pos (by simpa using h), if_pos h.symm, List.map_cons, List.sum_cons]
  · rw [List.filter_cons_of_neg (by simpa using h), if_neg fun hs => h hs.symm, Nat.zero_add]

theorem amountIn_entries (c : Composition) (s : String) : amountIn s c.entries = c.amount s := by
  rw [amount, count?]
  have hd := c.distinct
  generalize c.entries = entries at hd
  induction entries with
  | nil => rfl
  | cons e entries ih =>
    rw [List.map_cons, List.nodup_cons] at hd
    rw [amountIn_cons, ih hd.2, findCount?]
    by_cases h : e.1 = s
    · rw [if_pos h, if_pos h.symm, findCount?_eq_none (h ▸ hd.1)]
      rfl
    · rw [if_neg h, if_neg fun hs => h hs.symm, Nat.zero_add]

/-- Adding entries one by one, each so many times. -/
theorem foldlM_add? {entries : List (String × Nat)} {times : Nat}
    (h : entries.foldlM (fun c e => c.add? e.1 (e.2 * times)) c = some d) :
    d.symbols = enlistAll c.symbols (entries.map Prod.fst) ∧
      ∀ s, d.amount s = c.amount s + amountIn s entries * times := by
  induction entries generalizing c with
  | nil =>
    cases h
    exact ⟨rfl, fun s => by rw [amountIn, List.filter_nil]; simp⟩
  | cons e entries ih =>
    rw [List.foldlM_cons] at h
    obtain ⟨c', hc, h⟩ := Option.bind_eq_some_iff.mp h
    obtain ⟨hs, ha⟩ := ih h
    constructor
    · rw [hs, symbols_add?_eq hc]
      rfl
    · intro s
      rw [ha, amount_add? hc, amountIn_cons, Nat.add_mul, Nat.add_assoc]
      split
      · rfl
      · rw [Nat.zero_mul]

/-- Merging appends the symbols that are new. -/
theorem symbols_merge? {group : Composition} {times : Nat} (h : c.merge? group times = some d) :
    d.symbols = enlistAll c.symbols group.symbols :=
  (foldlM_add? h).1

/-- Merging adds the amounts, taken so many times. -/
theorem amount_merge? {group : Composition} {times : Nat} (h : c.merge? group times = some d)
    (s : String) : d.amount s = c.amount s + group.amount s * times := by
  rw [(foldlM_add? h).2, amountIn_entries]

end Composition

end Abacus.Matter
