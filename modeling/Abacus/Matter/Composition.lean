/-!
# Compositions

A composition counts the atoms of each element, in the order in which the elements were first
added. It is what a formula is read as, what a molar mass is computed from, and, while a formula is
being read, what has been counted of every group that is still open.

* Entries have different symbols and counts up to `maxCount`, the greatest number of 64 bits. Both
  are part of the structure, so they are proved once, where an entry is added (`Composition.add?`).
* A symbol is any string. Whether there is such an element is asked by the molar mass, so a formula
  with unknown elements has a composition all the same.
* An element may be counted with no atoms, and has an entry then.
* `Composition.add?` adds atoms of one element, `merge?` all of a group, each so many times over.
  An addition that would pass the bound has no result. Within `merge?` the product is not looked at
  by itself: a product that passes the bound makes the sum pass it.
* `Composition.atoms` is the number of all atoms. It stops at the bound and does not fail.

Results:
* `count_add?`, `symbols_add?`: what is counted after an addition, and in which order.
* `add?_eq_none_iff`: when the addition is refused.
* `saturatingSum_eq`: a sum that stops at the bound is the exact sum cut off at the bound.

Entries that are changed in place, by additions that are accepted or refused in any order, are
`Proofs/Matter/Additions`.
-/

namespace Abacus.Matter

/-- The most atoms that are counted: the greatest number of 64 bits. -/
def maxCount : Nat := UInt64.size - 1

/-- The sum without a bound. -/
def exactSum : List Nat → Nat
  | [] => 0
  | n :: counts => n + exactSum counts

/-- The running sum, held at `maxCount` as soon as it would pass it. -/
def saturatingSum (counts : List Nat) : Nat :=
  counts.foldl (fun sum n => min (sum + n) maxCount) 0

theorem foldl_saturating (counts : List Nat) (start : Nat) (h : start ≤ maxCount) :
    counts.foldl (fun sum n => min (sum + n) maxCount) start =
      min (start + exactSum counts) maxCount := by
  induction counts generalizing start with
  | nil => simp only [List.foldl_nil, exactSum]; omega
  | cons n counts ih =>
    simp only [List.foldl_cons, exactSum]
    rw [ih _ (Nat.min_le_right _ _)]
    omega

/-- Where the sum first passes the bound makes no difference. -/
theorem saturatingSum_eq (counts : List Nat) :
    saturatingSum counts = min (exactSum counts) maxCount := by
  rw [saturatingSum, foldl_saturating counts 0 (Nat.zero_le _), Nat.zero_add]

/-- Adds to the count of a symbol in place; a new symbol goes last. -/
def addEntry (symbol : String) (n : Nat) : List (String × Nat) → List (String × Nat)
  | [] => [(symbol, n)]
  | (s, m) :: rest =>
    if s = symbol then (s, m + n) :: rest else (s, m) :: addEntry symbol n rest

/-- The count of a symbol, none where it has no entry. -/
def findCount? (symbol : String) : List (String × Nat) → Option Nat
  | [] => none
  | (s, m) :: rest => if s = symbol then some m else findCount? symbol rest

/-- The symbols stay as they are, or the new one follows them. -/
theorem map_fst_addEntry (symbol : String) (n : Nat) (entries : List (String × Nat)) :
    (addEntry symbol n entries).map Prod.fst =
      if symbol ∈ entries.map Prod.fst then entries.map Prod.fst
      else entries.map Prod.fst ++ [symbol] := by
  induction entries with
  | nil => simp [addEntry]
  | cons e entries ih =>
    obtain ⟨s, m⟩ := e
    by_cases h : s = symbol
    · simp [addEntry, h]
    · have h' : ¬ symbol = s := fun e => h e.symm
      simp only [addEntry, h, if_false, List.map_cons, ih, List.mem_cons, h', false_or]
      split <;> simp

/-- The count of the symbol itself grows, and every other count stays. -/
theorem findCount?_addEntry (symbol other : String) (n : Nat) (entries : List (String × Nat)) :
    findCount? other (addEntry symbol n entries) =
      if other = symbol then some ((findCount? symbol entries).getD 0 + n)
      else findCount? other entries := by
  induction entries with
  | nil =>
    by_cases h : other = symbol
    · simp [addEntry, findCount?, h]
    · have h' : ¬ symbol = other := fun e => h e.symm
      simp [addEntry, findCount?, h, h']
  | cons e entries ih =>
    obtain ⟨s, m⟩ := e
    by_cases h : s = symbol
    · subst h
      by_cases ho : other = s
      · simp [addEntry, findCount?, ho]
      · have h' : ¬ s = other := fun e => ho e.symm
        simp [addEntry, findCount?, ho, h']
    · by_cases ho : s = other
      · subst ho
        simp [addEntry, findCount?, h]
      · simp [addEntry, findCount?, h, ho, ih]

/-- An entry is new, or has the greater count of its symbol, or was there before. -/
theorem mem_addEntry {symbol : String} {n : Nat} {entries : List (String × Nat)}
    {e : String × Nat} (h : e ∈ addEntry symbol n entries) :
    e = (symbol, (findCount? symbol entries).getD 0 + n) ∨ e ∈ entries := by
  induction entries with
  | nil => simp_all [addEntry, findCount?]
  | cons x entries ih =>
    obtain ⟨s, m⟩ := x
    by_cases hs : s = symbol
    · simp only [addEntry, hs, if_true, List.mem_cons] at h
      rcases h with h | h
      · exact .inl (by simp [h, findCount?, hs])
      · exact .inr (List.mem_cons_of_mem _ h)
    · simp only [addEntry, hs, if_false, List.mem_cons] at h
      rcases h with h | h
      · exact .inr (by simp [h])
      · rcases ih h with h | h
        · exact .inl (by simpa [findCount?, hs] using h)
        · exact .inr (List.mem_cons_of_mem _ h)

/-- The counts of the atoms of each element, in order of first addition. -/
structure Composition where
  entries : List (String × Nat)
  distinct : (entries.map Prod.fst).Nodup
  bounded : ∀ e ∈ entries, e.2 ≤ maxCount
deriving DecidableEq

namespace Composition

/-- Nothing counted yet. -/
def empty : Composition := ⟨[], by simp, by simp⟩

/-- The symbols that were added, in order. -/
def symbols (c : Composition) : List String := c.entries.map Prod.fst

/-- The count of an element, none if it was never added. -/
def count? (c : Composition) (symbol : String) : Option Nat := findCount? symbol c.entries

/-- The number of different elements. -/
def size (c : Composition) : Nat := c.entries.length

/-- No element was added. -/
def isEmpty (c : Composition) : Bool := c.entries.isEmpty

/-- The number of all atoms, at most `maxCount`. -/
def atoms (c : Composition) : Nat := saturatingSum (c.entries.map Prod.snd)

/-- Adds atoms of an element, also none of them; refused if the count would pass the bound. -/
def add? (c : Composition) (symbol : String) (n : Nat) : Option Composition :=
  if h : (findCount? symbol c.entries).getD 0 + n ≤ maxCount then
    some {
      entries := addEntry symbol n c.entries
      distinct := by
        rw [map_fst_addEntry]
        split
        · exact c.distinct
        · rename_i hs
          rw [List.nodup_append]
          refine ⟨c.distinct, by simp, fun a ha b hb => ?_⟩
          rw [List.mem_singleton] at hb
          exact fun e => hs (hb ▸ e ▸ ha)
      bounded := fun e he => by
        rcases mem_addEntry he with rfl | he
        · exact h
        · exact c.bounded e he }
  else none

/-- Adds every count of another composition, each so many times over. -/
def merge? (c : Composition) (group : Composition) (times : Nat) : Option Composition :=
  group.entries.foldlM (fun c e => c.add? e.1 (e.2 * times)) c

/-- An addition is refused exactly if the count would pass the bound. -/
theorem add?_eq_none_iff {c : Composition} {symbol : String} {n : Nat} :
    c.add? symbol n = none ↔ maxCount < (c.count? symbol).getD 0 + n := by
  unfold add? count?
  split <;> simp <;> omega

theorem entries_of_add? {c d : Composition} {symbol : String} {n : Nat}
    (h : c.add? symbol n = some d) : d.entries = addEntry symbol n c.entries := by
  unfold add? at h
  split at h
  · cases h
    rfl
  · cases h

/-- What is counted after an addition. -/
theorem count_add? {c d : Composition} {symbol : String} {n : Nat}
    (h : c.add? symbol n = some d) (other : String) :
    d.count? other =
      if other = symbol then some ((c.count? symbol).getD 0 + n) else c.count? other := by
  rw [count?, entries_of_add? h]
  exact findCount?_addEntry symbol other n c.entries

/-- The order of first addition. -/
theorem symbols_add? {c d : Composition} {symbol : String} {n : Nat}
    (h : c.add? symbol n = some d) :
    d.symbols = if symbol ∈ c.symbols then c.symbols else c.symbols ++ [symbol] := by
  rw [symbols, entries_of_add? h]
  exact map_fst_addEntry symbol n c.entries

end Composition

end Abacus.Matter
