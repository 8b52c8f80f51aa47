import Abacus.Matter.MolarMass
import Abacus.Proofs.Matter.Counting
import Mathlib.Algebra.BigOperators.Group.List.Basic

/-!
# The molar mass of a formula

A formula that is not read has no mass, whatever elements it names. Of one that is read, the
elements are looked up in the order of their first occurrence, so the first unknown one in the text
is reported. If all are known, each has a share with its exact count and the mass of the table, and
all counts together are the atoms of the formula.

* `Known`: the symbol is in the table of elements.
* A share (`MolarMass.Share`) holds the symbol, the count and the atomic mass. Its own mass is their
  product as doubles, and is not the business of this module.
* The atoms are a number of 64 bits. Where the counts of several elements pass the bound together,
  it stays at the bound, and no error is given.

The reader of formulas gives a symbol for every capital letter, with the small letter behind it if
there is one. Whether there is such an element is asked only after the whole text was read.

Results:
* `mapM_share`: the shares of entries whose elements are all known.
* `exists_eraseDups_append`: the first unknown occurrence is the first unknown symbol.
* `sum_total`: the counts of the elements are the atoms of the occurrences.
* `MolarMass.read_spec`: what the molar mass of a formula is.

The total and its sign are `Proofs/Matter/Total`, and the table on the screen is
`Proofs/Console/Table`.
-/

namespace Abacus.Matter

/-- The element is in the periodic table. -/
def Known (symbol : String) : Prop := (Element.ofSymbol? symbol).isSome = true

instance decidableKnown (symbol : String) : Decidable (Known symbol) :=
  inferInstanceAs (Decidable (_ = true))

variable {mode : Mode} {text : String} {c : Composition} {os : List Occurrence}

/-! ## Looking up -/

namespace MolarMass

theorem share_of_known {entry : String × Nat} (h : Known entry.1) :
    ∃ e, Element.ofSymbol? entry.1 = some e ∧ share entry = .ok ⟨entry.1, entry.2, e.mass⟩ := by
  obtain ⟨e, he⟩ := Option.isSome_iff_exists.mp h
  exact ⟨e, he, by rw [share, he]⟩

/-- **Entries of known elements have shares** with the same symbols and counts and the masses of the
table. -/
theorem mapM_share {entries : List (String × Nat)} (h : ∀ e ∈ entries, Known e.1) :
    ∃ shares, entries.mapM share = .ok shares ∧
      shares.map (fun s => (s.symbol, s.count)) = entries ∧
      ∀ s ∈ shares, ∃ e, Element.ofSymbol? s.symbol = some e ∧ s.atomicMass = e.mass := by
  induction entries with
  | nil => exact ⟨[], rfl, rfl, nofun⟩
  | cons entry entries ih =>
    obtain ⟨e, he, hshare⟩ := share_of_known (h entry List.mem_cons_self)
    obtain ⟨shares, hok, hmap, hmass⟩ := ih fun e he => h e (List.mem_cons_of_mem _ he)
    refine ⟨⟨entry.1, entry.2, e.mass⟩ :: shares, ?_, ?_, ?_⟩
    · rw [List.mapM_cons, hshare]
      exact Except.bind_of_ok hok _
    · rw [List.map_cons, hmap]
    · exact List.forall_mem_cons.mpr ⟨⟨e, he, rfl⟩, hmass⟩

/-- The first unknown element is reported. -/
theorem mapM_share_unknown {before after : List (String × Nat)} {s : String} {n : Nat}
    (h : ∀ e ∈ before, Known e.1) (hs : Element.ofSymbol? s = none) :
    (before ++ (s, n) :: after).mapM share = .error (.unknownElement s) := by
  obtain ⟨shares, hok, -⟩ := mapM_share h
  have hshare : share (s, n) = .error (.unknownElement s) := by rw [share, hs]
  rw [List.mapM_append, hok, List.mapM_cons, hshare]
  rfl

end MolarMass

/-! ## The first unknown symbol -/

/-- Where a symbol first occurs, it is listed behind those that occur before. -/
theorem exists_eraseDups_append {before : List String} {s : String} (h : s ∉ before)
    (after : List String) :
    ∃ more, (before ++ s :: after).eraseDups = before.eraseDups ++ s :: more := by
  have hnew : before.contains s = false :=
    Bool.eq_false_iff.mpr fun hs => h (List.contains_iff_mem.mp hs)
  rw [List.eraseDups_append, List.cons_removeAll, if_pos hnew, List.eraseDups_cons]
  exact ⟨_, rfl⟩

/-! ## The sum of the counts -/

/-- What is added for one symbol of a list without repetitions is added once. -/
theorem sum_ite {symbols : List String} (hd : symbols.Nodup) {s : String} (hs : s ∈ symbols)
    (n : Nat) : (symbols.map fun t => if t = s then n else 0).sum = n := by
  induction symbols with
  | nil => cases hs
  | cons t symbols ih =>
    obtain ⟨ht, hd⟩ := List.nodup_cons.mp hd
    rw [List.map_cons, List.sum_cons]
    by_cases hts : t = s
    · subst hts
      have hzero : ∀ k ∈ symbols.map fun u => if u = t then n else 0, k = 0 := by
        intro k hk
        obtain ⟨u, hu, rfl⟩ := List.mem_map.mp hk
        refine if_neg ?_
        rintro rfl
        exact ht hu
      rw [if_pos rfl, List.sum_eq_zero hzero, Nat.add_zero]
    · rw [if_neg hts, Nat.zero_add]
      exact ih hd ((List.mem_cons.mp hs).resolve_left fun h => hts h.symm)

/-- **The counts of the elements are the atoms of the occurrences.** -/
theorem sum_total {symbols : List String} (hd : symbols.Nodup)
    (hs : ∀ o ∈ os, o.symbol ∈ symbols) :
    (symbols.map fun s => total s os).sum = (os.map Occurrence.atoms).sum := by
  induction os with
  | nil => exact List.sum_eq_zero fun k hk => (List.mem_map.mp hk).elim fun _ h => h.2.symm
  | cons o os ih =>
    obtain ⟨ho, hs⟩ := List.forall_mem_cons.mp hs
    rw [List.map_cons, List.sum_cons, ← ih hs, ← sum_ite hd ho o.atoms, ← List.sum_map_add]
    exact congrArg List.sum (List.map_congr_left fun s _ => total_cons s o os)

/-- The symbols of a formula are those of its occurrences. -/
theorem Formula.mem_symbols_of_read (h : Formula.read mode text = .ok c) {s : String} :
    s ∈ c.symbols ↔ ∃ o ∈ occurrences text.toList, o.symbol = s := by
  rw [symbols_of_read h, List.mem_eraseDups, List.mem_map]

/-- The atoms of a formula are those of its occurrences, up to the bound. -/
theorem Formula.atoms_of_read (h : Formula.read mode text = .ok c) :
    c.atoms = min ((occurrences text.toList).map Occurrence.atoms).sum maxCount := by
  have hcounts : c.entries.map Prod.snd =
      c.symbols.map fun s => total s (occurrences text.toList) := by
    rw [c.entries_eq, List.map_map]
    exact List.map_congr_left fun s _ => amount_of_read h s
  have hmem : ∀ o ∈ occurrences text.toList, o.symbol ∈ c.symbols := fun o ho =>
    (mem_symbols_of_read h).mpr ⟨o, ho, rfl⟩
  have hd : c.symbols.Nodup := c.distinct
  rw [Composition.atoms, saturatingSum_eq, exactSum_eq, hcounts, sum_total hd hmem]

/-! ## A whole formula -/

namespace MolarMass

/-- The first occurrence of an unknown element is reported. -/
theorem ofComposition_unknown (h : Formula.read mode text = .ok c) {before after : List Occurrence}
    {o : Occurrence} (hos : occurrences text.toList = before ++ o :: after)
    (hbefore : ∀ p ∈ before, Known p.symbol) (ho : Element.ofSymbol? o.symbol = none) :
    ofComposition c = .error (.unknownElement o.symbol) := by
  have hnew : o.symbol ∉ before.map Occurrence.symbol := by
    intro hmem
    obtain ⟨p, hp, hsymbol⟩ := List.mem_map.mp hmem
    have hknown := hbefore p hp
    rw [Known, hsymbol, ho] at hknown
    cases hknown
  obtain ⟨more, hmore⟩ := exists_eraseDups_append hnew (after.map Occurrence.symbol)
  have hsymbols : c.symbols = (before.map Occurrence.symbol).eraseDups ++ o.symbol :: more := by
    rw [Formula.symbols_of_read h, hos, List.map_append, List.map_cons, hmore]
  have hfirst : ∀ e ∈ (before.map Occurrence.symbol).eraseDups.map fun s => (s, c.amount s),
      Known e.1 := by
    intro e he
    obtain ⟨s, hs, rfl⟩ := List.mem_map.mp he
    obtain ⟨p, hp, rfl⟩ := List.mem_map.mp (List.mem_eraseDups.mp hs)
    exact hbefore p hp
  rw [ofComposition, c.entries_eq, hsymbols, List.map_append, List.map_cons,
    mapM_share_unknown hfirst ho]
  rfl

/-- **The molar mass of a formula.** A formula that is not read is refused for the same reason,
whatever elements it names. Of a formula that is read, the first occurrence of an unknown element is
reported. If every element is known, there is one share for each, in the order of first occurrence,
with the exact count and the mass of the table, and all atoms are counted, up to the bound. -/
theorem read_spec (mode : Mode) (text : String) :
    (∀ e, Formula.read mode text = .error e → read mode text = .error e) ∧
    ∀ c, Formula.read mode text = .ok c →
      (∀ before o after, occurrences text.toList = before ++ o :: after →
        (∀ p ∈ before, Known p.symbol) → Element.ofSymbol? o.symbol = none →
        read mode text = .error (.unknownElement o.symbol)) ∧
      ((∀ o ∈ occurrences text.toList, Known o.symbol) →
        ∃ m, read mode text = .ok m ∧
          m.shares.map Share.symbol =
            ((occurrences text.toList).map Occurrence.symbol).eraseDups ∧
          (∀ s ∈ m.shares, s.count = Matter.total s.symbol (occurrences text.toList) ∧
            ∃ e, Element.ofSymbol? s.symbol = some e ∧ s.atomicMass = e.mass) ∧
          m.atoms = c.atoms ∧
          m.atoms = min ((occurrences text.toList).map Occurrence.atoms).sum maxCount) := by
  refine ⟨fun e he => Except.bind_eq_error.mpr (.inl he), fun c hc => ⟨?_, fun hknown => ?_⟩⟩
  · intro before o after hos hbefore ho
    exact (Except.bind_of_ok hc _).trans (ofComposition_unknown hc hos hbefore ho)
  · have hentries : ∀ e ∈ c.entries, Known e.1 := by
      intro e he
      obtain ⟨o, ho, hsymbol⟩ := (Formula.mem_symbols_of_read hc).mp (List.mem_map_of_mem he)
      exact hsymbol ▸ hknown o ho
    obtain ⟨shares, hok, hmap, hmass⟩ := mapM_share hentries
    have hread : read mode text = .ok ⟨shares⟩ :=
      (Except.bind_of_ok hc _).trans (Except.bind_of_ok hok _)
    have hatoms : atoms ⟨shares⟩ = c.atoms := by
      rw [atoms, Composition.atoms, ← hmap, List.map_map]
      rfl
    have hsymbols : shares.map Share.symbol = c.symbols := by
      rw [Composition.symbols, ← hmap, List.map_map]
      rfl
    refine ⟨⟨shares⟩, hread, hsymbols.trans (Formula.symbols_of_read hc),
      fun s hs => ⟨?_, hmass s hs⟩, hatoms, hatoms.trans (Formula.atoms_of_read hc)⟩
    have hentry : (s.symbol, s.count) ∈ c.entries := hmap ▸ List.mem_map_of_mem hs
    rw [c.entries_eq] at hentry
    obtain ⟨t, -, ht⟩ := List.mem_map.mp hentry
    obtain ⟨hsymbol, hcount⟩ := Prod.mk.inj ht
    rw [← hcount, ← hsymbol]
    exact Formula.amount_of_read hc t

/-- An unknown element is reported though none of its atoms is taken, and before another that
follows it; two counts with a sum beyond the bound are held at the bound. -/
theorem read_spec_bound :
    read .strict "H2(OQ0)0X" = .error (.unknownElement "Q") ∧
      ∃ m, read .strict "(H18446744073709551615O)1H0" = .ok m ∧
        m.shares.map Share.symbol = ["H", "O"] ∧ m.atoms = 18446744073709551615 := by
  have hunknown : Formula.read .strict "H2(OQ0)0X" =
      .ok ⟨[("H", 2), ("O", 0), ("Q", 0), ("X", 1)], by decide, by decide⟩ := by
    with_unfolding_all rfl
  have hknown : Formula.read .strict "(H18446744073709551615O)1H0" =
      .ok ⟨[("H", 18446744073709551615), ("O", 1)], by decide, by decide⟩ := by
    with_unfolding_all rfl
  obtain ⟨-, hspec⟩ := read_spec .strict "H2(OQ0)0X"
  obtain ⟨-, hspec'⟩ := read_spec .strict "(H18446744073709551615O)1H0"
  obtain ⟨hreported, -⟩ := hspec _ hunknown
  obtain ⟨-, hshares⟩ := hspec' _ hknown
  obtain ⟨m, hm, hsymbols, -, -, hatoms⟩ := hshares (by decide +kernel)
  refine ⟨hreported [⟨"H", 2, []⟩, ⟨"O", 1, [0]⟩] ⟨"Q", 0, [0]⟩ [⟨"X", 1, []⟩] rfl ?_ ?_,
    m, hm, hsymbols.trans ?_, hatoms.trans ?_⟩
  · decide +kernel
  · decide +kernel
  · decide +kernel
  · decide +kernel

end MolarMass

end Abacus.Matter
