import Abacus.Console.Report
import Abacus.Proofs.Decimal.Writing
import Abacus.Proofs.Double.Bounds
import Abacus.Proofs.Matter.Masses

/-!
# The total of a molar mass

There are no more shares than elements in the periodic table, an atomic mass is below `2 ^ 9` and a
count below `2 ^ 64`. So the running sum stays far from an overflow whatever the counts are, and
every total is finite and not negative. The sum starts at the negative zero, and the first share
takes the sign away, also if its mass is zero. The sign is seen where there is no share at all: the
total of a formula without an element is a negative zero, and its line shows it.

* `Share.Proper`: what is known of a share of a formula that is read. Its element is in the table,
  and its count is within the bound.
* `Double.UpTo`, `Double.Stands`: the value of a double, not negative and up to a bound, or exactly
  so much. Rounded operations are handled by these.

Results:
* `Share.mass_upTo`: the bound of a single share.
* `foldl_mass`: what adding shares to a sum does, whatever was summed before.
* `length_shares_le`: there are no more shares than elements.
* `MolarMass.read_total`: the total of a formula, and the sign of its line.
* `MolarMass.total_of_blank`: the total of a formula without elements has a minus sign.

Nothing is said of how near the total is to the sum of the exact masses.
-/

namespace Abacus.Matter

open Double

variable {mode : Mode} {text : String} {c : Composition} {m : MolarMass}

/-! ## Shares -/

/-- The masses of the table are without sign and small. -/
theorem Element.mass_small : ∀ e ∈ Element.all, (Exact.of? e.mass).any fun v =>
    !v.negative && decide (v.mantissa < 2 ^ 53) && decide (v.exponent ≤ -44) := by
  decide +kernel

theorem Element.mass_upTo {e : Element} (h : e ∈ Element.all) : UpTo (2 ^ 9) e.mass := by
  have hsmall := Element.mass_small e h
  obtain ⟨v, hv⟩ : ∃ v, Exact.of? e.mass = some v := by
    cases hv : Exact.of? e.mass with
    | none =>
      rw [hv] at hsmall
      cases hsmall
    | some v => exact ⟨v, rfl⟩
  rw [hv] at hsmall
  simp only [Option.any_some, Bool.and_eq_true, Bool.not_eq_true', decide_eq_true_eq] at hsmall
  obtain ⟨⟨hsign, hm⟩, he⟩ := hsmall
  refine ⟨fun w hw => ?_, value v, ⟨v, hv, rfl⟩, ?_⟩
  · rw [hv] at hw
    cases hw
    exact hsign
  · have hm : (v.mantissa : ℚ) ≤ 2 ^ 53 := by exact_mod_cast hm.le
    rw [value, hsign, if_neg Bool.false_ne_true, point]
    calc (v.mantissa : ℚ) * 2 ^ v.exponent ≤ 2 ^ 53 * 2 ^ (-44 : Int) :=
          mul_le_mul hm (unit_le he) (unit_pos _).le (by positivity)
      _ = 2 ^ 9 := by norm_num

/-- The share is of a known element with the mass of the table, and its count is not above the
bound. -/
structure Share.Proper (s : Share) : Prop where
  known : ∃ e, Element.ofSymbol? s.symbol = some e ∧ s.atomicMass = e.mass
  bounded : s.count ≤ maxCount

/-- **The mass of a share is without sign and not above `2 ^ 73`.** -/
theorem Share.mass_upTo {s : Share} (h : s.Proper) : UpTo (point 1 73) s.mass := by
  obtain ⟨e, he, hmass⟩ := h.known
  have hcount : (s.count : ℚ) ≤ 2 ^ 64 := by
    have hle : s.count ≤ 2 ^ 64 := h.bounded.trans (by decide)
    exact_mod_cast hle
  have hpoint (k : Nat) : point 1 k = 2 ^ k := by rw [point, Nat.cast_one, one_mul, zpow_natCast]
  have hgrid (k : Nat) : OnGrid (point 1 k) := .of_lt (by decide) (by omega)
  have hsize (k : Nat) (hk : k ≤ 971) : point 1 k < overflow :=
    point_lt_overflow (by decide) (by omega) (by omega)
  have hnat : UpTo (point 1 (64 : Nat)) (Float.ofNat s.count) :=
    .ofNat (by rw [hpoint]; exact hcount) (hgrid 64) (hsize 64 (by decide))
  have helement : UpTo (point 1 (9 : Nat)) s.atomicMass := by
    rw [hpoint, hmass]
    exact Element.mass_upTo (List.mem_of_find?_eq_some he)
  have hmul : point 1 (9 : Nat) * point 1 (64 : Nat) = point 1 (73 : Nat) := by
    rw [hpoint, hpoint, hpoint, ← pow_add]
  have h := helement.mul hnat (hmul ▸ hgrid 73) (hmul ▸ hsize 73 (by decide))
  rwa [hmul] at h

namespace MolarMass

/-! ## Sums of shares -/

/-- **Adding shares to a sum.** The sum stays finite and not negative, and one share is enough to
take the sign of a zero away. -/
theorem foldl_mass {shares : List Share} (h : ∀ s ∈ shares, s.Proper) {start : Float} {a : ℚ}
    {k : Nat} (hstart : Stands start a) (h0 : 0 ≤ a) (hk : a ≤ point k 73)
    (hlength : k + shares.length < 2 ^ 53) :
    (∃ b, Stands (shares.foldl (fun sum s => sum + s.mass) start) b ∧ 0 ≤ b) ∧
      (shares ≠ [] → Unsigned (shares.foldl (fun sum s => sum + s.mass) start)) := by
  induction shares generalizing start a k with
  | nil => exact ⟨⟨a, hstart, h0⟩, fun h => absurd rfl h⟩
  | cons s shares ih =>
    obtain ⟨hs, hrest⟩ := List.forall_mem_cons.mp h
    rw [List.length_cons] at hlength
    have hk1 : k + 1 < 2 ^ 53 := by omega
    have hbound : point k 73 + point 1 73 = point (k + 1) 73 := by
      rw [point_succ k, point, point, Nat.cast_one, one_mul]
    have hgrid : OnGrid (point (k + 1) 73) := .of_lt hk1 (by decide)
    have hsize : point (k + 1) 73 < overflow := point_lt_overflow hk1 (by decide) (by decide)
    have hsum := UpTo.add hstart h0 hk (Share.mass_upTo hs) (hbound ▸ hgrid) (hbound ▸ hsize)
    rw [hbound] at hsum
    obtain ⟨b, hb, hle⟩ := hsum.stands
    have hb0 := nonneg_of_unsigned hb hsum.unsigned
    obtain ⟨hvalue, hsign⟩ := ih hrest hb hb0 hle (by omega)
    refine ⟨hvalue, fun _ => ?_⟩
    rw [List.foldl_cons]
    rcases eq_or_ne shares [] with rfl | hne
    · exact hsum.unsigned
    · exact hsign hne

/-! ## The shares of a formula -/

/-- The shares of entries are their symbols and counts with the masses of the table. -/
theorem shares_of_mapM {entries : List (String × Nat)} {shares : List Share}
    (h : entries.mapM share = .ok shares) :
    shares.map (fun s => (s.symbol, s.count)) = entries ∧
      ∀ s ∈ shares, ∃ e, Element.ofSymbol? s.symbol = some e ∧ s.atomicMass = e.mass := by
  induction entries generalizing shares with
  | nil =>
    cases h
    exact ⟨rfl, nofun⟩
  | cons entry entries ih =>
    rw [List.mapM_cons] at h
    obtain ⟨s, hs, h⟩ := Except.bind_eq_ok.mp h
    obtain ⟨rest, hrest, h⟩ := Except.bind_eq_ok.mp h
    cases h
    obtain ⟨hmap, hmass⟩ := ih hrest
    unfold share at hs
    split at hs
    · rename_i e he
      cases hs
      exact ⟨congrArg _ hmap, List.forall_mem_cons.mpr ⟨⟨e, he, rfl⟩, hmass⟩⟩
    · cases hs

/-- The shares of a formula have the symbols and counts of its composition. -/
theorem composition_of_read (h : read mode text = .ok m) :
    ∃ c, Formula.read mode text = .ok c ∧
      m.shares.map (fun s => (s.symbol, s.count)) = c.entries ∧ ∀ s ∈ m.shares, s.Proper := by
  obtain ⟨c, hc, h⟩ := Except.bind_eq_ok.mp h
  obtain ⟨shares, hshares, h⟩ := Except.bind_eq_ok.mp h
  cases h
  obtain ⟨hmap, hmass⟩ := shares_of_mapM hshares
  refine ⟨c, hc, hmap, fun s hs => ⟨hmass s hs, c.bounded (s.symbol, s.count) ?_⟩⟩
  rw [← hmap]
  exact List.mem_map_of_mem hs

/-- **No more shares than elements**, since symbols are not repeated. -/
theorem length_shares_le (h : read mode text = .ok m) : m.shares.length ≤ 118 := by
  obtain ⟨c, -, hmap, hproper⟩ := composition_of_read h
  have hsymbols : m.shares.map Share.symbol = c.entries.map Prod.fst := by
    rw [← hmap, List.map_map]
    rfl
  have hsub : m.shares.map Share.symbol ⊆ Element.all.map Element.symbol := by
    intro symbol hmem
    obtain ⟨s, hs, rfl⟩ := List.mem_map.mp hmem
    obtain ⟨e, he, -⟩ := (hproper s hs).known
    have hname : e.symbol = s.symbol := by simpa using List.find?_some he
    rw [← hname]
    exact List.mem_map_of_mem (List.mem_of_find?_eq_some he)
  have hnodup : (m.shares.map Share.symbol).Nodup := hsymbols ▸ c.distinct
  calc m.shares.length = (m.shares.map Share.symbol).length := (List.length_map _).symm
    _ ≤ (Element.all.map Element.symbol).length := (hnodup.subperm hsub).length_le
    _ = 118 := rfl

/-- There are no shares exactly where no element stands. -/
theorem shares_eq_nil_iff (h : read mode text = .ok m) :
    m.shares = [] ↔ occurrences text.toList = [] := by
  obtain ⟨c, hc, hmap, -⟩ := composition_of_read h
  rw [← List.map_eq_nil_iff (f := fun s : Share => (s.symbol, s.count)), hmap,
    ← List.map_eq_nil_iff (f := Prod.fst)]
  change c.symbols = [] ↔ _
  constructor
  · intro hnil
    refine List.eq_nil_iff_forall_not_mem.mpr fun o ho => ?_
    have hmem := (Formula.mem_symbols_of_read hc).mpr ⟨o, ho, rfl⟩
    rw [hnil] at hmem
    cases hmem
  · intro hnil
    rw [Formula.symbols_of_read hc, hnil]
    rfl

/-! ## The total -/

theorem exact_zero : Exact.of? (-0.0) = some ⟨true, 0, 0⟩ := by decide +kernel

/-- The sign of the total tells whether there is a share. -/
theorem exact_total (h : read mode text = .ok m) :
    ∃ v, Exact.of? m.total = some v ∧ 0 ≤ value v ∧ (v.negative = true ↔ m.shares = []) := by
  obtain ⟨-, -, -, hproper⟩ := composition_of_read h
  have hstart : Stands (-0.0) 0 := ⟨_, exact_zero, by norm_num [value, point]⟩
  have hlength := length_shares_le h
  obtain ⟨⟨b, ⟨v, hv, rfl⟩, hb⟩, hsign⟩ :=
    foldl_mass hproper (k := 0) hstart le_rfl (point_nonneg 0 73) (by omega)
  refine ⟨v, hv, hb, ?_⟩
  by_cases hnil : m.shares = []
  · rw [hnil, List.foldl_nil, exact_zero] at hv
    cases hv
    exact iff_of_true rfl hnil
  · rw [hsign hnil v hv]
    exact iff_of_false Bool.false_ne_true hnil

theorem totalLine_eq (m : MolarMass) : Console.totalLine m = "Total: ".toList ++
    (fixedText Console.massPlaces m.total).toList ++ " g/mol\n".toList := by
  rw [Console.totalLine, String.toList_append, String.toList_append]
  rfl

/-- A minus sign in the line of the total is the sign of the total. -/
theorem minus_mem_totalLine {v : Exact} (hv : Exact.of? m.total = some v) :
    '-' ∈ Console.totalLine m ↔ v.negative = true := by
  have hbefore : '-' ∉ "Total: ".toList := by decide
  have hbehind : '-' ∉ " g/mol\n".toList := by decide
  have hdigits := Decimal.minus_not_mem_positional (Decimal.rounded Console.massPlaces v) false
  rw [totalLine_eq, List.mem_append, List.mem_append, or_iff_left hbehind, or_iff_right hbefore,
    fixedText, hv]
  dsimp only
  rw [String.toList_ofList]
  cases v.negative with
  | true => exact iff_of_true List.mem_cons_self rfl
  | false => exact iff_of_false hdigits Bool.false_ne_true

/-- **The total of a formula is finite and not negative**, whatever the counts are. Its sign bit,
and with it a minus sign in the line of the total, is set exactly where no element stands in the
text. -/
theorem read_total (h : read mode text = .ok m) :
    m.total.isFinite = true ∧
      ∃ v, Exact.of? m.total = some v ∧ 0 ≤ value v ∧
        (v.negative = true ↔ occurrences text.toList = []) ∧
        ('-' ∈ Console.totalLine m ↔ occurrences text.toList = []) := by
  obtain ⟨v, hv, hvalue, hsign⟩ := exact_total h
  rw [shares_eq_nil_iff h] at hsign
  exact ⟨Stands.isFinite ⟨v, hv, rfl⟩, v, hv, hvalue, hsign, (minus_mem_totalLine hv).trans hsign⟩

/-- The greatest count beside a share without mass. -/
theorem read_total_greatest :
    ∃ m, read .strict "H0U18446744073709551615" = .ok m ∧ m.total.isFinite = true ∧
      (∃ v, Exact.of? m.total = some v ∧ 0 ≤ value v ∧ v.negative = false) ∧
      '-' ∉ Console.totalLine m := by
  have hread : read .strict "H0U18446744073709551615" =
      .ok ⟨[⟨"H", 0, 1.008⟩, ⟨"U", 18446744073709551615, 238.03⟩]⟩ := by
    with_unfolding_all rfl
  have hsome : occurrences "H0U18446744073709551615".toList ≠ [] := by
    intro h
    have := congrArg List.length h
    revert this
    decide +kernel
  obtain ⟨hfin, v, hv, hvalue, hsign, hline⟩ := read_total hread
  exact ⟨_, hread, hfin, ⟨v, hv, hvalue, Bool.eq_false_iff.mpr (hsign.not.mpr hsome)⟩,
    hline.not.mpr hsome⟩

/-- Without an element the total is the zero that the sum starts at, and its sign is written. -/
theorem total_of_blank :
    ∃ m, read .permissive "" = .ok m ∧ Exact.of? m.total = some ⟨true, 0, 0⟩ ∧
      Console.totalLine m = "Total: -0.000 g/mol\n".toList := by
  refine ⟨⟨[]⟩, by with_unfolding_all rfl, exact_zero, by decide +kernel⟩

end MolarMass

end Abacus.Matter
