import Abacus.Console.Outcome
import Abacus.Proofs.Console.Plot
import Abacus.Proofs.Double.Places
import Abacus.Proofs.Matter.Total
import Abacus.Proofs.Token.Writing

/-!
# When a table falls apart into its cells

The columns of a table have least widths and nothing between them, so two cells stay apart only
where one of them leaves room in its column. A symbol always does, and so does an atomic mass,
whatever the count between them is. The last column is full as soon as the mass of a share has ten
digits before the point, and then the share's mass stands right behind the atomic mass: its row has
three fields.

* `fields`: the longest parts of a line without a blank; `IsField`: a text that is one by itself.
* `cells`: the cells of a row side by side.
* `Tells`: the fields of a line are the four texts of a share, if the exact value of its mass is
  below `10 ^ 9 - 1 / 2000`, and otherwise three, the last two in one. From there on the mass is
  written with ten digits before the point, as it is rounded to three places.

Results:
* `fields_cells`: the fields of a row.
* `length_fixedText_lt_iff`: the masses that leave room in the last column.
* `tells_shareLine`: the line of any share whose element and count a formula can have.
* `runMolar_fields`: the lines of a table and their fields.
* `runMolar_runs_together`: a row with three fields.

What the masses and counts are is `Proofs/Matter/Masses`. The table as JSON is not looked at here.
-/

namespace Abacus

open Double Matter

/-! ## Fields -/

namespace Console

/-- The longest parts of a line without a blank. -/
def fields (line : List Char) : List (List Char) := (line.splitOnP isBlank).filter (!·.isEmpty)

/-- A text that is a field by itself. -/
structure IsField (w : List Char) : Prop where
  ne_nil : w ≠ []
  solid : ∀ c ∈ w, isBlank c = false

variable {a b c d : String} {w w' : List Char} {k : Nat}

/-- **A line is split at every blank.** -/
theorem fields_append {c : Char} (hc : isBlank c = true) (x y : List Char) :
    fields (x ++ c :: y) = fields x ++ fields y := by
  unfold fields
  rw [List.splitOnP_append_cons x y hc, List.filter_append]

theorem IsField.newline (h : IsField w) : '\n' ∉ w := by
  intro hmem
  have hblank := h.solid _ hmem
  cases hblank

theorem fields_spaces (k : Nat) (y : List Char) :
    fields (List.replicate k ' ' ++ y) = fields y := by
  induction k with
  | zero => rfl
  | succ k ih =>
    rw [List.replicate_succ, List.cons_append]
    exact (fields_append (by decide) [] _).trans ih

theorem IsField.fields_eq (h : IsField w) : fields w = [w] := by
  rw [fields, List.splitOnP_eq_singleton h.solid]
  simp [h.ne_nil]

theorem IsField.append (h : IsField w) (h' : IsField w') : IsField (w ++ w') :=
  ⟨List.append_ne_nil_of_left_ne_nil h.ne_nil _, fun c hc =>
    (List.mem_append.mp hc).elim (h.solid c) (h'.solid c)⟩

/-- A field ends at the spaces behind it, if there are any. -/
theorem IsField.fields_spaces (h : IsField w) (hk : 0 < k) (y : List Char) :
    fields (w ++ (List.replicate k ' ' ++ y)) = w :: fields y := by
  obtain ⟨k, rfl⟩ := Nat.exists_eq_add_of_lt hk
  rw [Nat.zero_add, List.replicate_succ, List.cons_append, fields_append (by decide), h.fields_eq,
    Console.fields_spaces, List.singleton_append]

/-! ## Rows -/

/-- The cells of a row side by side, without the end of the line. -/
def cells (first second third fourth : String) : List Char :=
  first.toList.rightpad 8 ' ' ++ second.toList.leftpad 8 ' ' ++ third.toList.leftpad 14 ' ' ++
    fourth.toList.leftpad 14 ' '

theorem row_eq (a b c d : String) : row a b c d = cells a b c d ++ ['\n'] := rfl

/-- **The fields of a row** whose first and third cell leave room in their columns. The last cell
stays apart if it leaves room too. -/
theorem fields_cells (ha : IsField a.toList) (hb : IsField b.toList) (hc : IsField c.toList)
    (hd : IsField d.toList) (hfirst : a.toList.length < 8) (hthird : c.toList.length < 14) :
    fields (cells a b c d) =
      if d.toList.length < 14 then [a.toList, b.toList, c.toList, d.toList]
      else [a.toList, b.toList, c.toList ++ d.toList] := by
  have hcells : cells a b c d = a.toList ++
      (List.replicate (8 - a.toList.length + (8 - b.toList.length)) ' ' ++ (b.toList ++
        (List.replicate (14 - c.toList.length) ' ' ++ (c.toList ++
          (List.replicate (14 - d.toList.length) ' ' ++ d.toList))))) := by
    simp only [cells, List.rightpad, List.leftpad, List.replicate_add, List.append_assoc]
  rw [hcells, ha.fields_spaces (by omega), hb.fields_spaces (by omega)]
  by_cases hlast : d.toList.length < 14
  · rw [if_pos hlast, hc.fields_spaces (by omega), hd.fields_eq]
  · have hnone : 14 - d.toList.length = 0 := by omega
    rw [if_neg hlast, hnone, List.replicate_zero, List.nil_append, (hc.append hd).fields_eq]

/-- A row of fields is a single line. -/
theorem newline_not_mem_cells (ha : IsField a.toList) (hb : IsField b.toList)
    (hc : IsField c.toList) (hd : IsField d.toList) : '\n' ∉ cells a b c d := by
  have hspaces (k : Nat) : '\n' ∉ List.replicate k ' ' := fun h =>
    absurd (List.eq_of_mem_replicate h) (by decide)
  simp only [cells, List.rightpad, List.leftpad, List.mem_append, not_or]
  exact ⟨⟨⟨⟨ha.newline, hspaces _⟩, hspaces _, hb.newline⟩, hspaces _, hc.newline⟩, hspaces _,
    hd.newline⟩

end Console

/-! ## Masses in their columns -/

open Console

variable {x : Float} {v : Exact} {s : Share} {e : Element}

/-- There is a point before the last places, and a digit before the point. -/
theorem Decimal.length_positional (n : Nat) {k : Nat} (hk : 0 < k) :
    (positional ⟨n, -(k : Int)⟩ false).length = max (k + 1) (Nat.toDigits 10 n).length + 1 := by
  obtain ⟨w, p, happ, -, -, hset⟩ := exists_setPoint k (Nat.toDigits 10 n)
  have hlength := congrArg List.length happ
  have hneg : ¬ (0 : Int) ≤ -(k : Int) := by omega
  rw [List.length_append, List.length_leftpad] at hlength
  unfold positional
  rw [if_neg hneg, Int.neg_neg, Int.toNat_natCast, hset, List.length_append, List.length_cons]
  omega

/-- A mass is written by the digits of its rounding, with its sign. -/
theorem toList_fixedText (hx : Exact.of? x = some v) (places : Nat) :
    (fixedText places x).toList =
      if v.negative then '-' :: (Decimal.rounded places v).positional false
      else (Decimal.rounded places v).positional false := by
  rw [fixedText, hx]
  dsimp only
  rw [String.toList_ofList]

/-- A mass is a field. -/
theorem isField_mass (hx : Exact.of? x = some v) : IsField (fixedText massPlaces x).toList := by
  have hdigits : IsField ((Decimal.rounded massPlaces v).positional false) := by
    refine ⟨fun hnil => ?_, fun c hc => ?_⟩
    · have hlength := congrArg List.length hnil
      rw [Decimal.rounded, Decimal.length_positional _ (by decide)] at hlength
      cases hlength
    · refine Token.not_isBlank_of_numeralChar ?_
      rcases Decimal.mem_positional hc with h | h
      · exact .inl h
      · exact .inr (.inr (.inl h))
  rw [toList_fixedText hx]
  split
  · refine IsField.append (w := ['-']) ⟨List.cons_ne_nil _ _, fun c hc => ?_⟩ hdigits
    rw [List.mem_singleton.mp hc]
    rfl
  · exact hdigits

/-- **The masses that leave room in their column**: those below a billion, also when they are
rounded. -/
theorem length_fixedText_lt_iff (hx : Exact.of? x = some v) (hs : v.negative = false) :
    (fixedText massPlaces x).toList.length < 14 ↔ value v < 10 ^ 9 - 1 / 2000 := by
  have hlength : (fixedText massPlaces x).toList.length =
      max 4 (Nat.toDigits 10 (Decimal.rounded massPlaces v).digits).length + 1 := by
    rw [toList_fixedText hx, hs, if_neg Bool.false_ne_true]
    exact Decimal.length_positional _ (by decide)
  have hdigits : (Nat.toDigits 10 (Decimal.rounded massPlaces v).digits).length ≤ 12 ↔
      (Decimal.rounded massPlaces v).digits < 10 ^ 12 :=
    Nat.length_toDigits_le_iff (by decide) (by decide)
  have hround := (Decimal.rounded_halfEven massPlaces v).lt_iff (n := 10 ^ 12) (by decide)
  have hvalue : value v = point v.mantissa v.exponent := by
    rw [value, hs, if_neg Bool.false_ne_true]
  have hscale : point v.mantissa v.exponent * 10 ^ massPlaces < ((10 ^ 12 : Nat) : ℚ) - 1 / 2 ↔
      point v.mantissa v.exponent < 10 ^ 9 - 1 / 2000 := by
    rw [massPlaces]
    constructor
    · intro h
      push_cast at h
      linarith
    · intro h
      push_cast
      linarith
  have hroom (k : Nat) : max 4 k + 1 < 14 ↔ k ≤ 12 := by omega
  rw [hlength, hroom, hdigits, hround, hscale, hvalue]

/-! ## The other cells -/

/-- The symbols of the table are short words. -/
theorem Matter.Element.symbol_short : ∀ e ∈ Element.all, e.symbol.toList ≠ [] ∧
    (e.symbol.toList.all Char.isAlphanum) = true ∧ e.symbol.toList.length < 8 := by
  decide +kernel

theorem isField_symbol (he : e ∈ Element.all) :
    IsField e.symbol.toList ∧ e.symbol.toList.length < 8 := by
  obtain ⟨hne, hall, hshort⟩ := Element.symbol_short e he
  exact ⟨⟨hne, fun c hc => not_isBlank_of_isAlphanum (List.all_eq_true.mp hall c hc)⟩, hshort⟩

theorem isField_count (n : Nat) : IsField (toString n).toList := by
  change IsField n.repr.toList
  rw [Nat.toList_repr]
  exact ⟨Nat.toDigits_ne_nil, fun c hc =>
    Token.not_isBlank_of_numeralChar (.inl (allDigits_toDigits n c hc))⟩

/-! ## Tables -/

namespace Console

/-- The line of a share without its end. -/
def shareLine (s : Share) : List Char :=
  cells s.symbol (toString s.count) (fixedText massPlaces s.atomicMass)
    (fixedText massPlaces s.mass)

/-- The line of the total without its end. -/
def totalText (m : MolarMass) : List Char :=
  "Total: ".toList ++ (fixedText massPlaces m.total).toList ++ " g/mol".toList

/-- The line is split into symbol, count, atomic mass and mass of the share. From a billion on the
mass does not stand apart from the atomic mass. -/
def Tells (line : List Char) (s : Share) : Prop :=
  ∃ v, Exact.of? s.mass = some v ∧
    fields line = if value v < 10 ^ 9 - 1 / 2000 then
        [s.symbol.toList, Nat.toDigits 10 s.count, (fixedText massPlaces s.atomicMass).toList,
          (fixedText massPlaces s.mass).toList]
      else [s.symbol.toList, Nat.toDigits 10 s.count,
        (fixedText massPlaces s.atomicMass).toList ++ (fixedText massPlaces s.mass).toList]

/-- **The line of a share tells it**, and is a single line. -/
theorem tells_shareLine (h : s.Proper) : Tells (shareLine s) s ∧ '\n' ∉ shareLine s := by
  obtain ⟨e, he, hmass⟩ := h.known
  have hmem := List.mem_of_find?_eq_some he
  have hname : e.symbol = s.symbol := by simpa using List.find?_some he
  obtain ⟨hsymbol, hfirst⟩ := isField_symbol hmem
  rw [hname] at hsymbol hfirst
  have hcount : (toString s.count).toList = Nat.toDigits 10 s.count := Nat.toList_repr
  -- an atomic mass is far below a billion
  have hatomic : UpTo (2 ^ 9) s.atomicMass := hmass ▸ Element.mass_upTo hmem
  obtain ⟨_, ⟨u, hu, rfl⟩, hsmall⟩ := hatomic.stands
  have hthird : (fixedText massPlaces s.atomicMass).toList.length < 14 := by
    refine (length_fixedText_lt_iff hu (hatomic.unsigned u hu)).mpr (hsmall.trans_lt ?_)
    norm_num
  have hproduct := Share.mass_upTo h
  obtain ⟨_, ⟨v, hv, rfl⟩, -⟩ := hproduct.stands
  refine ⟨⟨v, hv, ?_⟩, newline_not_mem_cells hsymbol (isField_count _) (isField_mass hu)
    (isField_mass hv)⟩
  rw [shareLine, fields_cells hsymbol (isField_count _) (isField_mass hu) (isField_mass hv) hfirst
    hthird, hcount]
  exact if_congr (length_fixedText_lt_iff hv (hproduct.unsigned v hv)) rfl rfl

/-- The line of the total is three fields. -/
theorem fields_totalText {m : MolarMass} (hx : Exact.of? m.total = some v) :
    fields (totalText m) =
        ["Total:".toList, (fixedText massPlaces m.total).toList, "g/mol".toList] ∧
      '\n' ∉ totalText m := by
  have htotal := isField_mass hx
  unfold totalText
  generalize (fixedText massPlaces m.total).toList = w at htotal ⊢
  have hbefore : "Total: ".toList = "Total:".toList ++ [' '] := by decide
  have hbehind : " g/mol".toList = ' ' :: "g/mol".toList := by decide
  have hword : fields "Total:".toList = ["Total:".toList] := by decide
  have hunit : fields "g/mol".toList = ["g/mol".toList] := by decide
  constructor
  · rw [hbefore, hbehind, List.append_assoc, List.append_assoc, List.singleton_append,
      fields_append (by decide), fields_append (by decide), htotal.fields_eq, hword, hunit,
      List.singleton_append, List.singleton_append]
  · rw [List.mem_append, List.mem_append]
    exact not_or.mpr ⟨not_or.mpr ⟨by decide, htotal.newline⟩, by decide⟩

/-- The lines of a table, without their ends. -/
def tableLines (m : MolarMass) : List (List Char) :=
  cells "Element" "Count" "g/mol" "Subtotal" :: (m.shares.map shareLine ++ [totalText m])

theorem toList_massText (m : MolarMass) :
    (massText m).toList = (tableLines m).flatMap fun line => line ++ ['\n'] := by
  have hrows : m.shares.flatMap shareRow = (m.shares.map shareLine).flatMap (· ++ ['\n']) := by
    rw [List.flatMap_map]
    rfl
  have htotal : totalLine m = totalText m ++ ['\n'] := by
    have hunit : " g/mol\n".toList = " g/mol".toList ++ ['\n'] := by decide
    rw [MolarMass.totalLine_eq, hunit]
    unfold totalText
    rw [List.append_assoc, List.append_assoc, List.append_assoc]
  rw [massText, String.toList_ofList, massHeader, row_eq, hrows, htotal, tableLines,
    List.flatMap_cons, List.flatMap_append, List.flatMap_singleton, List.append_assoc]

variable {mode : Mode} {text : String} {m : MolarMass}

/-- **The table of a formula has a header, a row for each share in their order, and a total.** Each
row is split into the four texts of its share, unless the mass of the share has ten digits before
the point. Then its last two texts are one field. -/
theorem runMolar_fields (h : MolarMass.read mode text = .ok m) :
    ∃ header rows total,
      (runMolar text mode false).stdout.toList.splitOn '\n' = header :: (rows ++ [total, []]) ∧
      fields header = ["Element".toList, "Count".toList, "g/mol".toList, "Subtotal".toList] ∧
      List.Forall₂ Tells rows m.shares ∧
      fields total = ["Total:".toList, (fixedText massPlaces m.total).toList, "g/mol".toList] := by
  obtain ⟨-, -, -, hproper⟩ := MolarMass.composition_of_read h
  obtain ⟨v, hv, -⟩ := MolarMass.exact_total h
  obtain ⟨htotal, hnewline⟩ := fields_totalText hv
  have hprinted : runMolar text mode false = .printed (massText m) := by
    rw [runMolar, h]
    rfl
  have hlines : ∀ line ∈ tableLines m, '\n' ∉ line := by
    refine List.forall_mem_cons.mpr ⟨by decide, fun line hline => ?_⟩
    rcases List.mem_append.mp hline with hrow | hlast
    · obtain ⟨s, hs, rfl⟩ := List.mem_map.mp hrow
      exact (tells_shareLine (hproper s hs)).2
    · rw [List.mem_singleton.mp hlast]
      exact hnewline
  refine ⟨cells "Element" "Count" "g/mol" "Subtotal", m.shares.map shareLine, totalText m, ?_, ?_,
    ?_, htotal⟩
  · have hsplit := splitOn_lines (f := id) hlines
    rw [List.map_id, tableLines, List.cons_append, List.append_assoc] at hsplit
    rw [hprinted, Outcome.printed, toList_massText]
    exact hsplit
  · decide
  · rw [List.forall₂_map_left_iff, List.forall₂_same]
    exact fun s hs => (tells_shareLine (hproper s hs)).1

/-- A mass that just leaves room in the last column, and the greatest mass of all. -/
theorem runMolar_fields_edge :
    ∃ m, MolarMass.read .strict "U4201151Og18446744073709551615" = .ok m ∧
      (runMolar "U4201151Og18446744073709551615" .strict false).stdout =
        "Element    Count         g/mol      Subtotal\n" ++
        "U        4201151       238.030 999999972.530\n" ++
        "Og      18446744073709551615       294.0005423342757670608175104.000\n" ++
        "Total: 5423342757671608516608.000 g/mol\n" ∧
      ∃ header rows total,
        (runMolar "U4201151Og18446744073709551615" .strict false).stdout.toList.splitOn '\n' =
          header :: (rows ++ [total, []]) ∧
        fields header = ["Element".toList, "Count".toList, "g/mol".toList, "Subtotal".toList] ∧
        List.Forall₂ Tells rows m.shares ∧
        fields total = ["Total:".toList, (fixedText massPlaces m.total).toList, "g/mol".toList] := by
  have hread : MolarMass.read .strict "U4201151Og18446744073709551615" =
      .ok ⟨[⟨"U", 4201151, 238.03⟩, ⟨"Og", 18446744073709551615, 294.0⟩]⟩ := by
    with_unfolding_all rfl
  exact ⟨_, hread, by decide +kernel, runMolar_fields hread⟩

/-- The mass of a share runs into its atomic mass, and three fields are left of four. -/
theorem runMolar_runs_together :
    MolarMass.read .permissive "H1000000000" = .ok ⟨[⟨"H", 1000000000, 1.008⟩]⟩ ∧
      ∃ row, (runMolar "H1000000000" .permissive false).stdout.toList.splitOn '\n' =
          ["Element    Count         g/mol      Subtotal".toList, row,
            "Total: 1008000000.000 g/mol".toList, []] ∧
        fields row = ["H".toList, "1000000000".toList, "1.0081008000000.000".toList] := by
  refine ⟨by with_unfolding_all rfl, "H       1000000000         1.0081008000000.000".toList, ?_,
    ?_⟩
  · decide +kernel
  · decide

end Console

end Abacus
