import Abacus.Proofs.Grammar.Exactness
import Abacus.Proofs.Grammar.Refusal
import Abacus.Proofs.Token.Writing

/-!
# The limits of an expression

An expression is refused for its size alone in two cases: groups, calls, signs and exponents are
nested too deep in it, or it holds too many operators and calls. This module says where both
limits lie and what an error that names one of them tells about the text.

The reader counts its levels where it reads an operand with the signs in front of it (`unary`), and
refuses the 257th. Two things follow that the name of the limit does not say:

* The outermost operand is a level too. So what is accepted is nested at most 255 deep, not 256,
  and an expression that is nested exactly 256 deep is refused as one nested deeper than 256 levels.
* An exponent is read with signs of its own and is a level, like a group. A tower of powers is
  refused for its height though no parenthesis, call or sign stands in it.

The number of operators and calls is compared after each is counted, and there the limit is met
exactly: 2048 are accepted.

Results:
* `parse_of_derives`: what becomes of an expression with at most 2048 operators and calls.
* `parse_limits`: the same, and what either error says of the tokens of any text.
* `parse_tower`, `parse_groups`, `parse_percents`: the two limits met and passed by one, over towers
  of powers, groups around a number, and percent signs behind one.
* `groups_refused`: an expression nested as deep as the limit says, and refused.

Out of scope: which of the two errors an expression with more than 2048 operators and calls is given
where it is nested too deep as well, and what a text that is no expression is refused for
(`Proofs/Grammar/Blame`). The depth itself is defined in `Proofs/Grammar/Nesting`, on tokens that
need not be an expression.
-/

namespace Abacus

open Term.Grammar Term.Parser

namespace Term

variable {free : Option String} {ts : List Lexeme} {e : Error}

theorem ofLexemes_refused (h : ofLexemes free ts = .error e) :
    Blamed e (nesting (tokens ts)) (operationTokens (tokens ts)) := by
  unfold ofLexemes at h
  split at h
  · cases h
  · rcases Except.bind_eq_error.mp h with h | ⟨⟨t, rest, m, hlt⟩, -, h⟩
    · exact (additive_refused [] h rfl).mono (Nat.le_refl _) (Nat.le_of_eq (Nat.zero_add _))
    · dsimp only at h
      split at h
      · cases h
      · cases h
        trivial
      · cases h
        trivial

/-- An error of the grammar is found among the tokens. -/
theorem exists_tokens_of_parse {d : Dialect} {text : String} (h : parse d text = .error e)
    (hkind : e.kind ≠ .lexical) :
    ∃ ts, Token.scan d.alphabet text = .ok ts ∧ ofLexemes d.free ts = .error e := by
  rcases Except.bind_eq_error.mp h with h | ⟨ts, hscan, h⟩
  · exact absurd (Token.kind_of_scan h) hkind
  · exact ⟨ts, hscan, h⟩

/-- **An expression is read, or is nested too deep**, as long as it does not hold too many operators
and calls. -/
theorem parse_of_derives {d : Dialect} {text : String} {n : Nat} {t : Term}
    (hscan : Token.scan d.alphabet text = .ok ts) (hd : Derives d.free n (.sum t) (tokens ts) [])
    (hops : t.operations ≤ 2048) :
    parse d text =
      if nesting (tokens ts) ≤ 255 then .ok t else .error (.nestingTooDeep 256) := by
  have hne : ts ≠ [] := by
    rintro rfl
    obtain ⟨s, others, h, -⟩ := hd.begins
    cases h
  rw [parse, Except.bind_of_ok hscan]
  rcases ofLexemes_of_derives (hd.of_nesting (Nat.le_refl _)) hops with h | ⟨h, hdeep⟩
  · have hle := (derives_of_ofLexemes hne h).1.nesting_le
    rw [h, if_pos hle]
  · rw [h, if_neg (Nat.not_le.mpr hdeep)]
    rfl

/-- The same of characters that are cut into derived tokens. -/
theorem parse_of_scans {d : Dialect} {cs : List Char} {us : List Token} {n : Nat} {t : Term}
    (hs : Token.Scans d.alphabet cs us) (hd : Derives d.free n (.sum t) us [])
    (hops : t.operations ≤ 2048) :
    parse d (String.ofList cs) =
      if nesting us ≤ 255 then .ok t else .error (.nestingTooDeep 256) := by
  obtain ⟨ts, rfl, hscan⟩ := Token.scan_of_scans hs
  exact parse_of_derives hscan hd hops

/-! ## Digits -/

/-- A digit is scanned as its number. -/
theorem scans_digit {c : Char} {n : Nat} (hc : c.isDigit = true)
    (hn : Decimal.read? [c] = some ⟨n, 0⟩) :
    Token.Scans .scientific [c] [.number (Decimal.toFloat ⟨n, 0⟩)] := by
  have hdigits : AllDigits [c] := by
    intro d hd
    rw [List.mem_singleton.mp hd]
    exact hc
  exact Token.Scans.significand (.whole hdigits (List.cons_ne_nil _ _)) hn

/-! ## Towers of powers -/

/-- The literal of a tower. -/
def two : Float := Decimal.toFloat ⟨2, 0⟩

/-- Two to the power of two, and so on, with so many exponents. -/
def tower : Nat → Term
  | 0 => .literal two
  | k + 1 => .binary .power (.literal two) (tower k)

/-- The characters a tower is written with. -/
def towerText : Nat → List Char
  | 0 => ['2']
  | k + 1 => '2' :: '^' :: towerText k

/-- The tokens of a tower. -/
def towerTokens : Nat → List Token
  | 0 => [.number two]
  | k + 1 => .number two :: .operator .caret :: towerTokens k

theorem scans_tower (k : Nat) : Token.Scans .scientific (towerText k) (towerTokens k) := by
  induction k with
  | zero => exact scans_digit rfl rfl
  | succ k ih =>
    have hcaret : isNamePart '^' = false ∧ '^' ≠ '.' := by decide
    have hadmits : Alphabet.scientific.admits '^' = true := by decide
    exact Token.Scans.append hcaret (scans_digit rfl rfl) (Token.Scans.sign hadmits rfl ih)

theorem derives_tower (free : Option String) (k : Nat) :
    Derives free k (.sum (tower k)) (towerTokens k) [] := by
  have hsigned : Derives free k (.signed (tower k)) (towerTokens k) [] := by
    induction k with
    | zero => exact .signed_power (.power_postfixed (.postfixed_primary .number))
    | succ k ih => exact .signed_power (.power_raised (.postfixed_primary .number) ih)
  exact .sum_product (.product_signed hsigned)

theorem deepest_tower (d k : Nat) : deepest ⟨true, d, []⟩ (towerTokens k) = d + k := by
  induction k generalizing d with
  | zero => exact Nat.max_self d
  | succ k ih =>
    show max d (max d (deepest ⟨true, d + 1, []⟩ (towerTokens k))) = d + (k + 1)
    rw [ih]
    omega

theorem operations_tower (k : Nat) : (tower k).operations = k := by
  induction k with
  | zero => rfl
  | succ k ih =>
    rw [tower, operations, ih]
    exact congrArg (· + 1) (Nat.zero_add k)

/-- The exponents of a tower are its levels. -/
theorem nesting_tower (k : Nat) : nesting (towerTokens k) = k := by
  rw [nesting, deepest_tower, Nat.zero_add]

/-- **A tower may have 255 exponents.** With more it is refused for its nesting, though no group,
call or sign stands in it. -/
theorem parse_tower {k : Nat} (hk : k ≤ 2048) :
    parse .scientific (String.ofList (towerText k)) =
      if k ≤ 255 then .ok (tower k) else .error (.nestingTooDeep 256) := by
  have hops : (tower k).operations ≤ 2048 := (operations_tower k).trans_le hk
  rw [parse_of_scans (d := .scientific) (scans_tower k) (derives_tower none k) hops, nesting_tower]

/-! ## Groups around a number -/

/-- The literal in the groups, and in front of the percent signs. -/
def one : Float := Decimal.toFloat ⟨1, 0⟩

/-- The characters of a number in so many groups. -/
def groupsText (k : Nat) : List Char := List.replicate k '(' ++ '1' :: List.replicate k ')'

/-- The tokens of a number in so many groups. -/
def groupsTokens (k : Nat) : List Token :=
  List.replicate k .openParen ++ .number one :: List.replicate k .closeParen

theorem groupsText_succ (k : Nat) : groupsText (k + 1) = '(' :: (groupsText k ++ [')']) := by
  rw [groupsText, groupsText, List.replicate_succ, List.replicate_succ', List.append_assoc]
  rfl

theorem groupsTokens_succ (k : Nat) :
    groupsTokens (k + 1) = .openParen :: (groupsTokens k ++ [.closeParen]) := by
  rw [groupsTokens, groupsTokens, List.replicate_succ, List.replicate_succ', List.append_assoc]
  rfl

theorem scans_groups (k : Nat) : Token.Scans .scientific (groupsText k) (groupsTokens k) := by
  induction k with
  | zero => exact scans_digit rfl rfl
  | succ k ih =>
    have hclose : isNamePart ')' = false ∧ ')' ≠ '.' := by decide
    have hlast : Token.Scans .scientific [')'] [.closeParen] :=
      Token.Scans.sign (by decide) rfl .nil
    rw [groupsText_succ, groupsTokens_succ]
    exact Token.Scans.sign (by decide) rfl (Token.Scans.append hclose ih hlast)

/-- In front of whatever stands behind them. -/
theorem derives_groups (free : Option String) (k : Nat) (rest : List Token) :
    Derives free k (.sum (.literal one)) (groupsTokens k ++ rest) rest := by
  have hprimary : Derives free k (.primary (.literal one)) (groupsTokens k ++ rest) rest := by
    cases k with
    | zero => exact .number
    | succ k =>
      rw [groupsTokens_succ, List.cons_append, List.append_assoc]
      exact .group (derives_groups free k (.closeParen :: rest))
  exact .sum_product (.product_signed (.signed_power (.power_postfixed
    (.postfixed_primary hprimary))))

theorem deepest_groups (d k : Nat) (opened : List Nat) (rest : List Token) :
    deepest ⟨true, d, opened⟩ (groupsTokens k ++ rest) =
      max (d + k) (deepest ⟨false, d, opened⟩ rest) := by
  induction k generalizing d opened rest with
  | zero => rfl
  | succ k ih =>
    rw [groupsTokens_succ, List.cons_append, List.append_assoc]
    show max d (deepest ⟨true, d + 1, d :: opened⟩ (groupsTokens k ++ .closeParen :: rest)) = _
    rw [ih]
    show max d (max (d + 1 + k) (max (d + 1) (deepest ⟨false, d, opened⟩ rest))) = _
    omega

/-- The groups around a number are its levels. -/
theorem nesting_groups (k : Nat) : nesting (groupsTokens k) = k := by
  have hdeep := deepest_groups 0 k [] []
  rw [List.append_nil] at hdeep
  rw [nesting, hdeep, Nat.zero_add]
  exact Nat.max_zero k

theorem derives_groups_alone (free : Option String) (k : Nat) :
    Derives free k (.sum (.literal one)) (groupsTokens k) [] := by
  have h := derives_groups free k []
  rwa [List.append_nil] at h

/-- **A number may stand in 255 groups**, and is refused for its nesting in more. -/
theorem parse_groups (k : Nat) :
    parse .scientific (String.ofList (groupsText k)) =
      if k ≤ 255 then .ok (.literal one) else .error (.nestingTooDeep 256) := by
  rw [parse_of_scans (d := .scientific) (scans_groups k) (derives_groups_alone none k)
    (Nat.zero_le _), nesting_groups]

/-! ## Percent signs behind a number -/

/-- One divided by a hundred so many times. -/
def hundredths : Nat → Term
  | 0 => .literal one
  | k + 1 => .unary .percent (hundredths k)

/-- The characters of a number with so many percent signs. -/
def percentsText (k : Nat) : List Char := '1' :: List.replicate k '%'

/-- The percent signs among the tokens. -/
def percentSigns (k : Nat) : List Token := List.replicate k (.operator .percent)

theorem operandNext_percentSigns (k : Nat) : operandNext (percentSigns k) = false := by
  cases k with
  | zero => rfl
  | succ k => rfl

theorem scans_percentSigns (k : Nat) :
    Token.Scans .scientific (List.replicate k '%') (percentSigns k) := by
  induction k with
  | zero => exact .nil
  | succ k ih => exact Token.Scans.sign (by decide) rfl ih

theorem scans_percents (k : Nat) :
    Token.Scans .scientific (percentsText k) (.number one :: percentSigns k) := by
  cases k with
  | zero => exact scans_digit rfl rfl
  | succ k =>
    have hpercent : isNamePart '%' = false ∧ '%' ≠ '.' := by decide
    exact Token.Scans.append hpercent (scans_digit rfl rfl) (scans_percentSigns (k + 1))

theorem derives_percents (free : Option String) (n k : Nat) {rest : List Token}
    (hrest : operandNext rest = false) :
    Derives free n (.postfixed (hundredths k)) (.number one :: (percentSigns k ++ rest)) rest := by
  induction k generalizing rest with
  | zero => exact .postfixed_primary .number
  | succ k ih =>
    rw [percentSigns, List.replicate_succ', List.append_assoc]
    exact .postfixed_percent (ih rfl) hrest

theorem deepest_percentSigns (p : Place) (k : Nat) : deepest p (percentSigns k) = p.depth := by
  induction k with
  | zero => rfl
  | succ k ih =>
    have hstep : p.step (.operator .percent) (percentSigns k) = p :=
      if_neg (Bool.eq_false_iff.mp (operandNext_percentSigns k))
    show max p.depth (deepest (p.step (.operator .percent) (percentSigns k)) (percentSigns k)) = _
    rw [hstep, ih, Nat.max_self]

theorem operations_hundredths (k : Nat) : (hundredths k).operations = k := by
  induction k with
  | zero => rfl
  | succ k ih => rw [hundredths, operations, ih]

/-- The signs are counted one by one, up to the first that is one too many. -/
theorem percents_tooMany {n k : Nat} {t : Term} {m : Meter} {h : ts.length < n}
    (hts : tokens ts = percentSigns k) (hm : m.operations ≤ maxOperations)
    (hk : maxOperations < m.operations + k) :
    percents n t ts m h = .error (.tooManyOperations maxOperations) := by
  induction k generalizing ts t m with
  | zero => exact absurd hk (Nat.not_lt.mpr hm)
  | succ k ih =>
    obtain ⟨o, rest, rfl, hrest⟩ := exists_of_tokens_cons hts
    rw [percents_step rfl (by rw [hrest]; exact operandNext_percentSigns k), Meter.count]
    split
    · rename_i hlt
      exact ih hrest hlt (by dsimp only; omega)
    · rfl

/-- A fault in the first operand ends the reading. -/
theorem ofLexemes_of_postfixed (hne : ts ≠ []) (hsign : pull (tokens ts) ≠ 4)
    (h : postfixed free ts ⟨1, 0⟩ = .error e) : ofLexemes free ts = .error e := by
  have hunary : Parser.unary free ts ⟨0, 0⟩ = .error e := by
    have henter : Meter.enter ⟨0, 0⟩ = .ok ⟨1, 0⟩ := rfl
    rw [unary_eq, Except.bind_of_ok henter, signed_stop hsign, power_of_error h]
    rfl
  have hsum : additive free ts ⟨0, 0⟩ = .error e := by
    rw [additive_eq, multiplicative_eq, hunary]
    rfl
  rw [ofLexemes]
  · exact Except.bind_eq_error.mpr (.inl hsum)
  · exact fun h => hne h

/-- Percent signs are no levels. -/
theorem nesting_percents (k : Nat) : nesting (.number one :: percentSigns k) = 0 := by
  show max 0 (deepest ⟨false, 0, []⟩ (percentSigns k)) = 0
  rw [deepest_percentSigns]
  rfl

theorem derives_percents_alone (free : Option String) (k : Nat) :
    Derives free 0 (.sum (hundredths k)) (.number one :: percentSigns k) [] := by
  have h := @derives_percents free 0 k [] rfl
  rw [List.append_nil] at h
  exact .sum_product (.product_signed (.signed_power (.power_postfixed h)))

/-- **A number may have 2048 percent signs**, and is refused for its operations with more. -/
theorem parse_percents (k : Nat) :
    parse .scientific (String.ofList (percentsText k)) =
      if k ≤ 2048 then .ok (hundredths k) else .error (.tooManyOperations 2048) := by
  split
  · rename_i hk
    have hops : (hundredths k).operations ≤ 2048 := (operations_hundredths k).trans_le hk
    rw [parse_of_scans (d := .scientific) (scans_percents k) (derives_percents_alone none k) hops,
      nesting_percents]
    rfl
  · rename_i hk
    obtain ⟨ts, hts, hscan⟩ := Token.scan_of_scans (scans_percents k)
    obtain ⟨o, rest, rfl, hrest⟩ := exists_of_tokens_cons hts
    have hparse : parse .scientific (String.ofList (percentsText k)) =
        ofLexemes none (⟨.number one, o⟩ :: rest) := Except.bind_of_ok hscan _
    have hpull : pull (tokens (⟨.number one, o⟩ :: rest)) ≠ 4 := show 5 ≠ 4 by decide
    have hmany : maxOperations < 0 + k := by
      rw [Nat.zero_add]
      exact Nat.not_le.mp hk
    rw [hparse]
    refine ofLexemes_of_postfixed (List.cons_ne_nil _ _) hpull ?_
    rw [postfixed_eq, Except.bind_of_ok (primary_number rfl)]
    exact percents_tooMany hrest (Nat.zero_le _) hmany

/-! ## Any text -/

/-- **The limits are the only limits**, and lie at 255 levels and at 2048 operators and calls. -/
theorem parse_limits (d : Dialect) (text : String) :
    (∀ ts n t, Token.scan d.alphabet text = .ok ts → Derives d.free n (.sum t) (tokens ts) [] →
      t.operations ≤ 2048 → parse d text =
        if nesting (tokens ts) ≤ 255 then .ok t else .error (.nestingTooDeep 256)) ∧
    (∀ limit, parse d text = .error (.nestingTooDeep limit) →
      limit = 256 ∧ ∃ ts, Token.scan d.alphabet text = .ok ts ∧ 255 < nesting (tokens ts)) ∧
    (∀ limit, parse d text = .error (.tooManyOperations limit) →
      limit = 2048 ∧
        ∃ ts, Token.scan d.alphabet text = .ok ts ∧ 2048 < operationTokens (tokens ts)) := by
  refine ⟨fun ts n t hscan hd hops => parse_of_derives hscan hd hops, fun limit h => ?_,
    fun limit h => ?_⟩
  · obtain ⟨ts, hscan, h⟩ := exists_tokens_of_parse h (by intro hk; cases hk)
    obtain ⟨hlimit, hdeep⟩ := ofLexemes_refused h
    exact ⟨hlimit, ts, hscan, hdeep⟩
  · obtain ⟨ts, hscan, h⟩ := exists_tokens_of_parse h (by intro hk; cases hk)
    obtain ⟨hlimit, hmany⟩ := ofLexemes_refused h
    exact ⟨hlimit, ts, hscan, hmany⟩

/-- A tower of 255 exponents is read; 256 groups are refused because they are nested deeper than
255 levels, and 2049 percent signs because they are more than 2048. -/
theorem parse_limits_edges :
    (∃ ts, Token.scan .scientific (String.ofList (towerText 255)) = .ok ts ∧
      Derives none 255 (.sum (tower 255)) (tokens ts) [] ∧ (tower 255).operations ≤ 2048 ∧
      parse .scientific (String.ofList (towerText 255)) = .ok (tower 255)) ∧
    (parse .scientific (String.ofList (groupsText 256)) = .error (.nestingTooDeep 256) ∧
      ∃ ts, Token.scan .scientific (String.ofList (groupsText 256)) = .ok ts ∧
        255 < nesting (tokens ts)) ∧
    (parse .scientific (String.ofList (percentsText 2049)) = .error (.tooManyOperations 2048) ∧
      ∃ ts, Token.scan .scientific (String.ofList (percentsText 2049)) = .ok ts ∧
        2048 < operationTokens (tokens ts)) := by
  obtain ⟨ts, hts, hscan⟩ := Token.scan_of_scans (scans_tower 255)
  have hts : tokens ts = towerTokens 255 := hts
  have hd : Derives none 255 (.sum (tower 255)) (tokens ts) [] := by
    rw [hts]
    exact derives_tower none 255
  have hnest : nesting (tokens ts) = 255 := by rw [hts, nesting_tower]
  have hops : (tower 255).operations ≤ 2048 := (operations_tower 255).trans_le (by decide)
  have hgroups : parse .scientific (String.ofList (groupsText 256)) =
      .error (.nestingTooDeep 256) := (parse_groups 256).trans (if_neg (by decide))
  have hpercents : parse .scientific (String.ofList (percentsText 2049)) =
      .error (.tooManyOperations 2048) := (parse_percents 2049).trans (if_neg (by decide))
  refine ⟨⟨ts, hscan, hd, hops, ?_⟩, ⟨hgroups, ?_⟩, hpercents, ?_⟩
  · rw [(parse_limits .scientific _).1 ts 255 _ hscan hd hops, hnest]
    rfl
  · exact ((parse_limits .scientific _).2.1 256 hgroups).2
  · exact ((parse_limits .scientific _).2.2 2048 hpercents).2

/-- A number in 256 groups is an expression without any operator, call or sign, nested as deep as
the limit allows by its name; it is refused as nested deeper. -/
theorem groups_refused :
    (∃ ts, Token.scan .scientific (String.ofList (groupsText 256)) = .ok ts ∧
      Derives none 256 (.sum (.literal one)) (tokens ts) [] ∧ nesting (tokens ts) = 256 ∧
      ∀ op, Token.operator op ∉ tokens ts) ∧
    (literal one).operations ≤ 2048 ∧
    parse .scientific (String.ofList (groupsText 256)) = .error (.nestingTooDeep 256) := by
  obtain ⟨ts, hts, hscan⟩ := Token.scan_of_scans (scans_groups 256)
  have hts : tokens ts = groupsTokens 256 := hts
  have hd : Derives none 256 (.sum (.literal one)) (tokens ts) [] := by
    rw [hts]
    exact derives_groups_alone none 256
  have hnest : nesting (tokens ts) = 256 := by rw [hts, nesting_groups]
  refine ⟨⟨ts, hscan, hd, hnest, fun op hop => ?_⟩, Nat.zero_le _, ?_⟩
  · rw [hts] at hop
    rcases List.mem_append.mp hop with hop | hop
    · cases List.eq_of_mem_replicate hop
    · rcases List.mem_cons.mp hop with hop | hop
      · cases hop
      · cases List.eq_of_mem_replicate hop
  · rw [parse_groups]
    exact if_neg (by decide)

end Term

end Abacus
