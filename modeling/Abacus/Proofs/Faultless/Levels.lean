import Abacus.Proofs.Faultless.Depth
import Abacus.Proofs.Grammar.Fault
import Abacus.Proofs.Grammar.Soundness

/-!
# What every level accounts for

A level that finds a term has passed at least one token. It is as deep as it was, has counted the
operators and calls of the term and no others, and the next token is none that it or a tighter level
would take up. This holds wherever a level begins: whatever tokens are in front of it, however deep
it is and whatever was counted before. The machine with one counter for each always comes to an end,
and the same holds of its counters.

* `Tier`: the levels that find a term, loosest first. `Tier.read` is the reader of a level,
  `Tier.run` its machine.
* `Tier.signs`: the signs that cannot come next. A percent sign before an operand is a remainder and
  belongs to a product; any other belongs to the operand.
* `Tier.Accounts`: what a level accounts for, between the tokens and counters it began with and
  those it ends with. More than 2048 operators and calls are never counted; a level that begins
  above that number, as none does in a run from zero, counts nothing or is refused.

Results:
* `Tier.accounts_of_read`: what a reader accounts for.
* `Tier.run_accounts`: the machine ends, with what the reader finds, and accounts for it. Room for
  eight calls inside one another for each token is enough.

The levels of arguments find lists of terms and are not among these.
-/

namespace Abacus.Term.Parser

open Grammar

/-- The levels that find a term, loosest first. -/
inductive Tier where
  | additive | multiplicative | unary | power | postfixed | primary
deriving DecidableEq, Repr

namespace Tier

/-- The reader of a level. -/
def read (free : Option String) :
    Tier → (ts : List Lexeme) → Meter → Except Error (Parsed Term ts.length)
  | .additive => Parser.additive free
  | .multiplicative => Parser.multiplicative free
  | .unary => Parser.unary free
  | .power => Parser.power free
  | .postfixed => Parser.postfixed free
  | .primary => Parser.primary free

/-- The machine of a level; the number is its room. -/
def run (free : Option String) : Tier → Nat → Machine.Run Term
  | .additive => Machine.additive free
  | .multiplicative => Machine.multiplicative free
  | .unary => Machine.unary free
  | .power => Machine.power free
  | .postfixed => Machine.postfixed free
  | .primary => Machine.primary free

/-- The signs that a level or a tighter one takes up behind an operand. A percent sign that an
operand follows is a remainder and belongs to a product, any other belongs to the operand. -/
def signs : Tier → (follows : Bool) → List Operator
  | .primary, _ => []
  | .postfixed, true => []
  | .postfixed, false => [.percent]
  | .power, true | .unary, true => [.caret]
  | .power, false | .unary, false => [.caret, .percent]
  | .multiplicative, _ => [.times, .slash, .percent, .caret]
  | .additive, _ => [.plus, .minus, .times, .slash, .percent, .caret]

/-- A level accounts for the term that it found between `ts` and `rest`. -/
structure Accounts (tier : Tier) (ts : List Lexeme) (m : Meter) (t : Term) (rest : List Lexeme)
    (m' : Meter) : Prop where
  /-- at least one token was passed -/
  passed : ∃ first others, ts = first :: others ++ rest
  depth : m'.depth = m.depth
  /-- every operator and call of the term was counted, and nothing else -/
  operations : m'.operations = m.operations + t.operations
  /-- nothing is counted above the limit; a counter that stood above it already, as none does in a
  run from zero, stays where it was -/
  limit : m.operations ≤ 2048 ∨ 0 < t.operations → m'.operations ≤ 2048
  /-- the next token is none to be taken up -/
  next : ∀ op o behind, rest = ⟨.operator op, o⟩ :: behind →
    op ∉ tier.signs (operandFollows behind)

variable {free : Option String} {tier : Tier} {ts rest : List Lexeme} {m m' : Meter} {t : Term}

/-! ## The next sign -/

/-- The loosest signs that a level takes up, as `pull` counts them. -/
def rank : Tier → Nat
  | .primary => 0
  | .postfixed => 1
  | .power | .unary => 2
  | .multiplicative => 3
  | .additive => 4

theorem pull_le_rank {op : Operator} {ts : List Token} (h : op ∈ tier.signs (operandNext ts)) :
    pull (.operator op :: ts) ≤ tier.rank := by
  cases hnext : operandNext ts
  all_goals
    rw [hnext] at h
    -- every sign on every level
    cases tier <;> cases op <;> simp_all [signs, rank, pull]

theorem next_of_rank_lt (h : tier.rank < pull (tokens rest)) {op : Operator} {o : Nat}
    {behind : List Lexeme} (hrest : rest = ⟨.operator op, o⟩ :: behind) :
    op ∉ tier.signs (operandFollows behind) := by
  intro hmem
  rw [hrest] at h
  rw [← operandNext_tokens] at hmem
  exact absurd (pull_le_rank hmem) (Nat.not_le_of_lt h)

/-! ## The tokens that were passed -/

/-- An operand that was found does not begin with the sign of a sum. -/
theorem unsigned_of_primary {r : Parsed Term ts.length} (h : Parser.primary free ts m = .ok r) :
    pull (tokens ts) ≠ 4 := by
  intro h4
  obtain ⟨op, -, -, o, rest, rfl, -⟩ := pull_eq_four h4
  rw [primary_stop rfl] at h
  cases h

theorem unsigned_of_postfixed {r : Parsed Term ts.length}
    (h : Parser.postfixed free ts m = .ok r) : pull (tokens ts) ≠ 4 := by
  rw [postfixed_eq] at h
  obtain ⟨a, ha, -⟩ := Except.bind_eq_ok.mp h
  exact unsigned_of_primary ha

theorem unsigned_of_power {r : Parsed Term ts.length} (h : Parser.power free ts m = .ok r) :
    pull (tokens ts) ≠ 4 := by
  cases hb : Parser.postfixed free ts m with
  | error e =>
    rw [power_of_error hb] at h
    cases h
  | ok b => exact unsigned_of_postfixed hb

/-- What a reader passes on its walk is not nothing. -/
theorem passed_of_walks {P : Outlook → List Token → Prop} {p : Outlook}
    {x : Except Error (Parsed Term ts.length)} {r : Parsed Term ts.length} (hx : x = .ok r)
    (h : Walks free P p ts x) : ∃ first others, ts = first :: others ++ r.rest := by
  rw [hx] at h
  obtain ⟨before, -, hts, -⟩ := h
  cases before with
  | nil =>
    have hlength : ts.length = r.rest.length := congrArg List.length hts
    exact absurd r.shorter (Nat.not_lt_of_le (Nat.le_of_eq hlength))
  | cons first others => exact ⟨first, others, hts⟩

theorem passed_of_read {r : Parsed Term ts.length} (h : tier.read free ts m = .ok r) :
    ∃ first others, ts = first :: others ++ r.rest := by
  have hstart {ts : List Token} : Awaits .start ts := .inl rfl
  cases tier with
  | additive => exact passed_of_walks h (additive_walks hstart)
  | multiplicative => exact passed_of_walks h (multiplicative_walks hstart)
  | unary => exact passed_of_walks h (unary_walks hstart)
  | power => exact passed_of_walks h (power_walks hstart (unsigned_of_power h))
  | postfixed => exact passed_of_walks h (postfixed_walks hstart (unsigned_of_postfixed h))
  | primary => exact passed_of_walks h (primary_walks hstart (unsigned_of_primary h))

/-! ## The meter -/

theorem reads_of_read {r : Parsed Term ts.length} (h : tier.read free ts m = .ok r) :
    (∃ n p, Reads free n p ts m r.rest r.meter ∧ p.operations = r.value.operations) ∧
      tier.rank < pull (tokens r.rest) := by
  cases tier with
  | additive => exact ⟨⟨_, _, (additive_sound h).2.1, rfl⟩, (additive_sound h).2.2⟩
  | multiplicative =>
    exact ⟨⟨_, _, (multiplicative_sound h).2.1, rfl⟩, (multiplicative_sound h).2.2⟩
  | unary => exact ⟨⟨_, _, (unary_sound h).2.1, rfl⟩, (unary_sound h).2.2⟩
  | power => exact ⟨⟨_, _, (power_sound h).1, rfl⟩, (power_sound h).2⟩
  | postfixed => exact ⟨⟨_, _, (postfixed_sound h).1, rfl⟩, (postfixed_sound h).2⟩
  | primary => exact ⟨⟨_, _, primary_sound h, rfl⟩, pull_pos _⟩

/-- **A reader accounts for what it finds.** -/
theorem accounts_of_read {r : Parsed Term ts.length} (h : tier.read free ts m = .ok r) :
    tier.Accounts ts m r.value r.rest r.meter := by
  obtain ⟨⟨n, p, hreads, hoperations⟩, hrank⟩ := reads_of_read h
  have hcount : r.meter.operations = m.operations + r.value.operations := by
    rw [hreads.meter, Meter.after_operations, hoperations]
  refine ⟨passed_of_read h, hreads.depth_eq, hcount, ?_, fun _ _ _ => next_of_rank_lt hrank⟩
  -- where something was counted, the bound cannot be the counter before
  have hbound : r.meter.operations ≤ max m.operations 2048 := hreads.bound
  omega

/-! ## The machine -/

theorem run_mirrors {room : Nat} (h : 8 * ts.length + 6 < room) :
    Machine.Mirrors m (tier.read free ts m) (tier.run free room ⟨ts, m⟩) := by
  cases tier with
  | additive => exact Machine.additive_mirrors h
  | multiplicative => exact Machine.multiplicative_mirrors (by omega)
  | unary => exact Machine.unary_mirrors (by omega)
  | power => exact Machine.power_mirrors (by omega)
  | postfixed => exact Machine.postfixed_mirrors (by omega)
  | primary => exact Machine.primary_mirrors (by omega)

/-- **Every level ends, and accounts for what it finds.** With room for eight calls inside one
another for each token the machine of a level has a result, which is the result of the reader. If a
term was found, both account for it: at any tokens, from any depth and count. -/
theorem run_accounts (free : Option String) (tier : Tier) (ts : List Lexeme) (m : Meter) :
    (∀ room, 8 * ts.length + 6 < room →
      ∃ result s, tier.run free room ⟨ts, m⟩ = some (result, s) ∧
        result = (tier.read free ts m).map Parsed.value ∧
        ∀ t, result = .ok t → tier.Accounts ts m t s.rest s.meter) ∧
    ∀ r, tier.read free ts m = .ok r → tier.Accounts ts m r.value r.rest r.meter := by
  refine ⟨fun room hroom => ?_, fun r => accounts_of_read⟩
  have hmirrors : Machine.Mirrors m (tier.read free ts m) (tier.run free room ⟨ts, m⟩) :=
    run_mirrors hroom
  cases hread : tier.read free ts m with
  | error e =>
    rw [hread] at hmirrors
    obtain ⟨s, hrun, -⟩ := hmirrors
    exact ⟨_, s, hrun, rfl, fun t ht => by cases ht⟩
  | ok r =>
    rw [hread] at hmirrors
    refine ⟨_, _, hmirrors.1, rfl, fun t ht => ?_⟩
    cases ht
    exact accounts_of_read hread

/-- A sign, a power and a percent sign in front of a product, where three more levels and three more
operators are just within the limits. -/
theorem run_accounts_power :
    ∃ ts t s, ts = [⟨.operator .minus, 0⟩, ⟨.number 2, 1⟩, ⟨.operator .caret, 2⟩, ⟨.number 3, 3⟩,
        ⟨.operator .percent, 4⟩, ⟨.operator .times, 5⟩, ⟨.name "x", 6⟩] ∧
      t = Term.unary .negate (.binary .power (.literal 2) (.unary .percent (.literal 3))) ∧
      8 * ts.length + 6 < 63 ∧
      Tier.unary.run (some "x") 63 ⟨ts, ⟨253, 2045⟩⟩ = some (.ok t, s) ∧
      s.rest = [⟨.operator .times, 5⟩, ⟨.name "x", 6⟩] ∧ s.meter = ⟨253, 2048⟩ ∧
      Tier.unary.Accounts ts ⟨253, 2045⟩ t s.rest s.meter := by
  have hroom : 8 * 7 + 6 < 63 := by decide
  obtain ⟨result, s, hrun, -, haccounts⟩ := (run_accounts (some "x") .unary
    [⟨.operator .minus, 0⟩, ⟨.number 2, 1⟩, ⟨.operator .caret, 2⟩, ⟨.number 3, 3⟩,
      ⟨.operator .percent, 4⟩, ⟨.operator .times, 5⟩, ⟨.name "x", 6⟩] ⟨253, 2045⟩).1 63 hroom
  have hresult := hrun
  cases hresult
  exact ⟨_, _, _, rfl, rfl, hroom, hrun, rfl, rfl, haccounts _ rfl⟩

end Tier

end Abacus.Term.Parser
