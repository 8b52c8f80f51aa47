import Abacus.Proofs.Except
import Abacus.Proofs.Grammar.Derivation

/-!
# One step of each reader

The readers of `Term.Parser` recurse through one another, carry the proof that they use up tokens,
and choose by the next token. This module opens each of them once, and puts what it does into
equations that say nothing of those proofs.

* `tokens` forgets the offsets, which matter for errors alone.
* `pull` says which level takes up the next sign: a percent sign behind an operand, a power, a
  product, a sum, or none. With it every choice is a lemma: a reader goes on (`additiveTail_step`)
  or stops (`additiveTail_stop`).
* `Meter.after` is the meter after so many more operators and calls, at the same depth.

What holds of all runs is proved from these lemmas, without opening a reader again: that they keep
to the grammar (`Proofs/Grammar/Soundness`, `Proofs/Grammar/Completeness`), what they refuse
(`Proofs/Grammar/Refusal`, `Proofs/Grammar/Fault`), and that two of them agree
(`Proofs/Grammar/Comparison`). A change to one reader is a change to its lemmas here.
-/

namespace Abacus.Term.Parser

open Grammar

/-- The tokens without their offsets. -/
abbrev tokens (ts : List Lexeme) : List Token := ts.map Lexeme.token

/-- The level that takes up the next sign: 1 for a percent sign behind an operand, 2 for a power,
3 for a product, 4 for a sum; 5 if no level does. -/
def pull : List Token → Nat
  | .operator .percent :: ts => if operandNext ts then 3 else 1
  | .operator .caret :: _ => 2
  | .operator .times :: _ => 3
  | .operator .slash :: _ => 3
  | .operator .plus :: _ => 4
  | .operator .minus :: _ => 4
  | _ => 5

/-- The meter after so many more operators and calls. -/
def Meter.after (m : Meter) (k : Nat) : Meter := ⟨m.depth, m.operations + k⟩

@[simp] theorem Meter.after_depth (m : Meter) (k : Nat) : (m.after k).depth = m.depth := rfl

@[simp] theorem Meter.after_operations (m : Meter) (k : Nat) :
    (m.after k).operations = m.operations + k := rfl

@[simp] theorem Meter.after_after (m : Meter) (j k : Nat) :
    (m.after j).after k = m.after (j + k) := by
  unfold Meter.after
  rw [Nat.add_assoc]

theorem count_eq_ok {m m' : Meter} (h : m.count = .ok m') :
    m' = m.after 1 ∧ m'.operations ≤ maxOperations := by
  unfold Meter.count at h
  split at h
  · rename_i hlt
    cases h
    exact ⟨rfl, hlt⟩
  · cases h

theorem enter_eq_ok {m m' : Meter} (h : m.enter = .ok m') :
    m.depth < maxNesting ∧ m' = ⟨m.depth + 1, m.operations⟩ := by
  unfold Meter.enter at h
  split at h
  · rename_i hlt
    cases h
    exact ⟨hlt, rfl⟩
  · cases h

/-! ## The next sign -/

theorem operandNext_tokens (ts : List Lexeme) : operandNext (tokens ts) = operandFollows ts := by
  match ts with
  | [] | ⟨.number _, _⟩ :: _ | ⟨.name _, _⟩ :: _ | ⟨.openParen, _⟩ :: _ | ⟨.closeParen, _⟩ :: _
  | ⟨.comma, _⟩ :: _ | ⟨.operator _, _⟩ :: _ => rfl

theorem pull_pos (ts : List Token) : 0 < pull ts := by
  unfold pull
  split
  · split <;> decide
  all_goals decide

theorem pull_percent {ts : List Token} (h : operandNext ts = false) :
    pull (.operator .percent :: ts) = 1 := by
  rw [pull, h]
  rfl

theorem pull_remainder {ts : List Token} (h : operandNext ts = true) :
    pull (.operator .percent :: ts) = 3 := by
  rw [pull, if_pos h]

theorem pull_additive {op : Operator} {b : BinaryOp} (h : additiveOp? op = some b)
    (ts : List Token) : pull (.operator op :: ts) = 4 := by
  cases op with
  | plus | minus => rfl
  | times | slash | percent | caret => cases h

theorem pull_multiplicative {op : Operator} {b : BinaryOp} (h : multiplicativeOp? op = some b)
    {ts : List Token} (hrem : op = .percent → operandNext ts = true) :
    pull (.operator op :: ts) = 3 := by
  cases op with
  | percent => exact pull_remainder (hrem rfl)
  | times | slash => rfl
  | plus | minus | caret => cases h

theorem pull_eq_one {ts : List Lexeme} (h : pull (tokens ts) = 1) :
    ∃ o rest, ts = ⟨.operator .percent, o⟩ :: rest ∧ operandNext (tokens rest) = false := by
  match ts, h with
  | ⟨.operator op, o⟩ :: rest, h =>
    cases op with
    | percent =>
      simp only [List.map_cons, pull] at h
      split at h
      · cases h
      · rename_i hop
        exact ⟨o, rest, rfl, eq_false_of_ne_true hop⟩
    | plus | minus | times | slash | caret => cases h

theorem pull_eq_two {ts : List Lexeme} (h : pull (tokens ts) = 2) :
    ∃ o rest, ts = ⟨.operator .caret, o⟩ :: rest := by
  match ts, h with
  | ⟨.operator op, o⟩ :: rest, h =>
    cases op with
    | caret => exact ⟨o, rest, rfl⟩
    | percent =>
      simp only [List.map_cons, pull] at h
      split at h <;> cases h
    | plus | minus | times | slash => cases h

theorem pull_eq_three {ts : List Lexeme} (h : pull (tokens ts) = 3) :
    ∃ op b o rest, ts = ⟨.operator op, o⟩ :: rest ∧ multiplicativeOp? op = some b ∧
      (op = .percent → operandNext (tokens rest) = true) := by
  match ts, h with
  | ⟨.operator op, o⟩ :: rest, h =>
    cases op with
    | times => exact ⟨.times, .multiply, o, rest, rfl, rfl, nofun⟩
    | slash => exact ⟨.slash, .divide, o, rest, rfl, rfl, nofun⟩
    | percent =>
      simp only [List.map_cons, pull] at h
      split at h
      · rename_i hop
        exact ⟨.percent, .remainder, o, rest, rfl, rfl, fun _ => hop⟩
      · cases h
    | plus | minus | caret => cases h

theorem pull_eq_four {ts : List Lexeme} (h : pull (tokens ts) = 4) :
    ∃ op b u o rest, ts = ⟨.operator op, o⟩ :: rest ∧ additiveOp? op = some b ∧
      signOp? op = some u := by
  match ts, h with
  | ⟨.operator op, o⟩ :: rest, h =>
    cases op with
    | plus => exact ⟨.plus, .add, .keep, o, rest, rfl, rfl, rfl⟩
    | minus => exact ⟨.minus, .subtract, .negate, o, rest, rfl, rfl, rfl⟩
    | percent =>
      simp only [List.map_cons, pull] at h
      split at h <;> cases h
    | times | slash | caret => cases h

/-! ## Sums and products -/

variable {free : Option String} {n o : Nat} {t : Term} {ts rest : List Lexeme} {m : Meter}

theorem length_of_cons {s : Lexeme} (h : ts = s :: rest) : rest.length < ts.length := by
  rw [h]
  exact Nat.lt_succ_self _

theorem additive_eq :
    additive free ts m = (do
      let r ← multiplicative free ts m
      additiveTail free ts.length r.value r.rest r.meter r.shorter) := by
  rw [additive]

theorem additiveTail_stop {h : ts.length < n} (hp : pull (tokens ts) ≠ 4) :
    additiveTail free n t ts m h = .ok ⟨t, ts, m, h⟩ := by
  rw [additiveTail.eq_def]
  match ts, hp with
  | [], _ | ⟨.number _, _⟩ :: _, _ | ⟨.name _, _⟩ :: _, _ | ⟨.openParen, _⟩ :: _, _
  | ⟨.closeParen, _⟩ :: _, _ | ⟨.comma, _⟩ :: _, _ => rfl
  | ⟨.operator op, _⟩ :: _, hp =>
    cases op with
    | plus | minus => exact absurd rfl hp
    | times | slash | percent | caret => rfl

theorem additiveTail_step {op : Operator} {b : BinaryOp} (hts : ts = ⟨.operator op, o⟩ :: rest)
    (hop : additiveOp? op = some b) {h : ts.length < n} :
    additiveTail free n t ts m h = (do
      let m ← m.count
      let r ← multiplicative free rest m
      additiveTail free n (.binary b t r.value) r.rest r.meter
        (Nat.lt_trans r.shorter (Nat.lt_trans (length_of_cons hts) h))) := by
  subst hts
  rw [additiveTail.eq_def]
  simp only [hop]

theorem multiplicative_eq :
    multiplicative free ts m = (do
      let r ← unary free ts m
      multiplicativeTail free ts.length r.value r.rest r.meter r.shorter) := by
  rw [multiplicative]

theorem multiplicativeTail_end {h : ts.length < n}
    (hne : ∀ op b o rest, ts = ⟨.operator op, o⟩ :: rest → multiplicativeOp? op ≠ some b) :
    multiplicativeTail free n t ts m h = .ok ⟨t, ts, m, h⟩ := by
  rw [multiplicativeTail.eq_def]
  match ts, hne with
  | [], _ | ⟨.number _, _⟩ :: _, _ | ⟨.name _, _⟩ :: _, _ | ⟨.openParen, _⟩ :: _, _
  | ⟨.closeParen, _⟩ :: _, _ | ⟨.comma, _⟩ :: _, _ => rfl
  | ⟨.operator op, o⟩ :: rest, hne =>
    cases op with
    | times | slash | percent => exact absurd rfl (hne _ _ o rest rfl)
    | plus | minus | caret => rfl

theorem multiplicativeTail_stop {h : ts.length < n} (hp : 3 < pull (tokens ts)) :
    multiplicativeTail free n t ts m h = .ok ⟨t, ts, m, h⟩ := by
  refine multiplicativeTail_end ?_
  rintro op b o rest rfl hop
  cases op with
  | times | slash => exact absurd hp (Nat.lt_irrefl 3)
  | percent =>
    simp only [List.map_cons, pull] at hp
    split at hp <;> omega
  | plus | minus | caret => cases hop

theorem multiplicativeTail_step {op : Operator} {b : BinaryOp}
    (hts : ts = ⟨.operator op, o⟩ :: rest) (hop : multiplicativeOp? op = some b)
    {h : ts.length < n} :
    multiplicativeTail free n t ts m h = (do
      let m ← m.count
      let r ← unary free rest m
      multiplicativeTail free n (.binary b t r.value) r.rest r.meter
        (Nat.lt_trans r.shorter (Nat.lt_trans (length_of_cons hts) h))) := by
  subst hts
  rw [multiplicativeTail.eq_def]
  simp only [hop]

/-! ## Operands with their signs -/

theorem unary_eq :
    unary free ts m = (do
      let m ← m.enter
      let r ← signed free ts m
      .ok ⟨r.value, r.rest, r.meter.leave, r.shorter⟩) := by
  rw [unary]

theorem signed_step {op : Operator} {u : UnaryOp} (hts : ts = ⟨.operator op, o⟩ :: rest)
    (hop : signOp? op = some u) :
    signed free ts m = (do
      let m ← m.count
      let r ← unary free rest m
      .ok ⟨.unary u r.value, r.rest, r.meter, Nat.lt_trans r.shorter (length_of_cons hts)⟩) := by
  subst hts
  rw [signed]
  simp only [hop]

theorem signed_stop (hp : pull (tokens ts) ≠ 4) : signed free ts m = power free ts m := by
  rw [signed.eq_def]
  match ts, hp with
  | [], _ | ⟨.number _, _⟩ :: _, _ | ⟨.name _, _⟩ :: _, _ | ⟨.openParen, _⟩ :: _, _
  | ⟨.closeParen, _⟩ :: _, _ | ⟨.comma, _⟩ :: _, _ => rfl
  | ⟨.operator op, _⟩ :: _, hp =>
    cases op with
    | plus | minus => exact absurd rfl hp
    | times | slash | percent | caret => rfl

theorem power_of_error {e : Error} (h : postfixed free ts m = .error e) :
    power free ts m = .error e := by
  rw [power, h]
  rfl

theorem power_stop {r : Parsed Term ts.length} (hr : postfixed free ts m = .ok r)
    (hp : pull (tokens r.rest) ≠ 2) : power free ts m = .ok r := by
  obtain ⟨t, rest, m', h⟩ := r
  rw [power, hr]
  match rest, h, hp with
  | [], _, _ | ⟨.number _, _⟩ :: _, _, _ | ⟨.name _, _⟩ :: _, _, _ | ⟨.openParen, _⟩ :: _, _, _
  | ⟨.closeParen, _⟩ :: _, _, _ | ⟨.comma, _⟩ :: _, _, _ => rfl
  | ⟨.operator op, _⟩ :: _, _, hp =>
    cases op with
    | caret => exact absurd rfl hp
    | plus | minus | times | slash | percent => rfl

theorem power_step {b : Parsed Term ts.length} (hb : postfixed free ts m = .ok b)
    (hrest : b.rest = ⟨.operator .caret, o⟩ :: rest) :
    power free ts m = (do
      let m ← b.meter.count
      let r ← unary free rest m
      .ok ⟨.binary .power b.value r.value, r.rest, r.meter,
        Nat.lt_trans r.shorter (Nat.lt_trans (length_of_cons hrest) b.shorter)⟩) := by
  obtain ⟨t, ts', m', h⟩ := b
  cases hrest
  rw [power, hb]
  rfl

theorem postfixed_eq :
    postfixed free ts m = (do
      let r ← primary free ts m
      percents ts.length r.value r.rest r.meter r.shorter) := by
  rw [postfixed]

theorem percents_stop {h : ts.length < n} (hp : 1 < pull (tokens ts)) :
    percents n t ts m h = .ok ⟨t, ts, m, h⟩ := by
  rw [percents.eq_def]
  split
  · split
    · rfl
    · rename_i hop
      rw [← operandNext_tokens] at hop
      rw [tokens, List.map_cons, pull_percent (eq_false_of_ne_true hop)] at hp
      exact absurd hp (Nat.lt_irrefl 1)
  · rfl

theorem percents_step (hts : ts = ⟨.operator .percent, o⟩ :: rest)
    (hop : operandNext (tokens rest) = false) {h : ts.length < n} :
    percents n t ts m h = (do
      let m ← m.count
      percents n (.unary .percent t) rest m (Nat.lt_trans (length_of_cons hts) h)) := by
  subst hts
  rw [percents, ← operandNext_tokens, hop]
  rfl

/-! ## Parentheses, names and calls -/

theorem closing_step (hts : ts = ⟨.closeParen, o⟩ :: rest) {opened : Nat} :
    closing opened ts = .ok ⟨rest, length_of_cons hts⟩ := by
  subst hts
  rfl

theorem closing_stop {s : Lexeme} (hs : s.token ≠ .closeParen) {opened : Nat} :
    closing opened (s :: rest) = .error (.unexpectedToken s.token s.offset) := by
  match s, hs with
  | ⟨.closeParen, _⟩, hs => exact absurd rfl hs
  | ⟨.number _, _⟩, _ | ⟨.name _, _⟩, _ | ⟨.operator _, _⟩, _ | ⟨.openParen, _⟩, _
  | ⟨.comma, _⟩, _ => rfl

theorem closing_eq_ok {opened : Nat} {r : { rest : List Lexeme // rest.length < ts.length }}
    (h : closing opened ts = .ok r) : ∃ o, ts = ⟨.closeParen, o⟩ :: r.val := by
  unfold closing at h
  split at h
  · cases h
    exact ⟨_, rfl⟩
  · cases h
  · cases h

theorem primary_group (hts : ts = ⟨.openParen, o⟩ :: rest) :
    primary free ts m = (do
      let t ← additive free rest m
      let r ← closing o t.rest
      .ok ⟨t.value, r.val, t.meter,
        Nat.lt_trans r.property (Nat.lt_trans t.shorter (length_of_cons hts))⟩) := by
  subst hts
  rw [primary]

theorem primary_number {x : Float} (hts : ts = ⟨.number x, o⟩ :: rest) :
    primary free ts m = .ok ⟨.literal x, rest, m, length_of_cons hts⟩ := by
  subst hts
  rw [primary]

/-- The variable wins over a constant, a constant over a function. -/
theorem meaning_spec (free : Option String) (name : String) :
    match meaning free name with
    | .variable => free = some name
    | .constant x => free ≠ some name ∧ constant? name = some x
    | .function f => free ≠ some name ∧ constant? name = none ∧ Function.ofName? name = some f
    | .unknown => free ≠ some name ∧ constant? name = none ∧ Function.ofName? name = none := by
  unfold meaning
  by_cases hf : free = some name
  · rw [if_pos hf]
    exact hf
  · rw [if_neg hf]
    cases hc : constant? name with
    | some x => exact ⟨hf, rfl⟩
    | none =>
      cases hn : Function.ofName? name with
      | some f => exact ⟨hf, rfl, rfl⟩
      | none => exact ⟨hf, rfl, rfl⟩

theorem primary_variable {name : String} (hts : ts = ⟨.name name, o⟩ :: rest)
    (hm : meaning free name = .variable) :
    primary free ts m = .ok ⟨.variable name, rest, m, length_of_cons hts⟩ := by
  subst hts
  rw [primary]
  simp only [hm]

theorem primary_constant {name : String} {x : Float} (hts : ts = ⟨.name name, o⟩ :: rest)
    (hm : meaning free name = .constant x) :
    primary free ts m = .ok ⟨.literal x, rest, m, length_of_cons hts⟩ := by
  subst hts
  rw [primary]
  simp only [hm]

theorem primary_function {name : String} {f : Function} (hts : ts = ⟨.name name, o⟩ :: rest)
    (hf : meaning free name = .function f) :
    primary free ts m = (do
      let a ← call free name rest m
      if a.value.length = f.arity then
        .ok ⟨.call name a.value, a.rest, a.meter, Nat.lt_trans a.shorter (length_of_cons hts)⟩
      else .error (.argumentCount name f.arity a.value.length)) := by
  subst hts
  rw [primary]
  simp only [hf]

theorem primary_unknown {name : String} (hts : ts = ⟨.name name, o⟩ :: rest)
    (hm : meaning free name = .unknown) : primary free ts m = .error (.unknownName name) := by
  subst hts
  rw [primary]
  simp only [hm]

theorem primary_stop {s : Lexeme} (hop : operandNext (tokens (s :: rest)) = false) :
    primary free (s :: rest) m = .error (.unexpectedToken s.token s.offset) := by
  match s, hop with
  | ⟨.operator _, _⟩, _ | ⟨.closeParen, _⟩, _ | ⟨.comma, _⟩, _ => rw [primary]

theorem call_stop {name : String} (hc : ∀ o rest, ts ≠ ⟨.openParen, o⟩ :: rest) :
    call free name ts m = .error (.missingArguments name) := by
  rw [call.eq_def]
  split
  · exact absurd rfl (hc _ _)
  · rfl

theorem call_step {name : String} (hts : ts = ⟨.openParen, o⟩ :: rest) :
    call free name ts m = (do
      let m ← m.count
      let a ← arguments free (rest.length + 1) rest m (Nat.lt_succ_self _)
      let r ← closing o a.rest
      .ok ⟨a.value, r.val, a.meter,
        Nat.lt_of_lt_of_le r.property (Nat.le_trans (Nat.le_of_lt_succ a.shorter)
          (Nat.le_of_lt (length_of_cons hts)))⟩) := by
  subst hts
  rw [call]

/-! ## Arguments -/

theorem arguments_stop (hts : ts = ⟨.closeParen, o⟩ :: rest) {h : ts.length < n} :
    arguments free n ts m h = .ok ⟨[], ts, m, h⟩ := by
  subst hts
  rw [arguments]

theorem arguments_step {h : ts.length < n} (hc : ∀ o rest, ts ≠ ⟨.closeParen, o⟩ :: rest) :
    arguments free n ts m h = (do
      let a ← additive free ts m
      let r ← moreArguments free n a.rest a.meter (Nat.lt_trans a.shorter h)
      .ok ⟨a.value :: r.value, r.rest, r.meter, r.shorter⟩) := by
  rw [arguments.eq_def]
  split
  · exact absurd rfl (hc _ _)
  · rfl

theorem moreArguments_stop {h : ts.length < n} (hc : ∀ o rest, ts ≠ ⟨.comma, o⟩ :: rest) :
    moreArguments free n ts m h = .ok ⟨[], ts, m, h⟩ := by
  rw [moreArguments.eq_def]
  split
  · exact absurd rfl (hc _ _)
  · rfl

theorem moreArguments_step (hts : ts = ⟨.comma, o⟩ :: rest) {h : ts.length < n} :
    moreArguments free n ts m h = (do
      let a ← additive free rest m
      let r ← moreArguments free n a.rest a.meter
        (Nat.lt_trans a.shorter (Nat.lt_trans (length_of_cons hts) h))
      .ok ⟨a.value :: r.value, r.rest, r.meter, r.shorter⟩) := by
  subst hts
  rw [moreArguments]

end Abacus.Term.Parser
