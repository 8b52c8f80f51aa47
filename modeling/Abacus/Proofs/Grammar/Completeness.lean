import Abacus.Proofs.Grammar.Reader

/-!
# What the grammar derives, a reader reads

`Follows` says what the reader of a phrase does on tokens that are derived as that phrase: it
returns the term of the phrase, unless some operand lies deeper than the reader may go. In that
case it is refused for its nesting, and the derivation was given more room than the reader has left.

A sum, a product and an operand with percent signs are read in a loop, while their rules are left
recursive. So their readers are followed up to the point where the loop stands behind the phrase,
with the term of the phrase in its hands; the loop goes on or ends by the next sign. The other
readers are followed to their end (`Reaches`).

The number of operations is no obstacle: each statement assumes that the meter has room for those of
the phrase. What becomes of an expression with more is `Proofs/Grammar/Limits`.

Results:
* `follows_of_derives`: every reader follows every derivation of its phrase. The induction is on the
  derivation, with a lemma for each rule.
-/

namespace Abacus.Term.Parser

open Grammar

theorem pull_of_operandNext {ts : List Token} (h : operandNext ts = true) : pull ts = 5 := by
  unfold operandNext at h
  split at h
  · rfl
  · rfl
  · rfl
  · cases h

/-- Behind an argument stands a comma or the closing parenthesis. -/
theorem pull_further {free : Option String} {n : Nat} {args : List Term}
    {ts rest : List Token} (h : Derives free n (.furtherArguments args) ts (.closeParen :: rest)) :
    pull ts = 5 := by
  cases h with
  | further_none => rfl
  | further_some => rfl

/-- The run returns the value and stands before `rest` with the meter `m`. -/
def Reaches {α : Type} {k : Nat} (run : Except Error (Parsed α k)) (value : α)
    (rest : List Token) (m : Meter) : Prop :=
  ∃ ys h, run = .ok ⟨value, ys, m, h⟩ ∧ tokens ys = rest

/-- The run is refused for its nesting. -/
def TooDeep {α : Type} (run : Except Error α) : Prop :=
  run = .error (.nestingTooDeep maxNesting)

variable (free : Option String)

/-- What a reader does on a phrase that is derived with nesting `n`. -/
def Follows (n : Nat) : Phrase → List Token → List Token → Prop
  | .sum t, ts, rest => ∀ xs m, tokens xs = ts → 3 < pull rest →
      m.operations + t.operations ≤ maxOperations →
      (∃ ys h, additive free xs m = additiveTail free xs.length t ys (m.after t.operations) h ∧
        tokens ys = rest) ∨ TooDeep (additive free xs m) ∧ 255 < m.depth + n
  | .product t, ts, rest => ∀ xs m, tokens xs = ts → 2 < pull rest →
      m.operations + t.operations ≤ maxOperations →
      (∃ ys h, multiplicative free xs m =
          multiplicativeTail free xs.length t ys (m.after t.operations) h ∧ tokens ys = rest) ∨
        TooDeep (multiplicative free xs m) ∧ 255 < m.depth + n
  | .signed t, ts, rest => ∀ xs m, tokens xs = ts → 2 < pull rest →
      m.operations + t.operations ≤ maxOperations →
      Reaches (signed free xs m) t rest (m.after t.operations) ∨
        TooDeep (signed free xs m) ∧ 256 < m.depth + n
  | .power t, ts, rest => ∀ xs m, tokens xs = ts → 2 < pull rest →
      m.operations + t.operations ≤ maxOperations →
      Reaches (power free xs m) t rest (m.after t.operations) ∨
        TooDeep (power free xs m) ∧ 256 < m.depth + n
  | .postfixed t, ts, rest => ∀ xs m, tokens xs = ts →
      m.operations + t.operations ≤ maxOperations →
      (∃ ys h, postfixed free xs m = percents xs.length t ys (m.after t.operations) h ∧
        tokens ys = rest) ∨ TooDeep (postfixed free xs m) ∧ 256 < m.depth + n
  | .primary t, ts, rest => ∀ xs m, tokens xs = ts →
      m.operations + t.operations ≤ maxOperations →
      Reaches (primary free xs m) t rest (m.after t.operations) ∨
        TooDeep (primary free xs m) ∧ 256 < m.depth + n
  | .arguments args, ts, rest => ∀ xs m k h others, tokens xs = ts → rest = .closeParen :: others →
      m.operations + operationsIn args ≤ maxOperations →
      Reaches (arguments free k xs m h) args rest (m.after (operationsIn args)) ∨
        TooDeep (arguments free k xs m h) ∧ 255 < m.depth + n
  | .furtherArguments args, ts, rest => ∀ xs m k h others, tokens xs = ts →
      rest = .closeParen :: others → m.operations + operationsIn args ≤ maxOperations →
      Reaches (moreArguments free k xs m h) args rest (m.after (operationsIn args)) ∨
        TooDeep (moreArguments free k xs m h) ∧ 255 < m.depth + n

variable {free} {n : Nat} {t : Term} {ts rest : List Token} {xs : List Lexeme} {m : Meter}

/-- A run that begins with one that is too deep is too deep. -/
theorem TooDeep.bind {α β : Type} {run : Except Error α} (h : TooDeep run)
    (f : α → Except Error β) : TooDeep (run >>= f) := by
  unfold TooDeep at h
  rw [h]
  rfl

theorem count_ok {m : Meter} (h : m.operations < maxOperations) : m.count = .ok (m.after 1) :=
  if_pos h

/-- Where no sum goes on, the sum ends. -/
theorem Follows.sum_reaches (hf : Follows free n (.sum t) ts rest) (hx : tokens xs = ts)
    (hp : 4 < pull rest) (hops : m.operations + t.operations ≤ maxOperations) :
    Reaches (additive free xs m) t rest (m.after t.operations) ∨
      TooDeep (additive free xs m) ∧ 255 < m.depth + n := by
  rcases hf xs m hx (Nat.lt_of_succ_lt hp) hops with ⟨ys, h, hr, rfl⟩ | hdeep
  · rw [additiveTail_stop (Nat.ne_of_gt hp)] at hr
    exact .inl ⟨ys, h, hr, rfl⟩
  · exact .inr hdeep

/-- Where no product goes on, the product ends. -/
theorem Follows.product_reaches (hf : Follows free n (.product t) ts rest) (hx : tokens xs = ts)
    (hp : 3 < pull rest) (hops : m.operations + t.operations ≤ maxOperations) :
    Reaches (multiplicative free xs m) t rest (m.after t.operations) ∨
      TooDeep (multiplicative free xs m) ∧ 255 < m.depth + n := by
  rcases hf xs m hx (Nat.lt_of_succ_lt hp) hops with ⟨ys, h, hr, rfl⟩ | hdeep
  · rw [multiplicativeTail_stop hp] at hr
    exact .inl ⟨ys, h, hr, rfl⟩
  · exact .inr hdeep

/-- Where no percent sign goes on, the operand ends. -/
theorem Follows.postfixed_reaches (hf : Follows free n (.postfixed t) ts rest)
    (hx : tokens xs = ts) (hp : 1 < pull rest)
    (hops : m.operations + t.operations ≤ maxOperations) :
    Reaches (postfixed free xs m) t rest (m.after t.operations) ∨
      TooDeep (postfixed free xs m) ∧ 256 < m.depth + n := by
  rcases hf xs m hx hops with ⟨ys, h, hr, rfl⟩ | hdeep
  · rw [percents_stop hp] at hr
    exact .inl ⟨ys, h, hr, rfl⟩
  · exact .inr hdeep

/-- An operand with its signs is read one level deeper. -/
theorem Follows.unary_reaches (hf : Follows free n (.signed t) ts rest) (hx : tokens xs = ts)
    (hp : 2 < pull rest) (hops : m.operations + t.operations ≤ maxOperations) :
    Reaches (unary free xs m) t rest (m.after t.operations) ∨
      TooDeep (unary free xs m) ∧ 255 < m.depth + n := by
  rw [unary, Meter.enter]
  split
  · rcases hf xs ⟨m.depth + 1, m.operations⟩ hx hp hops with ⟨ys, h, hr, hy⟩ | ⟨hr, hdeep⟩
    · refine .inl ⟨ys, h, ?_, hy⟩
      exact Except.bind_of_ok hr _
    · exact .inr ⟨hr.bind _, by simp only at hdeep; omega⟩
  · rename_i hd
    exact .inr ⟨rfl, Nat.lt_of_lt_of_le (Nat.not_lt.mp hd) (Nat.le_add_right _ _)⟩

theorem exists_of_tokens_cons {s : Token} (h : tokens xs = s :: ts) :
    ∃ o ys, xs = ⟨s, o⟩ :: ys ∧ tokens ys = ts := by
  obtain ⟨⟨s, o⟩, ys, rfl, rfl, rfl⟩ := List.map_eq_cons_iff.mp h
  exact ⟨o, ys, rfl, rfl⟩

/-! ## One rule at a time -/

variable {u : Term} {mid : List Token}

theorem follows_sum_product (ih : Follows free n (.product t) ts rest) :
    Follows free n (.sum t) ts rest := by
  intro xs m hx hp hops
  rcases ih.product_reaches hx hp hops with ⟨ys, h, hr, hy⟩ | ⟨hr, hdeep⟩
  · refine .inl ⟨ys, h, ?_, hy⟩
    rw [additive]
    exact Except.bind_of_ok hr _
  · refine .inr ⟨?_, hdeep⟩
    rw [additive]
    exact hr.bind _

theorem follows_sum_binary {op : Operator} {b : BinaryOp} (hop : additiveOp? op = some b)
    (ihl : Follows free n (.sum t) ts (.operator op :: mid))
    (ihr : Follows free n (.product u) mid rest) :
    Follows free n (.sum (.binary b t u)) ts rest := by
  intro xs m hx hp hops
  have hops' : m.operations + (t.operations + u.operations + 1) ≤ maxOperations := hops
  rcases ihl xs m hx (by rw [pull_additive hop]; decide) (by omega) with
    ⟨ys, h, hl, hy⟩ | hdeep
  · obtain ⟨o, ys', hys, hy'⟩ := exists_of_tokens_cons hy
    rw [additiveTail_step hys hop, count_ok (by rw [Meter.after_operations]; omega)] at hl
    rcases ihr.product_reaches (m := (m.after t.operations).after 1) hy' hp
      (by simp only [Meter.after_operations]; omega) with ⟨zs, hz, hr, hzs⟩ | ⟨hr, hdeep⟩
    · have hm : ((m.after t.operations).after 1).after u.operations =
          m.after (Term.binary b t u).operations := by
        rw [Meter.after_after, Meter.after_after]
        exact congrArg m.after (by simp only [Term.operations]; omega)
      rw [hm] at hr
      refine .inl ⟨zs, Nat.lt_trans hz (Nat.lt_trans (length_of_cons hys) h), ?_, hzs⟩
      rw [hl]
      exact Except.bind_of_ok hr _
    · refine .inr ⟨?_, hdeep⟩
      rw [hl]
      exact hr.bind _
  · exact .inr hdeep

theorem follows_product_signed (ih : Follows free n (.signed t) ts rest) :
    Follows free n (.product t) ts rest := by
  intro xs m hx hp hops
  rcases ih.unary_reaches hx hp hops with ⟨ys, h, hr, hy⟩ | ⟨hr, hdeep⟩
  · refine .inl ⟨ys, h, ?_, hy⟩
    rw [multiplicative]
    exact Except.bind_of_ok hr _
  · refine .inr ⟨?_, hdeep⟩
    rw [multiplicative]
    exact hr.bind _

theorem follows_product_binary {op : Operator} {b : BinaryOp} (hop : multiplicativeOp? op = some b)
    (hrem : op = .percent → operandNext mid = true)
    (ihl : Follows free n (.product t) ts (.operator op :: mid))
    (ihr : Follows free n (.signed u) mid rest) :
    Follows free n (.product (.binary b t u)) ts rest := by
  intro xs m hx hp hops
  have hops' : m.operations + (t.operations + u.operations + 1) ≤ maxOperations := hops
  rcases ihl xs m hx (by rw [pull_multiplicative hop hrem]; decide) (by omega) with
    ⟨ys, h, hl, hy⟩ | hdeep
  · obtain ⟨o, ys', hys, hy'⟩ := exists_of_tokens_cons hy
    rw [multiplicativeTail_step hys hop, count_ok (by rw [Meter.after_operations]; omega)] at hl
    rcases ihr.unary_reaches (m := (m.after t.operations).after 1) hy' hp
      (by simp only [Meter.after_operations]; omega) with ⟨zs, hz, hr, hzs⟩ | ⟨hr, hdeep⟩
    · have hm : ((m.after t.operations).after 1).after u.operations =
          m.after (Term.binary b t u).operations := by
        rw [Meter.after_after, Meter.after_after]
        exact congrArg m.after (by simp only [Term.operations]; omega)
      rw [hm] at hr
      refine .inl ⟨zs, Nat.lt_trans hz (Nat.lt_trans (length_of_cons hys) h), ?_, hzs⟩
      rw [hl]
      exact Except.bind_of_ok hr _
    · refine .inr ⟨?_, hdeep⟩
      rw [hl]
      exact hr.bind _
  · exact .inr hdeep

theorem follows_signed_sign {op : Operator} {s : UnaryOp} (hop : signOp? op = some s)
    (ih : Follows free n (.signed t) ts rest) :
    Follows free (n + 1) (.signed (.unary s t)) (.operator op :: ts) rest := by
  intro xs m hx hp hops
  have hops' : m.operations + (t.operations + 1) ≤ maxOperations := hops
  obtain ⟨o, ys, rfl, hy⟩ := exists_of_tokens_cons hx
  rw [signed_step rfl hop, count_ok (by omega)]
  rcases ih.unary_reaches (m := m.after 1) hy hp (by rw [Meter.after_operations]; omega) with
    ⟨zs, hz, hr, hzs⟩ | ⟨hr, hdeep⟩
  · rw [Meter.after_after, Nat.add_comm] at hr
    exact .inl ⟨zs, Nat.lt_succ_of_lt hz, Except.bind_of_ok hr _, hzs⟩
  · exact .inr ⟨hr.bind _, Nat.succ_lt_succ hdeep⟩

theorem follows_signed_power (hb : operandNext ts = true)
    (ih : Follows free n (.power t) ts rest) : Follows free n (.signed t) ts rest := by
  intro xs m hx hp hops
  rw [signed_stop (by rw [hx, pull_of_operandNext hb]; decide)]
  exact ih xs m hx hp hops

theorem follows_power_postfixed (ih : Follows free n (.postfixed t) ts rest) :
    Follows free n (.power t) ts rest := by
  intro xs m hx hp hops
  rcases ih.postfixed_reaches hx (Nat.lt_of_succ_lt hp) hops with ⟨ys, h, hr, rfl⟩ | ⟨hr, hdeep⟩
  · exact .inl ⟨ys, h, power_stop hr (Nat.ne_of_gt hp), rfl⟩
  · refine .inr ⟨?_, hdeep⟩
    rw [power]
    exact hr.bind _

theorem follows_power_raised
    (ihb : Follows free (n + 1) (.postfixed t) ts (.operator .caret :: mid))
    (ihe : Follows free n (.signed u) mid rest) :
    Follows free (n + 1) (.power (.binary .power t u)) ts rest := by
  intro xs m hx hp hops
  have hops' : m.operations + (t.operations + u.operations + 1) ≤ maxOperations := hops
  rcases ihb.postfixed_reaches (m := m) hx (Nat.lt_succ_self 1) (by omega) with
    ⟨ys, h, hb, hy⟩ | ⟨hb, hdeep⟩
  · obtain ⟨o, ys', hys, hy'⟩ := exists_of_tokens_cons hy
    rw [power_step hb hys, count_ok (by rw [Meter.after_operations]; omega)]
    rcases ihe.unary_reaches (m := (m.after t.operations).after 1) hy' hp
      (by simp only [Meter.after_operations]; omega) with ⟨zs, hz, he, hzs⟩ | ⟨he, hdeep⟩
    · have hm : ((m.after t.operations).after 1).after u.operations =
          m.after (Term.binary .power t u).operations := by
        rw [Meter.after_after, Meter.after_after]
        exact congrArg m.after (by simp only [Term.operations]; omega)
      rw [hm] at he
      exact .inl ⟨zs, Nat.lt_trans hz (Nat.lt_trans (length_of_cons hys) h),
        Except.bind_of_ok he _, hzs⟩
    · exact .inr ⟨he.bind _, Nat.succ_lt_succ hdeep⟩
  · refine .inr ⟨?_, hdeep⟩
    rw [power]
    exact hb.bind _

theorem follows_postfixed_primary (ih : Follows free n (.primary t) ts rest) :
    Follows free n (.postfixed t) ts rest := by
  intro xs m hx hops
  rw [postfixed]
  rcases ih xs m hx hops with ⟨ys, h, hr, hy⟩ | ⟨hr, hdeep⟩
  · exact .inl ⟨ys, h, Except.bind_of_ok hr _, hy⟩
  · exact .inr ⟨hr.bind _, hdeep⟩

theorem follows_postfixed_percent (hp : operandNext rest = false)
    (ih : Follows free n (.postfixed t) ts (.operator .percent :: rest)) :
    Follows free n (.postfixed (.unary .percent t)) ts rest := by
  intro xs m hx hops
  have hops' : m.operations + (t.operations + 1) ≤ maxOperations := hops
  rcases ih xs m hx (by omega) with ⟨ys, h, hr, hy⟩ | hdeep
  · obtain ⟨o, ys', hys, rfl⟩ := exists_of_tokens_cons hy
    rw [percents_step hys hp, count_ok (by rw [Meter.after_operations]; omega)] at hr
    refine .inl ⟨ys', Nat.lt_trans (length_of_cons hys) h, ?_, rfl⟩
    rw [hr]
    show percents _ _ _ ((m.after t.operations).after 1) _ = _
    rw [Meter.after_after]
    rfl
  · exact .inr hdeep

theorem follows_group (ih : Follows free n (.sum t) ts (.closeParen :: rest)) :
    Follows free (n + 1) (.primary t) (.openParen :: ts) rest := by
  intro xs m hx hops
  obtain ⟨o, ys, rfl, hy⟩ := exists_of_tokens_cons hx
  rw [primary_group rfl]
  rcases ih.sum_reaches hy (Nat.lt_succ_self 4) hops with ⟨zs, hz, hr, hzs⟩ | ⟨hr, hdeep⟩
  · obtain ⟨o', zs', hzs', rfl⟩ := exists_of_tokens_cons hzs
    refine .inl ⟨zs', Nat.lt_succ_of_lt (Nat.lt_trans (length_of_cons hzs') hz), ?_, rfl⟩
    rw [Except.bind_of_ok hr]
    exact Except.bind_of_ok (closing_step hzs') _
  · exact .inr ⟨hr.bind _, Nat.succ_lt_succ hdeep⟩

theorem meaning_variable {name : String} (h : free = some name) : meaning free name = .variable :=
  if_pos h

theorem meaning_constant {name : String} {x : Float} (hf : free ≠ some name)
    (hc : constant? name = some x) : meaning free name = .constant x := by
  rw [meaning, if_neg hf, hc]

theorem meaning_function {name : String} {f : Function} (hf : free ≠ some name)
    (hc : constant? name = none) (hn : Function.ofName? name = some f) :
    meaning free name = .function f := by
  rw [meaning, if_neg hf, hc, hn]

/-- The argument list of a call with its parentheses. -/
theorem call_reaches {args : List Term} (name : String)
    (ih : Follows free n (.arguments args) ts (.closeParen :: rest))
    (hx : tokens xs = .openParen :: ts)
    (hops : m.operations + (operationsIn args + 1) ≤ maxOperations) :
    Reaches (call free name xs m) args rest (m.after (operationsIn args + 1)) ∨
      TooDeep (call free name xs m) ∧ 255 < m.depth + n := by
  obtain ⟨o, ys, hys, hy⟩ := exists_of_tokens_cons hx
  rw [call_step hys, count_ok (by omega)]
  rcases ih ys (m.after 1) (ys.length + 1) (Nat.lt_succ_self _) rest hy rfl
    (by rw [Meter.after_operations]; omega) with ⟨zs, hz, hr, hzs⟩ | ⟨hr, hdeep⟩
  · obtain ⟨o', zs', hzs', rfl⟩ := exists_of_tokens_cons hzs
    have hlt := length_of_cons hzs'
    have hlt' := length_of_cons hys
    rw [Meter.after_after, Nat.add_comm 1] at hr
    refine .inl ⟨zs', by omega, ?_, rfl⟩
    show (arguments free (ys.length + 1) ys (m.after 1) _ >>= _) = _
    rw [Except.bind_of_ok hr]
    exact Except.bind_of_ok (closing_step hzs') _
  · exact .inr ⟨hr.bind _, hdeep⟩

theorem follows_call {name : String} {f : Function} {args : List Term} (hfree : free ≠ some name)
    (hconst : constant? name = none) (hfun : Function.ofName? name = some f)
    (harity : args.length = f.arity)
    (ih : Follows free n (.arguments args) ts (.closeParen :: rest)) :
    Follows free (n + 1) (.primary (.call name args)) (.name name :: .openParen :: ts) rest := by
  intro xs m hx hops
  obtain ⟨o, ys, rfl, hy⟩ := exists_of_tokens_cons hx
  rw [primary_function rfl (meaning_function hfree hconst hfun)]
  rcases call_reaches name ih hy hops with ⟨zs, hz, hr, hzs⟩ | ⟨hr, hdeep⟩
  · refine .inl ⟨zs, Nat.lt_succ_of_lt hz, ?_, hzs⟩
    rw [Except.bind_of_ok hr]
    exact if_pos harity
  · exact .inr ⟨hr.bind _, Nat.succ_lt_succ hdeep⟩

theorem follows_arguments_some {args : List Term}
    (hb : ∃ s others, ts = s :: others ∧ s ≠ .closeParen)
    (hp : ∀ others, rest = .closeParen :: others → pull mid = 5)
    (ihf : Follows free n (.sum t) ts mid)
    (iho : Follows free n (.furtherArguments args) mid rest) :
    Follows free n (.arguments (t :: args)) ts rest := by
  intro xs m k h others hx hrest hops
  have hops' : m.operations + (t.operations + operationsIn args) ≤ maxOperations := hops
  have hclose : ∀ o ys, xs ≠ ⟨.closeParen, o⟩ :: ys := by
    rintro o ys rfl
    obtain ⟨s, others, rfl, hs⟩ := hb
    exact hs (List.cons.inj hx).1.symm
  rw [arguments_step hclose]
  rcases ihf.sum_reaches (m := m) hx (by rw [hp _ hrest]; decide) (by omega) with
    ⟨ys, hlt, hr, hy⟩ | ⟨hr, hdeep⟩
  · rw [Except.bind_of_ok hr]
    rcases iho ys (m.after t.operations) k (Nat.lt_trans hlt h) others hy hrest
      (by rw [Meter.after_operations]; omega) with ⟨zs, hz, hr, hzs⟩ | ⟨hr, hdeep⟩
    · rw [Meter.after_after] at hr
      exact .inl ⟨zs, hz, Except.bind_of_ok hr _, hzs⟩
    · exact .inr ⟨hr.bind _, hdeep⟩
  · exact .inr ⟨hr.bind _, hdeep⟩

theorem follows_further_some {args : List Term}
    (hp : ∀ others, rest = .closeParen :: others → pull mid = 5)
    (ihf : Follows free n (.sum t) ts mid)
    (iho : Follows free n (.furtherArguments args) mid rest) :
    Follows free n (.furtherArguments (t :: args)) (.comma :: ts) rest := by
  intro xs m k h others hx hrest hops
  have hops' : m.operations + (t.operations + operationsIn args) ≤ maxOperations := hops
  obtain ⟨o, xs', hxs, hx'⟩ := exists_of_tokens_cons hx
  rw [moreArguments_step hxs]
  rcases ihf.sum_reaches (m := m) hx' (by rw [hp _ hrest]; decide) (by omega) with
    ⟨ys, hlt, hr, hy⟩ | ⟨hr, hdeep⟩
  · rw [Except.bind_of_ok hr]
    rcases iho ys (m.after t.operations) k (Nat.lt_trans hlt (Nat.lt_trans (length_of_cons hxs) h))
      others hy hrest (by rw [Meter.after_operations]; omega) with ⟨zs, hz, hr, hzs⟩ | ⟨hr, hdeep⟩
    · rw [Meter.after_after] at hr
      exact .inl ⟨zs, hz, Except.bind_of_ok hr _, hzs⟩
    · exact .inr ⟨hr.bind _, hdeep⟩
  · exact .inr ⟨hr.bind _, hdeep⟩

/-- **A reader follows every derivation of its phrase.** -/
theorem follows_of_derives {p : Phrase} (hd : Derives free n p ts rest) :
    Follows free n p ts rest := by
  induction hd with
  | sum_product _ ih => exact follows_sum_product ih
  | sum_binary hop _ _ ihl ihr => exact follows_sum_binary hop ihl ihr
  | product_signed _ ih => exact follows_product_signed ih
  | product_binary hop hrem _ _ ihl ihr => exact follows_product_binary hop hrem ihl ihr
  | signed_sign hop _ ih => exact follows_signed_sign hop ih
  | signed_power h ih => exact follows_signed_power h.begins ih
  | power_postfixed _ ih => exact follows_power_postfixed ih
  | power_raised _ _ ihb ihe => exact follows_power_raised ihb ihe
  | postfixed_primary _ ih => exact follows_postfixed_primary ih
  | postfixed_percent _ hp ih => exact follows_postfixed_percent hp ih
  | number =>
    intro xs m hx _
    obtain ⟨o, ys, rfl, hy⟩ := exists_of_tokens_cons hx
    exact .inl ⟨ys, Nat.lt_succ_self _, primary_number rfl, hy⟩
  | group _ ih => exact follows_group ih
  | bound hf =>
    intro xs m hx _
    obtain ⟨o, ys, rfl, hy⟩ := exists_of_tokens_cons hx
    exact .inl ⟨ys, Nat.lt_succ_self _, primary_variable rfl (meaning_variable hf), hy⟩
  | constant hf hc =>
    intro xs m hx _
    obtain ⟨o, ys, rfl, hy⟩ := exists_of_tokens_cons hx
    exact .inl ⟨ys, Nat.lt_succ_self _, primary_constant rfl (meaning_constant hf hc), hy⟩
  | call hf hc hn ha _ ih => exact follows_call hf hc hn ha ih
  | arguments_none =>
    rintro xs m k h others hx rfl -
    obtain ⟨o, ys, hxs, -⟩ := exists_of_tokens_cons hx
    exact .inl ⟨xs, h, arguments_stop hxs, hx⟩
  | arguments_some hf ho ihf iho =>
    refine follows_arguments_some hf.begins ?_ ihf iho
    rintro others rfl
    exact pull_further ho
  | further_none =>
    rintro xs m k h others hx rfl -
    obtain ⟨o, ys, rfl, -⟩ := exists_of_tokens_cons hx
    exact .inl ⟨_, h, moreArguments_stop nofun, hx⟩
  | further_some _ ho ihf iho =>
    refine follows_further_some ?_ ihf iho
    rintro others rfl
    exact pull_further ho

end Abacus.Term.Parser
