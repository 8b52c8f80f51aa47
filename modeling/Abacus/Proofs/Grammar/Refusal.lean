import Abacus.Proofs.Grammar.Nesting
import Abacus.Proofs.Grammar.Soundness

/-!
# What a reader refuses for its limits

A reader that gives up for the nesting has come to a place as deep as the limit, and one that gives
up for the number of operations has more operators and calls before it than the limit admits. What
was read before the fault is followed along its derivation, and the fault itself is found where the
reader stands.

* `operationTokens`: the operators and calls among tokens, whether they are an expression or not. A
  percent sign and a sign in front count as operators, a name counts as a call if it is that of a
  function and a parenthesis follows.
* `Blamed`: an error that names a limit is justified by the depth and by that number; every other
  error is left alone.

The readers recurse through one another, so the statements are proved together, by the measure the
readers themselves end by. Each says that the error of a reader is justified by the deepest place
(`Grammar.deepest`) on its tokens and by the operations counted so far with those among its tokens.

Results:
* `Derives.operations_le`: the operators and calls of a phrase stand among its tokens.
* `additive_refused`: every error of a sum is justified.

The converse, that what is nested too deep is refused, needs an expression and is
`Proofs/Grammar/Limits`.
-/

namespace Abacus.Term.Grammar

/-! ## Operators and calls among tokens -/

/-- The next token is an opening parenthesis. -/
def openNext : List Token → Bool
  | .openParen :: _ => true
  | _ => false

/-- The operator signs, and the names of functions before a parenthesis. -/
def operationTokens : List Token → Nat
  | [] => 0
  | .operator _ :: ts => operationTokens ts + 1
  | .name name :: ts =>
    if (Function.ofName? name).isSome && openNext ts then operationTokens ts + 1
    else operationTokens ts
  | _ :: ts => operationTokens ts

theorem operationTokens_name_le (name : String) (ts : List Token) :
    operationTokens ts ≤ operationTokens (.name name :: ts) := by
  rw [operationTokens]
  split
  · exact Nat.le_succ _
  · exact Nat.le_refl _

theorem operationTokens_call {name : String} {f : Function} (h : Function.ofName? name = some f)
    (ts : List Token) :
    operationTokens (.name name :: .openParen :: ts) = operationTokens ts + 1 := by
  rw [operationTokens, h]
  rfl

/-- **The operators and calls of a phrase stand among its tokens.** -/
theorem Derives.operations_le {free : Option String} {n : Nat} {φ : Phrase} {ts rest : List Token}
    (h : Derives free n φ ts rest) : φ.operations + operationTokens rest ≤ operationTokens ts := by
  induction h with
  | sum_product _ ih | product_signed _ ih | signed_power _ ih | power_postfixed _ ih
  | postfixed_primary _ ih => exact ih
  | sum_binary _ _ _ ihl ihr | product_binary _ _ _ _ ihl ihr | power_raised _ _ ihl ihr =>
    simp only [Phrase.operations, Term.operations, operationTokens] at ihl ihr ⊢
    omega
  | signed_sign _ _ ih | postfixed_percent _ _ ih =>
    simp only [Phrase.operations, Term.operations, operationTokens] at ih ⊢
    omega
  | number => exact Nat.le_of_eq (Nat.zero_add _)
  | bound | constant =>
    refine Nat.le_trans (Nat.le_of_eq (Nat.zero_add _)) (operationTokens_name_le _ _)
  | group _ ih => exact ih
  | call _ _ hfun _ _ ih =>
    rw [operationTokens_call hfun]
    simp only [Phrase.operations, Term.operations, operationTokens] at ih ⊢
    omega
  | arguments_none | further_none => exact Nat.le_of_eq (Nat.zero_add _)
  | arguments_some _ _ ihf iho | further_some _ _ ihf iho =>
    simp only [Phrase.operations, operationsIn, operationTokens] at ihf iho ⊢
    omega

end Abacus.Term.Grammar

namespace Abacus.Term.Parser

open Grammar

/-- An error that names a limit is justified by the nesting and by the number of operations. -/
def Blamed (e : Error) (depth operations : Nat) : Prop :=
  match e with
  | .nestingTooDeep limit => limit = maxNesting ∧ maxNesting ≤ depth
  | .tooManyOperations limit => limit = maxOperations ∧ maxOperations < operations
  | _ => True

variable {free : Option String} {e : Error} {depth operations : Nat}

theorem Blamed.mono (h : Blamed e depth operations) {depth' operations' : Nat}
    (hd : depth ≤ depth') (ho : operations ≤ operations') : Blamed e depth' operations' := by
  cases e with
  | nestingTooDeep limit => exact ⟨h.1, Nat.le_trans h.2 hd⟩
  | tooManyOperations limit => exact ⟨h.1, Nat.lt_of_lt_of_le h.2 ho⟩
  | _ => trivial

theorem Blamed.of_count {m : Meter} (h : m.count = .error e) (ho : m.operations < operations) :
    Blamed e depth operations := by
  unfold Meter.count at h
  split at h
  · cases h
  · rename_i hle
    cases h
    exact ⟨rfl, Nat.lt_of_le_of_lt (Nat.not_lt.mp hle) ho⟩

theorem Blamed.of_closing {opened : Nat} {ts : List Lexeme} (h : closing opened ts = .error e) :
    Blamed e depth operations := by
  unfold closing at h
  split at h
  · cases h
  · cases h
    trivial
  · cases h
    trivial

/-- What was read has been counted. -/
theorem Reads.operations_le {n : Nat} {φ : Phrase} {ts rest : List Lexeme} {m m' : Meter}
    (h : Reads free n φ ts m rest m') :
    m'.operations + operationTokens (tokens rest) ≤ m.operations + operationTokens (tokens ts) := by
  have hle := h.derives.operations_le
  rw [h.meter, Meter.after_operations]
  omega

theorem operationTokens_operator {ts rest : List Lexeme} {op : Operator} {o : Nat}
    (h : ts = ⟨.operator op, o⟩ :: rest) :
    operationTokens (tokens ts) = operationTokens (tokens rest) + 1 := by
  rw [h]
  rfl

/-- A token is passed on the way to the fault. -/
theorem Blamed.of_step {p q : Place} {t : Token} {ts : List Token} {k : Nat}
    (h : Blamed e (deepest q ts) k) (hq : p.step t ts = q) (ho : k ≤ operations) :
    Blamed e (deepest p (t :: ts)) operations :=
  h.mono (hq ▸ deepest_step_le p t ts) ho

/-! ## Every reader -/

theorem percents_refused {n : Nat} {operand : Term} {ts : List Lexeme} {m : Meter}
    {h : ts.length < n} (he : percents n operand ts m h = .error e) :
    Blamed e depth (m.operations + operationTokens (tokens ts)) := by
  rcases Nat.lt_or_ge 1 (pull (tokens ts)) with hp | hp
  · rw [percents_stop hp] at he
    cases he
  · obtain ⟨o, rest, hts, hop⟩ := pull_eq_one (Nat.le_antisymm hp (pull_pos _))
    rw [percents_step hts hop] at he
    have hops := operationTokens_operator hts
    rcases Except.bind_eq_error.mp he with he | ⟨m', hm, he⟩
    · exact .of_count he (by omega)
    · obtain ⟨rfl, -⟩ := count_eq_ok hm
      have := length_of_cons hts
      exact (percents_refused he).mono (Nat.le_refl _)
        (by rw [Meter.after_operations]; omega)
termination_by ts.length

mutual

theorem additive_refused {ts : List Lexeme} {m : Meter} (opened : List Nat)
    (he : additive free ts m = .error e) (hd : m.depth = ground opened) :
    Blamed e (deepest ⟨true, ground opened, opened⟩ (tokens ts))
      (m.operations + operationTokens (tokens ts)) := by
  rw [additive_eq] at he
  rcases Except.bind_eq_error.mp he with he | ⟨⟨t, rest, m', h⟩, ht, he⟩
  · exact multiplicative_refused opened he hd
  · obtain ⟨-, hs, -⟩ := multiplicative_sound ht
    obtain ⟨d, hpass⟩ := passes_of_derives hs.derives opened
    exact (additiveTail_refused opened he (hs.depth_eq.trans hd) d).mono hpass.deepest_le
      hs.operations_le
termination_by 8 * ts.length + 6

theorem additiveTail_refused {n : Nat} {t : Term} {ts : List Lexeme} {m : Meter}
    {h : ts.length < n} (opened : List Nat) (he : additiveTail free n t ts m h = .error e)
    (hd : m.depth = ground opened) (d : Nat) :
    Blamed e (deepest ⟨false, d, opened⟩ (tokens ts))
      (m.operations + operationTokens (tokens ts)) := by
  by_cases h4 : pull (tokens ts) = 4
  · obtain ⟨op, b, -, o, rest, hts, hop, -⟩ := pull_eq_four h4
    rw [additiveTail_step hts hop] at he
    have hops := operationTokens_operator hts
    rcases Except.bind_eq_error.mp he with he | ⟨m', hm, he⟩
    · exact .of_count he (by omega)
    · obtain ⟨rfl, -⟩ := count_eq_ok hm
      have := length_of_cons hts
      have hstep := step_additive hop d opened (tokens rest)
      have hright : Blamed e (deepest ⟨true, ground opened, opened⟩ (tokens rest))
          ((m.after 1).operations + operationTokens (tokens rest)) := by
        rcases Except.bind_eq_error.mp he with he | ⟨u, hu, he⟩
        · exact multiplicative_refused opened he hd
        · obtain ⟨-, hs, -⟩ := multiplicative_sound hu
          obtain ⟨d', hpass⟩ := passes_of_derives hs.derives opened
          have := Nat.lt_trans u.shorter this
          exact (additiveTail_refused opened he (hs.depth_eq.trans hd) d').mono hpass.deepest_le
            hs.operations_le
      rw [Meter.after_operations] at hright
      rw [congrArg tokens hts]
      exact hright.of_step hstep (by rw [← congrArg tokens hts]; omega)
  · rw [additiveTail_stop h4] at he
    cases he
termination_by 8 * ts.length

theorem multiplicative_refused {ts : List Lexeme} {m : Meter} (opened : List Nat)
    (he : multiplicative free ts m = .error e) (hd : m.depth = ground opened) :
    Blamed e (deepest ⟨true, ground opened, opened⟩ (tokens ts))
      (m.operations + operationTokens (tokens ts)) := by
  rw [multiplicative_eq] at he
  rcases Except.bind_eq_error.mp he with he | ⟨⟨t, rest, m', h⟩, ht, he⟩
  · exact unary_refused opened he hd
  · obtain ⟨-, hs, hp⟩ := unary_sound ht
    obtain ⟨d, hpass⟩ := passes_of_derives hs.derives (ground opened) opened
    exact (multiplicativeTail_refused opened he (hs.depth_eq.trans hd) hp d).mono hpass.deepest_le
      hs.operations_le
termination_by 8 * ts.length + 5

theorem multiplicativeTail_refused {n : Nat} {t : Term} {ts : List Lexeme} {m : Meter}
    {h : ts.length < n} (opened : List Nat) (he : multiplicativeTail free n t ts m h = .error e)
    (hd : m.depth = ground opened) (hp : 2 < pull (tokens ts)) (d : Nat) :
    Blamed e (deepest ⟨false, d, opened⟩ (tokens ts))
      (m.operations + operationTokens (tokens ts)) := by
  rcases Nat.lt_or_ge 3 (pull (tokens ts)) with h3 | h3
  · rw [multiplicativeTail_stop h3] at he
    cases he
  · obtain ⟨op, b, o, rest, hts, hop, hrem⟩ := pull_eq_three (Nat.le_antisymm h3 hp)
    rw [multiplicativeTail_step hts hop] at he
    have hops := operationTokens_operator hts
    rcases Except.bind_eq_error.mp he with he | ⟨m', hm, he⟩
    · exact .of_count he (by omega)
    · obtain ⟨rfl, -⟩ := count_eq_ok hm
      have := length_of_cons hts
      have hstep := step_multiplicative hop hrem d opened
      have hright : Blamed e (deepest ⟨true, ground opened, opened⟩ (tokens rest))
          ((m.after 1).operations + operationTokens (tokens rest)) := by
        rcases Except.bind_eq_error.mp he with he | ⟨u, hu, he⟩
        · exact unary_refused opened he hd
        · obtain ⟨-, hs, hp⟩ := unary_sound hu
          obtain ⟨d', hpass⟩ := passes_of_derives hs.derives (ground opened) opened
          have := Nat.lt_trans u.shorter this
          exact (multiplicativeTail_refused opened he (hs.depth_eq.trans hd) hp d').mono
            hpass.deepest_le hs.operations_le
      rw [Meter.after_operations] at hright
      rw [congrArg tokens hts]
      exact hright.of_step hstep (by rw [← congrArg tokens hts]; omega)
termination_by 8 * ts.length

theorem unary_refused {ts : List Lexeme} {m : Meter} {d : Nat} (opened : List Nat)
    (he : unary free ts m = .error e) (hd : m.depth = d) :
    Blamed e (deepest ⟨true, d, opened⟩ (tokens ts))
      (m.operations + operationTokens (tokens ts)) := by
  rw [unary_eq] at he
  rcases Except.bind_eq_error.mp he with he | ⟨m', hm, he⟩
  · unfold Meter.enter at he
    split at he
    · cases he
    · rename_i hlt
      cases he
      refine ⟨rfl, Nat.le_trans (Nat.not_lt.mp hlt) ?_⟩
      rw [hd]
      exact depth_le_deepest ⟨true, d, opened⟩ _
  · obtain ⟨-, rfl⟩ := enter_eq_ok hm
    rcases Except.bind_eq_error.mp he with he | ⟨r, -, he⟩
    · have hdepth : m.depth + 1 = d + 1 := congrArg (· + 1) hd
      have hsigned := signed_refused opened he hdepth
      exact hsigned
    · cases he
termination_by 8 * ts.length + 4

theorem signed_refused {ts : List Lexeme} {m : Meter} {d : Nat} (opened : List Nat)
    (he : signed free ts m = .error e) (hd : m.depth = d + 1) :
    Blamed e (deepest ⟨true, d, opened⟩ (tokens ts))
      (m.operations + operationTokens (tokens ts)) := by
  by_cases h4 : pull (tokens ts) = 4
  · obtain ⟨op, -, u, o, rest, hts, -, hop⟩ := pull_eq_four h4
    have := length_of_cons hts
    rw [signed_step hts hop] at he
    have hops := operationTokens_operator hts
    rcases Except.bind_eq_error.mp he with he | ⟨m', hm, he⟩
    · exact .of_count he (by omega)
    · obtain ⟨rfl, -⟩ := count_eq_ok hm
      rcases Except.bind_eq_error.mp he with he | ⟨r, -, he⟩
      · have hoperand := unary_refused opened he hd
        rw [Meter.after_operations] at hoperand
        rw [congrArg tokens hts]
        exact hoperand.of_step (step_sign hop d opened _) (by rw [← congrArg tokens hts]; omega)
      · cases he
  · rw [signed_stop h4] at he
    exact power_refused opened he hd
termination_by 8 * ts.length + 3

theorem power_refused {ts : List Lexeme} {m : Meter} {d : Nat} (opened : List Nat)
    (he : power free ts m = .error e) (hd : m.depth = d + 1) :
    Blamed e (deepest ⟨true, d, opened⟩ (tokens ts))
      (m.operations + operationTokens (tokens ts)) := by
  cases hb : postfixed free ts m with
  | error e' =>
    rw [power_of_error hb] at he
    cases he
    exact postfixed_refused opened hb hd
  | ok b =>
    obtain ⟨hs, -⟩ := postfixed_sound hb
    have hpass := passes_of_derives hs.derives d opened
    by_cases h2 : pull (tokens b.rest) = 2
    · obtain ⟨o, rest, hrest⟩ := pull_eq_two h2
      rw [power_step hb hrest] at he
      have hops := operationTokens_operator hrest
      have := Nat.lt_trans (length_of_cons hrest) b.shorter
      refine Blamed.mono ?_ hpass.deepest_le hs.operations_le
      rcases Except.bind_eq_error.mp he with he | ⟨m', hm, he⟩
      · exact .of_count he (by omega)
      · obtain ⟨rfl, -⟩ := count_eq_ok hm
        rcases Except.bind_eq_error.mp he with he | ⟨r, -, he⟩
        · have hexponent := unary_refused opened he (hs.depth_eq.trans hd)
          rw [Meter.after_operations] at hexponent
          rw [congrArg tokens hrest]
          exact hexponent.of_step rfl (by rw [← congrArg tokens hrest]; omega)
        · cases he
    · rw [power_stop hb h2] at he
      cases he
termination_by 8 * ts.length + 2

theorem postfixed_refused {ts : List Lexeme} {m : Meter} {d : Nat} (opened : List Nat)
    (he : postfixed free ts m = .error e) (hd : m.depth = d + 1) :
    Blamed e (deepest ⟨true, d, opened⟩ (tokens ts))
      (m.operations + operationTokens (tokens ts)) := by
  rw [postfixed_eq] at he
  rcases Except.bind_eq_error.mp he with he | ⟨r, hr, he⟩
  · exact primary_refused opened he hd
  · exact (percents_refused he).mono (Nat.le_refl _) (primary_sound hr).operations_le
termination_by 8 * ts.length + 1

theorem primary_refused {ts : List Lexeme} {m : Meter} {d : Nat} (opened : List Nat)
    (he : primary free ts m = .error e) (hd : m.depth = d + 1) :
    Blamed e (deepest ⟨true, d, opened⟩ (tokens ts))
      (m.operations + operationTokens (tokens ts)) := by
  match ts, he with
  | [], he =>
    rw [primary] at he
    cases he
    trivial
  | ⟨.number x, o⟩ :: rest, he =>
    rw [primary_number rfl] at he
    cases he
  | ⟨.openParen, o⟩ :: rest, he =>
    rw [primary_group rfl] at he
    rcases Except.bind_eq_error.mp he with he | ⟨t, -, he⟩
    · have hinner := additive_refused (d :: opened) he hd
      exact hinner.of_step rfl (Nat.le_refl _)
    · rcases Except.bind_eq_error.mp he with he | ⟨r, -, he⟩
      · exact .of_closing he
      · cases he
  | ⟨.name name, o⟩ :: rest, he =>
    have hspec := meaning_spec free name
    rcases hm : meaning free name with _ | x | f | _
    · rw [primary_variable rfl hm] at he
      cases he
    · rw [primary_constant rfl hm] at he
      cases he
    · rw [hm] at hspec
      rw [primary_function rfl hm] at he
      rcases Except.bind_eq_error.mp he with he | ⟨a, -, he⟩
      · exact call_refused opened he hspec.2.2 hd
      · split at he
        · cases he
        · cases he
          trivial
    · rw [primary_unknown rfl hm] at he
      cases he
      trivial
  | ⟨.operator _, _⟩ :: _, he | ⟨.closeParen, _⟩ :: _, he | ⟨.comma, _⟩ :: _, he =>
    rw [primary_stop rfl] at he
    cases he
    trivial
termination_by 8 * ts.length

theorem call_refused {name : String} {f : Function} {ts : List Lexeme} {m : Meter} {d : Nat}
    (opened : List Nat) (he : call free name ts m = .error e)
    (hfun : Function.ofName? name = some f) (hd : m.depth = d + 1) :
    Blamed e (deepest ⟨true, d, opened⟩ (.name name :: tokens ts))
      (m.operations + operationTokens (.name name :: tokens ts)) := by
  by_cases hopen : ∃ o rest, ts = ⟨.openParen, o⟩ :: rest
  · obtain ⟨o, rest, rfl⟩ := hopen
    rw [call_step rfl] at he
    have hops : operationTokens (.name name :: tokens (⟨.openParen, o⟩ :: rest)) =
        operationTokens (tokens rest) + 1 := operationTokens_call hfun (tokens rest)
    rcases Except.bind_eq_error.mp he with he | ⟨m', hm, he⟩
    · exact .of_count he (by omega)
    · obtain ⟨rfl, -⟩ := count_eq_ok hm
      rcases Except.bind_eq_error.mp he with he | ⟨a, -, he⟩
      · have hinner := arguments_refused (d :: opened) he hd
        have hopen : Blamed e (deepest ⟨false, d, opened⟩ (.openParen :: tokens rest)) _ :=
          hinner.of_step rfl (Nat.le_refl _)
        refine hopen.of_step rfl ?_
        rw [Meter.after_operations]
        omega
      · rcases Except.bind_eq_error.mp he with he | ⟨r, -, he⟩
        · exact .of_closing he
        · cases he
  · rw [call_stop fun o rest e => hopen ⟨o, rest, e⟩] at he
    cases he
    trivial
termination_by 8 * ts.length

theorem arguments_refused {n : Nat} {ts : List Lexeme} {m : Meter} {h : ts.length < n}
    (opened : List Nat) (he : arguments free n ts m h = .error e) (hd : m.depth = ground opened) :
    Blamed e (deepest ⟨true, ground opened, opened⟩ (tokens ts))
      (m.operations + operationTokens (tokens ts)) := by
  by_cases hclose : ∃ o rest, ts = ⟨.closeParen, o⟩ :: rest
  · obtain ⟨o, rest, hts⟩ := hclose
    rw [arguments_stop hts] at he
    cases he
  · rw [arguments_step fun o rest e => hclose ⟨o, rest, e⟩] at he
    rcases Except.bind_eq_error.mp he with he | ⟨a, ha, he⟩
    · exact additive_refused opened he hd
    · obtain ⟨-, hs, -⟩ := additive_sound ha
      obtain ⟨d, hpass⟩ := passes_of_derives hs.derives opened
      have := a.shorter
      rcases Except.bind_eq_error.mp he with he | ⟨as, -, he⟩
      · exact (moreArguments_refused opened he (hs.depth_eq.trans hd) d).mono hpass.deepest_le
          hs.operations_le
      · cases he
termination_by 8 * ts.length + 7

theorem moreArguments_refused {n : Nat} {ts : List Lexeme} {m : Meter} {h : ts.length < n}
    (opened : List Nat) (he : moreArguments free n ts m h = .error e)
    (hd : m.depth = ground opened) (d : Nat) :
    Blamed e (deepest ⟨false, d, opened⟩ (tokens ts))
      (m.operations + operationTokens (tokens ts)) := by
  by_cases hcomma : ∃ o rest, ts = ⟨.comma, o⟩ :: rest
  · obtain ⟨o, rest, hts⟩ := hcomma
    rw [moreArguments_step hts] at he
    have := length_of_cons hts
    have hnext : Blamed e (deepest ⟨true, ground opened, opened⟩ (tokens rest))
        (m.operations + operationTokens (tokens rest)) := by
      rcases Except.bind_eq_error.mp he with he | ⟨a, ha, he⟩
      · exact additive_refused opened he hd
      · obtain ⟨-, hs, -⟩ := additive_sound ha
        obtain ⟨d', hpass⟩ := passes_of_derives hs.derives opened
        have := a.shorter
        rcases Except.bind_eq_error.mp he with he | ⟨as, -, he⟩
        · exact (moreArguments_refused opened he (hs.depth_eq.trans hd) d').mono hpass.deepest_le
            hs.operations_le
        · cases he
    rw [congrArg tokens hts]
    exact hnext.of_step rfl (Nat.le_refl _)
  · rw [moreArguments_stop fun o rest e => hcomma ⟨o, rest, e⟩] at he
    cases he
termination_by 8 * ts.length

end

end Abacus.Term.Parser
