import Abacus.Proofs.Grammar.Reader
import Abacus.Proofs.Term.Substitution
import Mathlib.Data.List.Forall2

/-!
# Two readings side by side

The same expression is read twice: once with a variable, and once with nothing bound, where a
number may stand in for the variable. The two readings take the same steps. They find the same
term up to the number, count the same, and are refused for the same cause at corresponding places.
Where no number stands in, the name of the variable has no meaning in the second reading, which is
refused at the first place where the name is due; up to there the readings do not differ.

* `StandIn`: what stands in for the variable, and how the offsets of both readings are related.
* `Corresponds`: a token of the first reading and that of the second.
* `Refuses`: errors of one cause. The token that an error names is replaced like any other.
* `Agrees`: two runs have related results, or errors of one cause, or the second has met the bare
  name. It goes through runs in sequence (`Agrees.bind`), so each reader takes one lemma.
* `Same`: what two readers have read, what they have left, and their meters.

The lemmas of the readers are proved together, by the measure the readers end by.

Results:
* `ofLexemes_agrees`: two readings of corresponding tokens agree.
* `ofLexemes_none_eq`: without a variable the same tokens are read the same way, up to its name.

Used for the number written in the place of the variable (`Proofs/Term/Insertion`) and for texts
read with and without a variable (`Proofs/Term/Binding`).
-/

namespace Abacus.Term.Parser

open Grammar

/-- What stands in for a variable in a second reading: a number, or nothing but the name, which
then must have no meaning of its own. The offsets of the two readings are related by `moves`. -/
structure StandIn where
  name : String
  number? : Option Float
  moves : Nat → Nat → Prop
  meaningless : number? = none → meaning none name = .unknown

namespace StandIn

variable (u : StandIn)

/-- The token of the second reading. -/
def token : Token → Token
  | .name s =>
    if s = u.name then
      match u.number? with
      | some x => .number x
      | none => .name s
    else .name s
  | t => t

/-- The term of the second reading. -/
def term (t : Term) : Term :=
  match u.number? with
  | some x => t.assign u.name x
  | none => t

/-- The terms of the second reading. -/
def terms (ts : List Term) : List Term :=
  match u.number? with
  | some x => assignIn u.name x ts
  | none => ts

/-- The tokens correspond and stand at corresponding places. -/
structure Corresponds (s s' : Lexeme) : Prop where
  token : s'.token = u.token s.token
  offset : u.moves s.offset s'.offset

/-- The errors have the same cause at corresponding places. -/
inductive Refuses : Error → Error → Prop
  | unexpectedToken {t : Token} {o o' : Nat} (h : u.moves o o') :
      Refuses (.unexpectedToken t o) (.unexpectedToken (u.token t) o')
  | trailingInput {t : Token} {o o' : Nat} (h : u.moves o o') :
      Refuses (.trailingInput t o) (.trailingInput (u.token t) o')
  | unbalancedParentheses {o o' : Nat} (h : u.moves o o') :
      Refuses (.unbalancedParentheses o) (.unbalancedParentheses o')
  | unexpectedEnd : Refuses .unexpectedEnd .unexpectedEnd
  | nestingTooDeep {limit : Nat} : Refuses (.nestingTooDeep limit) (.nestingTooDeep limit)
  | tooManyOperations {limit : Nat} : Refuses (.tooManyOperations limit) (.tooManyOperations limit)
  | missingArguments {f : String} : Refuses (.missingArguments f) (.missingArguments f)
  | argumentCount {f : String} {n k : Nat} : Refuses (.argumentCount f n k) (.argumentCount f n k)
  | unknownName {s : String} : Refuses (.unknownName s) (.unknownName s)

/-- Two runs have related results, or are refused for the same cause, or the second has met the
name of the variable where it has no meaning. -/
inductive Agrees {α β : Type} (R : α → β → Prop) : Except Error α → Except Error β → Prop
  | ok {a : α} {b : β} (h : R a b) : Agrees R (.ok a) (.ok b)
  | error {e e' : Error} (h : u.Refuses e e') : Agrees R (.error e) (.error e')
  | unbound {run : Except Error α} (h : u.number? = none) :
      Agrees R run (.error (.unknownName u.name))

/-- What was read corresponds, what is left corresponds, and the meters are the same. -/
structure Same {α : Type} {n n' : Nat} (f : α → α) (r : Parsed α n) (r' : Parsed α n') : Prop where
  value : r'.value = f r.value
  rest : List.Forall₂ u.Corresponds r.rest r'.rest
  meter : r'.meter = r.meter

/-! ## Terms and tokens of the second reading -/

theorem term_literal (x : Float) : u.term (.literal x) = .literal x := by
  unfold term
  cases u.number? <;> rfl

theorem term_unary (op : UnaryOp) (t : Term) : u.term (.unary op t) = .unary op (u.term t) := by
  unfold term
  cases u.number? <;> rfl

theorem term_binary (op : BinaryOp) (s t : Term) :
    u.term (.binary op s t) = .binary op (u.term s) (u.term t) := by
  unfold term
  cases u.number? <;> rfl

theorem term_call (f : String) (ts : List Term) : u.term (.call f ts) = .call f (u.terms ts) := by
  unfold term terms
  cases u.number? <;> rfl

theorem terms_nil : u.terms [] = [] := by
  unfold terms
  cases u.number? <;> rfl

theorem terms_cons (t : Term) (ts : List Term) : u.terms (t :: ts) = u.term t :: u.terms ts := by
  unfold term terms
  cases u.number? <;> rfl

theorem length_terms (ts : List Term) : (u.terms ts).length = ts.length := by
  induction ts with
  | nil => rw [terms_nil]
  | cons t ts ih => rw [terms_cons, List.length_cons, List.length_cons, ih]

theorem token_name {s : String} (h : s ≠ u.name) : u.token (.name s) = .name s := if_neg h

/-- A name stays a name, or a number stands in for it. -/
theorem token_name_cases (s : String) :
    u.token (.name s) = .name s ∨ ∃ x, u.token (.name s) = .number x := by
  unfold token
  by_cases h : s = u.name
  · simp only [if_pos h]
    cases u.number? with
    | none => exact .inl rfl
    | some x => exact .inr ⟨x, rfl⟩
  · exact .inl (if_neg h)

theorem operandNext_map (ts : List Token) : operandNext (ts.map u.token) = operandNext ts := by
  match ts with
  | [] | .number _ :: _ | .openParen :: _ | .closeParen :: _ | .comma :: _ | .operator _ :: _ => rfl
  | .name s :: ts =>
    rw [List.map_cons]
    rcases u.token_name_cases s with h | ⟨x, h⟩ <;> rw [h] <;> rfl

theorem pull_map (ts : List Token) : pull (ts.map u.token) = pull ts := by
  match ts with
  | [] | .number _ :: _ | .openParen :: _ | .closeParen :: _ | .comma :: _ => rfl
  | .operator op :: ts =>
    cases op with
    | percent =>
      have hnext := u.operandNext_map ts
      simp only [List.map_cons, token, pull, hnext]
    | plus | minus | times | slash | caret => rfl
  | .name s :: ts =>
    rw [List.map_cons]
    rcases u.token_name_cases s with h | ⟨x, h⟩ <;> rw [h] <;> rfl

variable {u} {ts ts' rest rest' : List Lexeme} {m : Meter}

theorem tokens_eq (h : List.Forall₂ u.Corresponds ts ts') :
    tokens ts' = (tokens ts).map u.token := by
  induction h with
  | nil => rfl
  | cons h _ ih => exact List.cons_eq_cons.mpr ⟨h.token, ih⟩

theorem pull_eq (h : List.Forall₂ u.Corresponds ts ts') : pull (tokens ts') = pull (tokens ts) := by
  rw [tokens_eq h, pull_map]

theorem operandNext_eq (h : List.Forall₂ u.Corresponds ts ts') :
    operandNext (tokens ts') = operandNext (tokens ts) := by
  rw [tokens_eq h, operandNext_map]

/-- The first tokens correspond. -/
theorem exists_of_cons {t : Token} {o : Nat} (h : List.Forall₂ u.Corresponds ts ts')
    (hts : ts = ⟨t, o⟩ :: rest) :
    ∃ o' rest', ts' = ⟨u.token t, o'⟩ :: rest' ∧ u.moves o o' ∧
      List.Forall₂ u.Corresponds rest rest' := by
  subst hts
  cases h with
  | @cons _ s' _ rest' hs hrest =>
    obtain ⟨t', o'⟩ := s'
    obtain ⟨rfl, ho⟩ := hs
    exact ⟨o', rest', rfl, ho, hrest⟩

/-- No sign comes from a token that is none. -/
theorem token_ne {s t : Token} (hname : ∀ x, t ≠ .name x) (hnumber : ∀ x, t ≠ .number x)
    (h : s ≠ t) : u.token s ≠ t := by
  cases s with
  | name x =>
    rcases u.token_name_cases x with hx | ⟨y, hx⟩ <;> rw [hx]
    · exact (hname x).symm
    · exact (hnumber y).symm
  | number | operator | openParen | closeParen | comma => exact h

theorem ne_cons {t : Token} (h : List.Forall₂ u.Corresponds ts ts') (hname : ∀ x, t ≠ .name x)
    (hnumber : ∀ x, t ≠ .number x) (hne : ∀ o rest, ts ≠ ⟨t, o⟩ :: rest) :
    ∀ o rest, ts' ≠ ⟨t, o⟩ :: rest := by
  rintro o rest rfl
  cases h with
  | @cons s _ ts _ hs hrest =>
    have hst : s.token ≠ t := by
      rintro rfl
      exact hne s.offset ts rfl
    exact token_ne hname hnumber hst hs.token.symm

/-! ## Runs in sequence -/

/-- **Agreement goes through runs in sequence.** -/
theorem Agrees.bind {α β γ δ : Type} {R : α → β → Prop} {R' : γ → δ → Prop} {x : Except Error α}
    {y : Except Error β} {f : α → Except Error γ} {g : β → Except Error δ} (h : u.Agrees R x y)
    (hf : ∀ a b, R a b → u.Agrees R' (f a) (g b)) : u.Agrees R' (x >>= f) (y >>= g) := by
  cases h with
  | ok h => exact hf _ _ h
  | error h => exact .error h
  | unbound h => exact .unbound h

theorem count_agrees (m : Meter) : u.Agrees Eq m.count m.count := by
  unfold Meter.count
  split
  · exact .ok rfl
  · exact .error .tooManyOperations

theorem enter_agrees (m : Meter) : u.Agrees Eq m.enter m.enter := by
  unfold Meter.enter
  split
  · exact .ok rfl
  · exact .error .nestingTooDeep

/-- A parenthesis is closed in both readings, or in neither. -/
theorem closing_agrees {o o' : Nat} (h : List.Forall₂ u.Corresponds ts ts') (ho : u.moves o o') :
    u.Agrees (fun r r' => List.Forall₂ u.Corresponds r.val r'.val) (closing o ts)
      (closing o' ts') := by
  cases h with
  | nil => exact .error (.unbalancedParentheses ho)
  | @cons s s' rest rest' hs hrest =>
    by_cases hclose : s.token = .closeParen
    · have hclose' : s'.token = .closeParen := by rw [hs.token, hclose]; rfl
      obtain ⟨t, p⟩ := s
      obtain ⟨t', p'⟩ := s'
      cases hclose
      cases hclose'
      exact .ok hrest
    · rw [closing_stop hclose, closing_stop (hs.token ▸ token_ne nofun nofun hclose), hs.token]
      exact .error (.unexpectedToken hs.offset)

/-! ## Every reader -/

theorem percents_agrees {n n' : Nat} {t : Term} {ts ts' : List Lexeme} {m : Meter}
    {h : ts.length < n} {h' : ts'.length < n'} (hts : List.Forall₂ u.Corresponds ts ts') :
    u.Agrees (u.Same u.term) (percents n t ts m h) (percents n' (u.term t) ts' m h') := by
  rcases Nat.lt_or_ge 1 (pull (tokens ts)) with hp | hp
  · rw [percents_stop hp, percents_stop (by rwa [pull_eq hts])]
    exact .ok ⟨rfl, hts, rfl⟩
  · obtain ⟨o, rest, hcons, hop⟩ := pull_eq_one (Nat.le_antisymm hp (pull_pos _))
    obtain ⟨o', rest', hcons', -, hrest⟩ := exists_of_cons hts hcons
    have := length_of_cons hcons
    rw [percents_step hcons hop, percents_step hcons' (by rwa [operandNext_eq hrest]), ← term_unary]
    refine (count_agrees m).bind fun m _ hm => ?_
    rw [← hm]
    exact percents_agrees hrest
termination_by ts.length

/-- Where the variable stands, a number may stand in for it; its bare name is refused. -/
theorem variable_agrees {o o' : Nat} (h : List.Forall₂ u.Corresponds rest rest') :
    u.Agrees (u.Same u.term) (primary (some u.name) (⟨.name u.name, o⟩ :: rest) m)
      (primary none (⟨u.token (.name u.name), o'⟩ :: rest') m) := by
  rw [primary_variable rfl (if_pos rfl)]
  cases hn : u.number? with
  | none =>
    have htoken : u.token (.name u.name) = .name u.name := by
      unfold token
      simp only [hn, if_true]
    rw [htoken, primary_unknown rfl (u.meaningless hn)]
    exact .unbound hn
  | some x =>
    have htoken : u.token (.name u.name) = .number x := by
      unfold token
      simp only [hn, if_true]
    have hterm : u.term (.variable u.name) = .literal x := by
      unfold term
      simp only [hn, assign, if_true]
    rw [htoken, primary_number rfl]
    exact .ok ⟨hterm.symm, h, rfl⟩

/-- Any other name means the same in both readings. -/
theorem meaning_eq {s : String} (h : s ≠ u.name) : meaning (some u.name) s = meaning none s := by
  unfold meaning
  rw [if_neg fun h' => h (Option.some.inj h').symm, if_neg nofun]

-- In both readings a reader goes on at the same signs, so it takes one step lemma twice; what it
-- calls agrees by the measure by which the readers end.
mutual

theorem additive_agrees {ts ts' : List Lexeme} {m : Meter} (h : List.Forall₂ u.Corresponds ts ts') :
    u.Agrees (u.Same u.term) (additive (some u.name) ts m) (additive none ts' m) := by
  rw [additive_eq, additive_eq]
  refine (multiplicative_agrees h).bind fun r r' hr => ?_
  have := r.shorter
  rw [hr.value, hr.meter]
  exact additiveTail_agrees hr.rest
termination_by 8 * ts.length + 6

theorem additiveTail_agrees {n n' : Nat} {t : Term} {ts ts' : List Lexeme} {m : Meter}
    {h : ts.length < n} {h' : ts'.length < n'} (hts : List.Forall₂ u.Corresponds ts ts') :
    u.Agrees (u.Same u.term) (additiveTail (some u.name) n t ts m h)
      (additiveTail none n' (u.term t) ts' m h') := by
  by_cases h4 : pull (tokens ts) = 4
  · obtain ⟨op, b, -, o, rest, hcons, hop, -⟩ := pull_eq_four h4
    obtain ⟨o', rest', hcons', -, hrest⟩ := exists_of_cons hts hcons
    rw [additiveTail_step hcons hop, additiveTail_step hcons' hop]
    refine (count_agrees m).bind fun m _ hm => ?_
    rw [← hm]
    have := length_of_cons hcons
    refine (multiplicative_agrees hrest).bind fun r r' hr => ?_
    have := Nat.lt_trans r.shorter this
    rw [hr.value, hr.meter, ← term_binary]
    exact additiveTail_agrees hr.rest
  · rw [additiveTail_stop h4, additiveTail_stop (by rwa [pull_eq hts])]
    exact .ok ⟨rfl, hts, rfl⟩
termination_by 8 * ts.length

theorem multiplicative_agrees {ts ts' : List Lexeme} {m : Meter}
    (h : List.Forall₂ u.Corresponds ts ts') :
    u.Agrees (u.Same u.term) (multiplicative (some u.name) ts m) (multiplicative none ts' m) := by
  rw [multiplicative_eq, multiplicative_eq]
  refine (unary_agrees h).bind fun r r' hr => ?_
  have := r.shorter
  rw [hr.value, hr.meter]
  exact multiplicativeTail_agrees hr.rest
termination_by 8 * ts.length + 5

theorem multiplicativeTail_agrees {n n' : Nat} {t : Term} {ts ts' : List Lexeme} {m : Meter}
    {h : ts.length < n} {h' : ts'.length < n'} (hts : List.Forall₂ u.Corresponds ts ts') :
    u.Agrees (u.Same u.term) (multiplicativeTail (some u.name) n t ts m h)
      (multiplicativeTail none n' (u.term t) ts' m h') := by
  by_cases hmore : ∃ op b o rest, ts = ⟨.operator op, o⟩ :: rest ∧ multiplicativeOp? op = some b
  · obtain ⟨op, b, o, rest, hcons, hop⟩ := hmore
    obtain ⟨o', rest', hcons', -, hrest⟩ := exists_of_cons hts hcons
    rw [multiplicativeTail_step hcons hop, multiplicativeTail_step hcons' hop]
    refine (count_agrees m).bind fun m _ hm => ?_
    rw [← hm]
    have := length_of_cons hcons
    refine (unary_agrees hrest).bind fun r r' hr => ?_
    have := Nat.lt_trans r.shorter this
    rw [hr.value, hr.meter, ← term_binary]
    exact multiplicativeTail_agrees hr.rest
  · have hne : ∀ op b o rest, ts = ⟨.operator op, o⟩ :: rest → multiplicativeOp? op ≠ some b :=
      fun op b o rest hcons hop => hmore ⟨op, b, o, rest, hcons, hop⟩
    have hne' : ∀ op b o rest, ts' = ⟨.operator op, o⟩ :: rest → multiplicativeOp? op ≠ some b :=
      fun op b o rest hcons' hop =>
        ne_cons (t := .operator op) hts nofun nofun
          (fun o rest hcons => hne op b o rest hcons hop) o rest hcons'
    rw [multiplicativeTail_end hne, multiplicativeTail_end hne']
    exact .ok ⟨rfl, hts, rfl⟩
termination_by 8 * ts.length

theorem unary_agrees {ts ts' : List Lexeme} {m : Meter} (h : List.Forall₂ u.Corresponds ts ts') :
    u.Agrees (u.Same u.term) (unary (some u.name) ts m) (unary none ts' m) := by
  rw [unary_eq, unary_eq]
  refine (enter_agrees m).bind fun m _ hm => ?_
  rw [← hm]
  refine (signed_agrees h).bind fun r r' hr => ?_
  exact .ok ⟨hr.value, hr.rest, congrArg Meter.leave hr.meter⟩
termination_by 8 * ts.length + 4

theorem signed_agrees {ts ts' : List Lexeme} {m : Meter} (h : List.Forall₂ u.Corresponds ts ts') :
    u.Agrees (u.Same u.term) (signed (some u.name) ts m) (signed none ts' m) := by
  by_cases h4 : pull (tokens ts) = 4
  · obtain ⟨op, -, sign, o, rest, hcons, -, hop⟩ := pull_eq_four h4
    obtain ⟨o', rest', hcons', -, hrest⟩ := exists_of_cons h hcons
    have := length_of_cons hcons
    rw [signed_step hcons hop, signed_step hcons' hop]
    refine (count_agrees m).bind fun m _ hm => ?_
    rw [← hm]
    refine (unary_agrees hrest).bind fun r r' hr => ?_
    exact .ok ⟨by rw [hr.value, term_unary], hr.rest, hr.meter⟩
  · rw [signed_stop h4, signed_stop (by rwa [pull_eq h])]
    exact power_agrees h
termination_by 8 * ts.length + 3

theorem power_agrees {ts ts' : List Lexeme} {m : Meter} (h : List.Forall₂ u.Corresponds ts ts') :
    u.Agrees (u.Same u.term) (power (some u.name) ts m) (power none ts' m) := by
  have hbase := postfixed_agrees (m := m) h
  generalize hx : postfixed (some u.name) ts m = x at hbase
  generalize hy : postfixed none ts' m = y at hbase
  cases hbase with
  | error he =>
    rw [power_of_error hx, power_of_error hy]
    exact .error he
  | unbound hnone =>
    rw [power_of_error hy]
    exact .unbound hnone
  | @ok b b' hb =>
    by_cases h2 : pull (tokens b.rest) = 2
    · obtain ⟨o, rest, hcons⟩ := pull_eq_two h2
      obtain ⟨o', rest', hcons', -, hrest⟩ := exists_of_cons hb.rest hcons
      have := Nat.lt_trans (length_of_cons hcons) b.shorter
      rw [power_step hx hcons, power_step hy hcons', hb.meter]
      refine (count_agrees b.meter).bind fun m _ hm => ?_
      rw [← hm]
      refine (unary_agrees hrest).bind fun r r' hr => ?_
      exact .ok ⟨by rw [hb.value, hr.value, term_binary], hr.rest, hr.meter⟩
    · rw [power_stop hx h2, power_stop hy (by rwa [pull_eq hb.rest])]
      exact .ok hb
termination_by 8 * ts.length + 2

theorem postfixed_agrees {ts ts' : List Lexeme} {m : Meter}
    (h : List.Forall₂ u.Corresponds ts ts') :
    u.Agrees (u.Same u.term) (postfixed (some u.name) ts m) (postfixed none ts' m) := by
  rw [postfixed_eq, postfixed_eq]
  refine (primary_agrees h).bind fun r r' hr => ?_
  rw [hr.value, hr.meter]
  exact percents_agrees hr.rest
termination_by 8 * ts.length + 1

theorem primary_agrees {ts ts' : List Lexeme} {m : Meter} (h : List.Forall₂ u.Corresponds ts ts') :
    u.Agrees (u.Same u.term) (primary (some u.name) ts m) (primary none ts' m) := by
  match ts, h with
  | [], .nil =>
    rw [primary, primary]
    exact .error .unexpectedEnd
  | ⟨t, o⟩ :: rest, h =>
    obtain ⟨o', rest', hcons', ho, hrest⟩ := exists_of_cons h rfl
    cases t with
    | number x =>
      rw [primary_number rfl, primary_number hcons']
      exact .ok ⟨(u.term_literal x).symm, hrest, rfl⟩
    | openParen =>
      rw [primary_group rfl, primary_group hcons']
      refine (additive_agrees hrest).bind fun r r' hr => ?_
      refine (closing_agrees hr.rest ho).bind fun c c' hc => ?_
      exact .ok ⟨hr.value, hc, hr.meter⟩
    | name s =>
      by_cases hs : s = u.name
      · subst hs hcons'
        exact variable_agrees hrest
      · rw [token_name u hs] at hcons'
        have hmean := meaning_eq (u := u) hs
        cases hm : meaning none s with
        | «variable» =>
          have hspec := meaning_spec none s
          rw [hm] at hspec
          cases hspec
        | constant x =>
          rw [primary_constant rfl (hmean.trans hm), primary_constant hcons' hm]
          exact .ok ⟨(u.term_literal x).symm, hrest, rfl⟩
        | function f =>
          rw [primary_function rfl (hmean.trans hm), primary_function hcons' hm]
          refine (call_agrees hrest).bind fun a a' ha => ?_
          rw [ha.value, length_terms, ← term_call]
          split
          · exact .ok ⟨rfl, ha.rest, ha.meter⟩
          · exact .error .argumentCount
        | unknown =>
          rw [primary_unknown rfl (hmean.trans hm), primary_unknown hcons' hm]
          exact .error .unknownName
    | operator | closeParen | comma =>
      subst hcons'
      rw [primary_stop rfl, primary_stop rfl]
      exact .error (.unexpectedToken ho)
termination_by 8 * ts.length

theorem call_agrees {f : String} {ts ts' : List Lexeme} {m : Meter}
    (h : List.Forall₂ u.Corresponds ts ts') :
    u.Agrees (u.Same u.terms) (call (some u.name) f ts m) (call none f ts' m) := by
  by_cases hopen : ∃ o rest, ts = ⟨.openParen, o⟩ :: rest
  · obtain ⟨o, rest, hcons⟩ := hopen
    obtain ⟨o', rest', hcons', ho, hrest⟩ := exists_of_cons h hcons
    have := length_of_cons hcons
    rw [call_step hcons, call_step hcons']
    refine (count_agrees m).bind fun m _ hm => ?_
    rw [← hm]
    refine (arguments_agrees hrest).bind fun r r' hr => ?_
    refine (closing_agrees hr.rest ho).bind fun s s' hs => ?_
    exact .ok ⟨hr.value, hs, hr.meter⟩
  · have hne : ∀ o rest, ts ≠ ⟨.openParen, o⟩ :: rest := fun o rest e => hopen ⟨o, rest, e⟩
    rw [call_stop hne, call_stop (ne_cons h nofun nofun hne)]
    exact .error .missingArguments
termination_by 8 * ts.length

theorem arguments_agrees {n n' : Nat} {ts ts' : List Lexeme} {m : Meter} {h : ts.length < n}
    {h' : ts'.length < n'} (hts : List.Forall₂ u.Corresponds ts ts') :
    u.Agrees (u.Same u.terms) (arguments (some u.name) n ts m h) (arguments none n' ts' m h') := by
  by_cases hclose : ∃ o rest, ts = ⟨.closeParen, o⟩ :: rest
  · obtain ⟨o, rest, hcons⟩ := hclose
    obtain ⟨o', rest', hcons', -, -⟩ := exists_of_cons hts hcons
    rw [arguments_stop hcons, arguments_stop hcons']
    exact .ok ⟨u.terms_nil.symm, hts, rfl⟩
  · have hne : ∀ o rest, ts ≠ ⟨.closeParen, o⟩ :: rest := fun o rest e => hclose ⟨o, rest, e⟩
    rw [arguments_step hne, arguments_step (ne_cons hts nofun nofun hne)]
    refine (additive_agrees hts).bind fun r r' hr => ?_
    have := r.shorter
    rw [hr.meter]
    refine (moreArguments_agrees hr.rest).bind fun s s' hs => ?_
    exact .ok ⟨by rw [hr.value, hs.value, terms_cons], hs.rest, hs.meter⟩
termination_by 8 * ts.length + 7

theorem moreArguments_agrees {n n' : Nat} {ts ts' : List Lexeme} {m : Meter} {h : ts.length < n}
    {h' : ts'.length < n'} (hts : List.Forall₂ u.Corresponds ts ts') :
    u.Agrees (u.Same u.terms) (moreArguments (some u.name) n ts m h)
      (moreArguments none n' ts' m h') := by
  by_cases hcomma : ∃ o rest, ts = ⟨.comma, o⟩ :: rest
  · obtain ⟨o, rest, hcons⟩ := hcomma
    obtain ⟨o', rest', hcons', -, hrest⟩ := exists_of_cons hts hcons
    have := length_of_cons hcons
    rw [moreArguments_step hcons, moreArguments_step hcons']
    refine (additive_agrees hrest).bind fun r r' hr => ?_
    have := Nat.lt_trans r.shorter this
    rw [hr.meter]
    refine (moreArguments_agrees hr.rest).bind fun s s' hs => ?_
    exact .ok ⟨by rw [hr.value, hs.value, terms_cons], hs.rest, hs.meter⟩
  · have hne : ∀ o rest, ts ≠ ⟨.comma, o⟩ :: rest := fun o rest e => hcomma ⟨o, rest, e⟩
    rw [moreArguments_stop hne, moreArguments_stop (ne_cons hts nofun nofun hne)]
    exact .ok ⟨u.terms_nil.symm, hts, rfl⟩
termination_by 8 * ts.length

end

/-! ## Whole token sequences -/

/-- **Two readings of corresponding tokens agree.** -/
theorem ofLexemes_agrees {ts ts' : List Lexeme} (h : List.Forall₂ u.Corresponds ts ts') :
    u.Agrees (fun t t' => t' = u.term t) (ofLexemes (some u.name) ts) (ofLexemes none ts') := by
  match ts, h with
  | [], .nil => exact .ok (u.term_literal 0).symm
  | s :: ts, .cons hs hts =>
    refine (additive_agrees (.cons hs hts)).bind fun r r' hr => ?_
    obtain ⟨t, rest, m, hlt⟩ := r
    obtain ⟨t', rest', m', hlt'⟩ := r'
    obtain ⟨hvalue, hrest, -⟩ := hr
    dsimp only at hvalue hrest ⊢
    match rest, hrest with
    | [], .nil => exact .ok hvalue
    | ⟨t, o⟩ :: rest, hrest =>
      obtain ⟨o', rest', rfl, ho, -⟩ := exists_of_cons hrest rfl
      cases t with
      | closeParen => exact .error (.unbalancedParentheses ho)
      | number | operator | openParen | comma => exact .error (.trailingInput ho)
      | name x =>
        -- a name behind a whole expression may be a number in the second reading
        have hmore : u.Refuses (.trailingInput (.name x) o)
          (.trailingInput (u.token (.name x)) o') := .trailingInput ho
        rcases u.token_name_cases x with hx | ⟨y, hx⟩ <;> rw [hx] at hmore ⊢ <;> exact .error hmore

/-! ## The same tokens read twice -/

/-- Nothing stands in for the name, and the tokens stay where they are. -/
def bare {name : String} (h : meaning none name = .unknown) : StandIn :=
  ⟨name, none, Eq, fun _ => h⟩

variable {name : String} {h : meaning none name = .unknown}

theorem token_bare (t : Token) : (bare h).token t = t := by
  cases t with
  | name s => exact ite_self _
  | number | operator | openParen | closeParen | comma => rfl

theorem eq_of_refuses_bare {e e' : Error} (he : (bare h).Refuses e e') : e' = e := by
  cases he with
  | unexpectedToken ho | trailingInput ho =>
    obtain rfl : _ = _ := ho
    rw [token_bare]
  | unbalancedParentheses ho =>
    obtain rfl : _ = _ := ho
    rfl
  | unexpectedEnd | nestingTooDeep | tooManyOperations | missingArguments | argumentCount
  | unknownName => rfl

theorem ofLexemes_agrees_bare (h : meaning none name = .unknown) (ts : List Lexeme) :
    (bare h).Agrees (fun t t' => t' = t) (ofLexemes (some name) ts) (ofLexemes none ts) :=
  ofLexemes_agrees (List.forall₂_same.mpr fun s _ => ⟨(token_bare s.token).symm, rfl⟩)

end StandIn

/-- **Without the variable the reading is the same**, or it stops where the name is due. -/
theorem ofLexemes_none_eq {name : String} (h : meaning none name = .unknown) (ts : List Lexeme) :
    ofLexemes none ts = ofLexemes (some name) ts ∨
      ofLexemes none ts = .error (.unknownName name) := by
  have hagree := StandIn.ofLexemes_agrees_bare h ts
  generalize ofLexemes (some name) ts = x, ofLexemes none ts = y at hagree ⊢
  cases hagree with
  | ok ht => exact .inl (congrArg _ ht)
  | error he => exact .inl (congrArg _ (StandIn.eq_of_refuses_bare he))
  | unbound => exact .inr rfl

end Abacus.Term.Parser
