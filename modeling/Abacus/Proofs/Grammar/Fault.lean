import Abacus.Proofs.Grammar.Parentheses
import Abacus.Proofs.Grammar.Reader

/-!
# Where a reader stops

A reader that succeeds goes along the outlook, from a place where its phrase is due to one where an
operand is complete. A reader that is refused has come to the place where there is no outlook any
more, or to the end of the tokens where something is still due or open; or it is refused for how
much it was given.

* `Fault`: what is wrong where a reader is refused, with one case for each kind of error. The errors
  of the limits and of the number of arguments (`Error.concernsAmount`) say nothing of the place.
* `Arrives`: from an outlook to a place where the same parentheses are open, past tokens whose
  parentheses are pairs (`Balanced`).
* `Walks`: a reader arrives where it should, or has met a fault.
* `Awaits`, `Settled`, `Filled`: where a phrase is due, where it is complete, and what is known of
  the next token before a closing parenthesis.

The readers recurse through one another, so this is proved of all of them together, by the measure
they end by. Where a reader goes on behind another, `Arrives.walks` puts their ways together, so the
proof for a reader names the places on its way and no tokens.

Results:
* `additive_walks`: every reader of a sum follows the outlook.
* `ofLexemes_fault`: so does the reader of a whole expression.
* `Fault.not_sentence`: a fault is in no sentence, unless it is about how much there is of
  something.
-/

namespace Abacus.Term

open Grammar Abacus.Term.Parser

/-- The error is about how much there is of something that may stand where it stands. -/
def Error.concernsAmount : Error → Bool
  | .nestingTooDeep _ | .tooManyOperations _ | .argumentCount .. => true
  | _ => false

/-- What is wrong with tokens that are read from an outlook on, and the error for it. -/
inductive Fault (free : Option String) : Error → Outlook → List Lexeme → Prop
  /-- a token that cannot stand where it stands -/
  | unexpected {p q : Outlook} {c after : List Lexeme} {l : Lexeme}
      (hq : p.after? free (tokens c) = some q) (hl : q.step? free l.token = none) :
      Fault free (.unexpectedToken l.token l.offset) p (c ++ l :: after)
  /-- a token behind a complete expression -/
  | trailing {p q : Outlook} {c after : List Lexeme} {l : Lexeme}
      (hq : p.after? free (tokens c) = some q) (hl : q.step? free l.token = none) :
      Fault free (.trailingInput l.token l.offset) p (c ++ l :: after)
  /-- a name without a meaning -/
  | unknown {p q : Outlook} {c after : List Lexeme} {name : String} {o : Nat}
      (hq : p.after? free (tokens c) = some q) (hl : q.step? free (.name name) = none) :
      Fault free (.unknownName name) p (c ++ ⟨.name name, o⟩ :: after)
  /-- a function without its arguments -/
  | missing {p : Outlook} {s : List Bracket} {c after : List Lexeme} {name : String}
      (hq : p.after? free (tokens c) = some ⟨.list, s⟩)
      (hafter : ∀ o rest, after ≠ ⟨.openParen, o⟩ :: rest) :
      Fault free (.missingArguments name) p (c ++ after)
  /-- an operand is due at the end -/
  | ended {p q : Outlook} {ts : List Lexeme} (hq : p.after? free (tokens ts) = some q)
      (hdue : q.due.isBehind = false) : Fault free .unexpectedEnd p ts
  /-- a parenthesis is open at the end, and none that was opened behind it -/
  | unclosed {p q r : Outlook} {b : Bracket} {s : List Bracket} {c after : List Lexeme} {o : Nat}
      (hq : p.after? free (tokens c) = some q)
      (hr : q.after? free (.openParen :: tokens after) = some r) (hopen : r.opened = b :: s)
      (hafter : Balanced after) :
      Fault free (.unbalancedParentheses o) p (c ++ ⟨.openParen, o⟩ :: after)
  /-- a parenthesis is closed where none is open -/
  | stray {p : Outlook} {d : Due} {c after : List Lexeme} {o : Nat}
      (hq : p.after? free (tokens c) = some ⟨d, []⟩) :
      Fault free (.unbalancedParentheses o) p (c ++ ⟨.closeParen, o⟩ :: after)
  /-- whatever there is, there is too much or too little of it -/
  | amount {e : Error} {p : Outlook} {ts : List Lexeme} (he : e.concernsAmount = true) :
      Fault free e p ts

end Abacus.Term

namespace Abacus.Term.Parser

open Grammar

variable {free : Option String} {e : Error} {α β : Type} {n : Nat} {p q : Outlook} {d d' : Due}
  {s : List Bracket} {b : Bracket} {ts rest before : List Lexeme} {l : Lexeme} {m : Meter}

/-- What is wrong behind tokens that are read without a fault is wrong with the whole. -/
theorem Fault.behind (hq : p.after? free (tokens before) = some q) (h : Fault free e q ts) :
    Fault free e p (before ++ ts) := by
  have trans {c : List Lexeme} {r : Outlook} (h : q.after? free (tokens c) = some r) :
      p.after? free (tokens (before ++ c)) = some r := by
    rw [tokens, List.map_append, Outlook.after?_trans hq]
    exact h
  cases h with
  | unexpected hr hl =>
    rw [← List.append_assoc]
    exact .unexpected (trans hr) hl
  | trailing hr hl =>
    rw [← List.append_assoc]
    exact .trailing (trans hr) hl
  | unknown hr hl =>
    rw [← List.append_assoc]
    exact .unknown (trans hr) hl
  | missing hr hafter =>
    rw [← List.append_assoc]
    exact .missing (trans hr) hafter
  | ended hr hdue => exact .ended (trans hr) hdue
  | unclosed hr hopened hopen hafter =>
    rw [← List.append_assoc]
    exact .unclosed (trans hr) hopened hopen hafter
  | stray hr =>
    rw [← List.append_assoc]
    exact .stray (trans hr)
  | amount he => exact .amount he

/-! ## From place to place -/

/-- From an outlook to a place where the same parentheses are open. `P` says what is due there and
what comes next. -/
def Arrives (free : Option String) (P : Outlook → List Token → Prop) (p : Outlook)
    (ts rest : List Lexeme) : Prop :=
  ∃ before d, ts = before ++ rest ∧ p.after? free (tokens before) = some ⟨d, p.opened⟩ ∧
    Balanced before ∧ P ⟨d, p.opened⟩ (tokens rest)

/-- A reader arrives where it should, or has met a fault. -/
def Walks (free : Option String) (P : Outlook → List Token → Prop) (p : Outlook)
    (ts : List Lexeme) : Except Error (Parsed α n) → Prop
  | .ok r => Arrives free P p ts r.rest
  | .error e => Fault free e p ts

variable {P Q : Outlook → List Token → Prop}

theorem Arrives.refl (h : P p (tokens ts)) : Arrives free P p ts ts :=
  ⟨[], p.due, rfl, rfl, .nil, h⟩

/-- Behind a phrase another reader goes on. -/
theorem Arrives.walks {x : Except Error (Parsed α n)} (h : Arrives free P p ts rest)
    (hx : ∀ d, P ⟨d, p.opened⟩ (tokens rest) → Walks free Q ⟨d, p.opened⟩ rest x) :
    Walks free Q p ts x := by
  obtain ⟨before, d, rfl, hq, hbalanced, hd⟩ := h
  have hx := hx d hd
  cases x with
  | error e => exact Fault.behind hq hx
  | ok r =>
    obtain ⟨before', d', rfl, hq', hbalanced', hd'⟩ := hx
    refine ⟨before ++ before', d', (List.append_assoc _ _ _).symm, ?_,
      hbalanced.append hbalanced', hd'⟩
    rw [tokens, List.map_append, Outlook.after?_trans hq]
    exact hq'

/-- Two readers in sequence. -/
theorem Walks.bind {n' : Nat} {x : Except Error (Parsed α n)}
    {f : Parsed α n → Except Error (Parsed β n')} (hx : Walks free P p ts x)
    (hf : ∀ r d, P ⟨d, p.opened⟩ (tokens r.rest) → Walks free Q ⟨d, p.opened⟩ r.rest (f r)) :
    Walks free Q p ts (x >>= f) := by
  cases x with
  | error e => exact hx
  | ok r => exact Arrives.walks hx (hf r)

/-- A token that leaves open what was open is passed. -/
theorem Walks.cons {x : Except Error (Parsed α n)} (hts : ts = l :: rest)
    (hq : p.step? free l.token = some ⟨d, p.opened⟩) (hx : Walks free P ⟨d, p.opened⟩ rest x) :
    Walks free P p ts x := by
  have harrives : Arrives free (fun q _ => q = ⟨d, p.opened⟩) p ts rest :=
    ⟨[l], d, hts, Outlook.after?_cons hq [], .of_step? hq rfl, rfl⟩
  refine harrives.walks fun d' hd' => ?_
  rw [hd']
  exact hx

theorem Walks.mono {x : Except Error (Parsed α n)} (hx : Walks free P p ts x)
    (h : ∀ d ts, P ⟨d, p.opened⟩ ts → Q ⟨d, p.opened⟩ ts) : Walks free Q p ts x := by
  cases x with
  | error e => exact hx
  | ok r =>
    obtain ⟨before, d, hts, hq, hbalanced, hd⟩ := hx
    exact ⟨before, d, hts, hq, hbalanced, h d _ hd⟩

theorem Walks.count {f : Meter → Except Error (Parsed α n)} (h : ∀ m, Walks free P p ts (f m)) :
    Walks free P p ts (m.count >>= f) := by
  unfold Meter.count
  split
  · exact h _
  · exact .amount rfl

theorem Walks.enter {f : Meter → Except Error (Parsed α n)} (h : ∀ m, Walks free P p ts (f m)) :
    Walks free P p ts (m.enter >>= f) := by
  unfold Meter.enter
  split
  · exact h _
  · exact .amount rfl

/-! ## Places -/

/-- An operand is due, and the next token does not say otherwise. -/
def Awaits (p : Outlook) (ts : List Token) : Prop :=
  p.due = .operand ∨ (p.due = .argument ∧ ∀ rest, ts ≠ .closeParen :: rest) ∨
    (p.due = .remainder ∧ operandNext ts = true)

/-- An operand is complete, and what comes next is for a level looser than `k`. -/
structure Settled (k : Nat) (p : Outlook) (rest : List Token) : Prop where
  behind : p.due.isBehind = true
  apart : p.due = .remainder → operandNext rest = false
  stops : k < pull rest

/-- What stands inside a parenthesis has been read: the next token closes it, or cannot stand. -/
structure Filled (free : Option String) (p : Outlook) (rest : List Token) : Prop where
  closes : p.due.closes = true
  stops : ∀ t others, rest = t :: others → t ≠ .closeParen → p.step? free t = none

theorem Awaits.takesOperand {ts : List Token} (h : Awaits p ts) : p.due.takesOperand = true := by
  rcases h with h | ⟨h, -⟩ | ⟨h, -⟩
  all_goals
    rw [h]
    rfl

theorem Awaits.takesSign {op : Operator} {ts : List Token} (h : Awaits p (.operator op :: ts)) :
    p.due.takesSign = true := by
  rcases h with h | ⟨h, -⟩ | ⟨-, hnext⟩
  · rw [h]
    rfl
  · rw [h]
    rfl
  · cases hnext

theorem Awaits.not_behind {ts : List Token} (h : Awaits p ts) (hnext : operandNext ts = false) :
    p.due.isBehind = false := by
  rcases h with h | ⟨h, -⟩ | ⟨-, h⟩
  · rw [h]
    rfl
  · rw [h]
    rfl
  · rw [h] at hnext
    cases hnext

/-- A token with which no operand begins. -/
theorem Awaits.step?_eq_none {t : Token} {ts : List Token} (h : Awaits p (t :: ts))
    (hnext : operandNext (t :: ts) = false) (hsign : pull (t :: ts) ≠ 4) :
    p.step? free t = none := by
  have hbehind := h.not_behind hnext
  obtain ⟨d, s⟩ := p
  cases t with
  | number | name | openParen => cases hnext
  | closeParen =>
    have hcloses : d.closes = false := by
      rcases h with rfl | ⟨rfl, h⟩ | ⟨rfl, h⟩
      · rfl
      · exact absurd rfl (h ts)
      · cases h
    cases s with
    | nil => rfl
    | cons => exact if_neg (Bool.eq_false_iff.mp hcloses)
  | comma =>
    match s with
    | [] | .group :: _ => rfl
    | .call :: _ => exact if_neg (Bool.eq_false_iff.mp hbehind)
  | operator op =>
    have hop : signOp? op = none := by
      cases op with
      | plus | minus => exact absurd rfl hsign
      | times | slash | percent | caret => rfl
    rw [Outlook.step?, hop, Option.isSome_none, Bool.and_false]
    exact if_neg (Bool.eq_false_iff.mp hbehind)

/-- Behind a complete operand no other one begins. -/
theorem Settled.due_eq {k : Nat} {ts : List Token} (h : Settled k p ts)
    (hnext : operandNext ts = true) : p.due = .operator := by
  obtain ⟨d, s⟩ := p
  cases d with
  | operator => rfl
  | remainder =>
    rw [h.apart rfl] at hnext
    cases hnext
  | operand | argument | list => cases h.behind

/-- A token behind a complete sum that does not belong to the list it is in. -/
theorem Settled.step?_eq_none {t : Token} {ts : List Token} (h : Settled 4 p (t :: ts))
    (hclose : t ≠ .closeParen) (hcomma : t = .comma → ∀ s, p.opened ≠ .call :: s) :
    p.step? free t = none := by
  obtain ⟨d, s⟩ := p
  cases t with
  | number | name | openParen =>
    cases h.due_eq rfl
    rfl
  | closeParen => exact absurd rfl hclose
  | comma =>
    match s, hcomma with
    | [], _ | .group :: _, _ => rfl
    | .call :: s, hcomma => exact absurd rfl (hcomma rfl s)
  | operator op =>
    have hstops := h.stops
    cases op with
    | plus | minus => exact absurd hstops (Nat.lt_irrefl 4)
    | times | slash => exact absurd (show 4 < 3 from hstops) (by decide)
    | caret => exact absurd (show 4 < 2 from hstops) (by decide)
    | percent =>
      rw [pull] at hstops
      split at hstops <;> exact absurd hstops (by decide)

theorem Settled.filled {ts : List Token} (h : Settled 4 p ts)
    (hcomma : ∀ others, ts = .comma :: others → ∀ s, p.opened ≠ .call :: s) : Filled free p ts := by
  refine ⟨Due.closes_of_isBehind h.behind, ?_⟩
  rintro t others rfl hclose
  refine h.step?_eq_none hclose ?_
  rintro rfl
  exact hcomma others rfl

/-- **A parenthesis, what stands in it, and its partner.** -/
theorem Walks.bracket {n' o : Nat} {x : Except Error (Parsed α n)}
    {f : ∀ r : Parsed α n, { c : List Lexeme // c.length < r.rest.length } →
      Except Error (Parsed β n')} (hstep : p.step? free .openParen = some ⟨d, b :: p.opened⟩)
    (hx : Walks free (Filled free) ⟨d, b :: p.opened⟩ rest x)
    (hf : ∀ r c, ∃ v, f r c = .ok v ∧ v.rest = c.val) :
    Walks free (Settled 0) p (⟨.openParen, o⟩ :: rest)
      (x >>= fun r => closing o r.rest >>= fun c => f r c) := by
  cases x with
  | error e =>
    have hopen : p.after? free (tokens [⟨.openParen, o⟩]) = some ⟨d, b :: p.opened⟩ :=
      Outlook.after?_cons hstep []
    exact Fault.behind hopen hx
  | ok r =>
    obtain ⟨value, rest', meter, hlt⟩ := r
    obtain ⟨before, d₁, hrest, hq, hbalanced, hfilled⟩ := hx
    subst hrest
    have hinside : p.after? free (.openParen :: tokens before) = some ⟨d₁, b :: p.opened⟩ := by
      rw [Outlook.after?_cons hstep]
      exact hq
    cases rest' with
    | nil =>
      rw [List.append_nil]
      exact .unclosed (c := []) rfl hinside rfl hbalanced
    | cons l others =>
      obtain ⟨t, o'⟩ := l
      by_cases hclose : t = .closeParen
      · subst hclose
        obtain ⟨v, hv, hvrest⟩ := hf ⟨value, _, meter, hlt⟩ ⟨others, Nat.lt_succ_self _⟩
        show Walks free (Settled 0) _ _ (f ⟨value, _, meter, hlt⟩ ⟨others, Nat.lt_succ_self _⟩)
        rw [hv]
        refine ⟨⟨.openParen, o⟩ :: (before ++ [⟨.closeParen, o'⟩]), .operator, ?_, ?_,
          hbalanced.enclosed o o', rfl, nofun, pull_pos _⟩
        · rw [hvrest, List.cons_append, ← List.append_cons]
        · rw [tokens, List.map_cons, List.map_append, ← List.cons_append,
            Outlook.after?_trans hinside]
          exact Outlook.after?_cons (Outlook.step?_closeParen hfilled.closes b) []
      · show Walks free (Settled 0) _ _ (closing o (⟨t, o'⟩ :: others) >>=
          f ⟨value, ⟨t, o'⟩ :: others, meter, hlt⟩)
        rw [closing_stop hclose]
        exact .unexpected (c := ⟨.openParen, o⟩ :: before) hinside
          (hfilled.stops t _ rfl hclose)

/-! ## Every reader -/

theorem percents_walks {n : Nat} {t : Term} {p : Outlook} {ts : List Lexeme} {m : Meter}
    {h : ts.length < n} (hp : Settled 0 p (tokens ts)) :
    Walks free (Settled 1) p ts (percents n t ts m h) := by
  rcases Nat.lt_or_ge 1 (pull (tokens ts)) with h1 | h1
  · rw [percents_stop h1]
    exact Arrives.refl ⟨hp.behind, hp.apart, h1⟩
  · obtain ⟨o, rest, hts, hop⟩ := pull_eq_one (Nat.le_antisymm h1 (pull_pos _))
    rw [percents_step hts hop]
    have := length_of_cons hts
    refine .cons hts (Outlook.step?_operator hp.behind) (.count fun m => ?_)
    exact percents_walks ⟨rfl, fun _ => hop, pull_pos _⟩
termination_by ts.length

mutual

theorem additive_walks {p : Outlook} {ts : List Lexeme} {m : Meter} (hp : Awaits p (tokens ts)) :
    Walks free (Settled 4) p ts (additive free ts m) := by
  rw [additive_eq]
  refine (multiplicative_walks hp).bind fun r d hd => ?_
  have := r.shorter
  exact additiveTail_walks hd
termination_by 8 * ts.length + 6

theorem additiveTail_walks {n : Nat} {t : Term} {p : Outlook} {ts : List Lexeme} {m : Meter}
    {h : ts.length < n} (hp : Settled 3 p (tokens ts)) :
    Walks free (Settled 4) p ts (additiveTail free n t ts m h) := by
  by_cases h4 : pull (tokens ts) = 4
  · obtain ⟨op, b, -, o, rest, hts, hop, -⟩ := pull_eq_four h4
    rw [additiveTail_step hts hop]
    have := length_of_cons hts
    have hdue : (if op = .percent then Due.remainder else .operand) = .operand := by
      rw [if_neg]
      rintro rfl
      cases hop
    refine .cons hts (Outlook.step?_operator hp.behind) (.count fun m => ?_)
    refine (multiplicative_walks (.inl hdue)).bind fun r d hd => ?_
    have := Nat.lt_trans r.shorter this
    exact additiveTail_walks hd
  · rw [additiveTail_stop h4]
    exact Arrives.refl ⟨hp.behind, hp.apart, Nat.lt_of_le_of_ne hp.stops (Ne.symm h4)⟩
termination_by 8 * ts.length

theorem multiplicative_walks {p : Outlook} {ts : List Lexeme} {m : Meter}
    (hp : Awaits p (tokens ts)) : Walks free (Settled 3) p ts (multiplicative free ts m) := by
  rw [multiplicative_eq]
  refine (unary_walks hp).bind fun r d hd => ?_
  have := r.shorter
  exact multiplicativeTail_walks hd
termination_by 8 * ts.length + 5

theorem multiplicativeTail_walks {n : Nat} {t : Term} {p : Outlook} {ts : List Lexeme} {m : Meter}
    {h : ts.length < n} (hp : Settled 2 p (tokens ts)) :
    Walks free (Settled 3) p ts (multiplicativeTail free n t ts m h) := by
  rcases Nat.lt_or_ge 3 (pull (tokens ts)) with h3 | h3
  · rw [multiplicativeTail_stop h3]
    exact Arrives.refl ⟨hp.behind, hp.apart, h3⟩
  · obtain ⟨op, b, o, rest, hts, hop, hrem⟩ := pull_eq_three (Nat.le_antisymm h3 hp.stops)
    rw [multiplicativeTail_step hts hop]
    have := length_of_cons hts
    refine .cons hts (Outlook.step?_operator hp.behind) (.count fun m => ?_)
    have hawaits : Awaits ⟨if op = .percent then .remainder else .operand, p.opened⟩
        (tokens rest) := by
      by_cases hpercent : op = .percent
      · exact .inr (.inr ⟨if_pos hpercent, hrem hpercent⟩)
      · exact .inl (if_neg hpercent)
    refine (unary_walks hawaits).bind fun r d hd => ?_
    have := Nat.lt_trans r.shorter this
    exact multiplicativeTail_walks hd
termination_by 8 * ts.length

theorem unary_walks {p : Outlook} {ts : List Lexeme} {m : Meter} (hp : Awaits p (tokens ts)) :
    Walks free (Settled 2) p ts (unary free ts m) := by
  rw [unary_eq]
  exact .enter fun m => (signed_walks hp).bind fun r d hd => Arrives.refl hd
termination_by 8 * ts.length + 4

theorem signed_walks {p : Outlook} {ts : List Lexeme} {m : Meter} (hp : Awaits p (tokens ts)) :
    Walks free (Settled 2) p ts (signed free ts m) := by
  by_cases h4 : pull (tokens ts) = 4
  · obtain ⟨op, -, u, o, rest, hts, -, hop⟩ := pull_eq_four h4
    rw [signed_step hts hop]
    have := length_of_cons hts
    rw [hts] at hp
    refine .cons hts (Outlook.step?_sign hp.takesSign hop) (.count fun m => ?_)
    exact (unary_walks (.inl rfl)).bind fun r d hd => Arrives.refl hd
  · rw [signed_stop h4]
    exact power_walks hp h4
termination_by 8 * ts.length + 3

theorem power_walks {p : Outlook} {ts : List Lexeme} {m : Meter} (hp : Awaits p (tokens ts))
    (hsign : pull (tokens ts) ≠ 4) : Walks free (Settled 2) p ts (power free ts m) := by
  have hbase : Walks free (Settled 1) p ts (postfixed free ts m) := postfixed_walks hp hsign
  cases hb : postfixed free ts m with
  | error e =>
    rw [power_of_error hb]
    rwa [hb] at hbase
  | ok b =>
    rw [hb] at hbase
    refine Arrives.walks hbase fun d hd => ?_
    by_cases h2 : pull (tokens b.rest) = 2
    · obtain ⟨o, rest, hrest⟩ := pull_eq_two h2
      rw [power_step hb hrest]
      have := Nat.lt_trans (length_of_cons hrest) b.shorter
      refine .cons hrest (Outlook.step?_operator hd.behind) (.count fun m => ?_)
      exact (unary_walks (.inl rfl)).bind fun r d hd => Arrives.refl hd
    · rw [power_stop hb h2]
      exact Arrives.refl ⟨hd.behind, hd.apart, Nat.lt_of_le_of_ne hd.stops (Ne.symm h2)⟩
termination_by 8 * ts.length + 2

theorem postfixed_walks {p : Outlook} {ts : List Lexeme} {m : Meter} (hp : Awaits p (tokens ts))
    (hsign : pull (tokens ts) ≠ 4) : Walks free (Settled 1) p ts (postfixed free ts m) := by
  rw [postfixed_eq]
  exact (primary_walks hp hsign).bind fun r d hd => percents_walks hd
termination_by 8 * ts.length + 1

theorem primary_walks {p : Outlook} {ts : List Lexeme} {m : Meter} (hp : Awaits p (tokens ts))
    (hsign : pull (tokens ts) ≠ 4) : Walks free (Settled 0) p ts (primary free ts m) := by
  have complete (rest : List Lexeme) :
      Arrives free (Settled 0) ⟨.operator, p.opened⟩ rest rest := .refl ⟨rfl, nofun, pull_pos _⟩
  match ts, hp, hsign with
  | [], hp, _ =>
    rw [primary]
    have hq : p.after? free (tokens []) = some p := rfl
    exact .ended hq (hp.not_behind rfl)
  | ⟨.number x, o⟩ :: rest, hp, _ =>
    rw [primary_number rfl]
    exact .cons rfl (Outlook.step?_number hp.takesOperand x) (complete rest)
  | ⟨.openParen, o⟩ :: rest, hp, _ =>
    rw [primary_group rfl]
    refine .bracket (Outlook.step?_group hp.takesOperand) ?_ fun r c => ⟨_, rfl, rfl⟩
    exact (additive_walks (.inl rfl)).mono fun d ts hd => hd.filled nofun
  | ⟨.name name, o⟩ :: rest, hp, _ =>
    have hspec := meaning_spec free name
    rcases hm : meaning free name with _ | x | f | _
    · rw [hm] at hspec
      rw [primary_variable rfl hm]
      exact .cons rfl (Outlook.step?_value hp.takesOperand (.bound hspec)) (complete rest)
    · rw [hm] at hspec
      rw [primary_constant rfl hm]
      exact .cons rfl (Outlook.step?_value hp.takesOperand (.constant hspec.2)) (complete rest)
    · rw [hm] at hspec
      rw [primary_function rfl hm]
      have hcallee := IsCallee.of hspec.1 hspec.2.1 hspec.2.2
      refine .cons rfl (Outlook.step?_callee hp.takesOperand hcallee) ?_
      refine (call_walks name).bind fun a d hd => ?_
      split
      · exact Arrives.refl hd
      · exact .amount rfl
    · rw [hm] at hspec
      rw [primary_unknown rfl hm]
      exact .unknown (c := []) rfl
        (Outlook.step?_unknown (not_isValue hspec.1 hspec.2.1) (not_isCallee hspec.2.2))
  | ⟨.operator _, _⟩ :: _, hp, hsign | ⟨.closeParen, _⟩ :: _, hp, hsign
  | ⟨.comma, _⟩ :: _, hp, hsign =>
    rw [primary_stop rfl]
    exact .unexpected (c := []) rfl (hp.step?_eq_none rfl hsign)
termination_by 8 * ts.length

theorem call_walks {s : List Bracket} {ts : List Lexeme} {m : Meter} (name : String) :
    Walks free (Settled 0) ⟨.list, s⟩ ts (call free name ts m) := by
  by_cases hopen : ∃ o rest, ts = ⟨.openParen, o⟩ :: rest
  · obtain ⟨o, rest, rfl⟩ := hopen
    rw [call_step rfl]
    exact .count fun m => .bracket rfl arguments_walks fun r c => ⟨_, rfl, rfl⟩
  · have hne : ∀ o rest, ts ≠ ⟨.openParen, o⟩ :: rest := fun o rest h => hopen ⟨o, rest, h⟩
    rw [call_stop hne]
    exact .missing (c := []) rfl hne
termination_by 8 * ts.length

theorem arguments_walks {n : Nat} {s : List Bracket} {ts : List Lexeme} {m : Meter}
    {h : ts.length < n} :
    Walks free (Filled free) ⟨.argument, .call :: s⟩ ts (arguments free n ts m h) := by
  by_cases hclose : ∃ o rest, ts = ⟨.closeParen, o⟩ :: rest
  · obtain ⟨o, rest, hts⟩ := hclose
    rw [arguments_stop hts]
    refine Arrives.refl ⟨rfl, ?_⟩
    intro t others h ht
    rw [hts] at h
    cases h
    exact absurd rfl ht
  · have hne : ∀ o rest, ts ≠ ⟨.closeParen, o⟩ :: rest := fun o rest e => hclose ⟨o, rest, e⟩
    rw [arguments_step hne]
    have hawaits : Awaits ⟨.argument, .call :: s⟩ (tokens ts) := by
      refine .inr (.inl ⟨rfl, fun rest h => ?_⟩)
      obtain ⟨⟨t, o⟩, others, hts, rfl, -⟩ := List.map_eq_cons_iff.mp h
      exact hne o others hts
    refine (additive_walks hawaits).bind fun a d hd => ?_
    have := a.shorter
    exact (moreArguments_walks hd).bind fun r d hd => Arrives.refl hd
termination_by 8 * ts.length + 7

theorem moreArguments_walks {n : Nat} {d : Due} {s : List Bracket} {ts : List Lexeme} {m : Meter}
    {h : ts.length < n} (hd : Settled 4 ⟨d, .call :: s⟩ (tokens ts)) :
    Walks free (Filled free) ⟨d, .call :: s⟩ ts (moreArguments free n ts m h) := by
  by_cases hcomma : ∃ o rest, ts = ⟨.comma, o⟩ :: rest
  · obtain ⟨o, rest, hts⟩ := hcomma
    rw [moreArguments_step hts]
    have := length_of_cons hts
    refine .cons hts (Outlook.step?_comma hd.behind) ?_
    refine (additive_walks (.inl rfl)).bind fun a d hd => ?_
    have := Nat.lt_trans a.shorter this
    exact (moreArguments_walks hd).bind fun r d hd => Arrives.refl hd
  · rw [moreArguments_stop fun o rest e => hcomma ⟨o, rest, e⟩]
    refine Arrives.refl (hd.filled fun others h => ?_)
    obtain ⟨⟨t, o⟩, others, hts, rfl, -⟩ := List.map_eq_cons_iff.mp h
    exact absurd ⟨o, others, hts⟩ hcomma
termination_by 8 * ts.length

end

end Abacus.Term.Parser

namespace Abacus.Term

open Grammar Abacus.Term.Parser

variable {free : Option String} {e : Error} {p : Outlook} {ts : List Lexeme}

/-- **What is refused is refused for a fault.** -/
theorem ofLexemes_fault (h : ofLexemes free ts = .error e) : Fault free e .start ts := by
  unfold ofLexemes at h
  split at h
  · cases h
  · have hwalks : Walks free (Settled 4) .start ts (additive free ts ⟨0, 0⟩) :=
      additive_walks (.inl rfl)
    rcases Except.bind_eq_error.mp h with h | ⟨r, hr, h⟩
    · rwa [h] at hwalks
    · rw [hr] at hwalks
      obtain ⟨before, d, hts, hq, -, hsettled⟩ := hwalks
      rw [hts]
      dsimp only at h
      split at h
      · cases h
      · rename_i offset rest hrest
        cases h
        rw [hrest]
        exact .stray hq
      · rename_i l rest hclose hrest
        cases h
        rw [hrest] at hsettled ⊢
        refine .trailing hq (hsettled.step?_eq_none ?_ nofun)
        intro ht
        exact hclose l.offset (ht ▸ rfl)

/-- A fault is nothing of how the text is cut into tokens. -/
theorem Fault.kind_ne_lexical (h : Fault free e p ts) : e.kind ≠ .lexical := by
  cases h with
  | unexpected | trailing | unknown | missing | ended | unclosed | stray => exact nofun
  | amount he =>
    cases e with
    | nestingTooDeep | tooManyOperations | argumentCount => exact nofun
    | _ => cases he

/-- **A fault is in no sentence**, unless it is about how much there is of something. -/
theorem Fault.not_sentence (h : Fault free e .start ts) (he : e.concernsAmount = false) :
    ¬ Sentence free (tokens ts) := by
  rw [Outlook.sentence_iff]
  rintro ⟨d, hd, hts⟩
  cases h with
  | unexpected hq hl | trailing hq hl | unknown hq hl =>
    rw [tokens, List.map_append, Outlook.after?_trans hq, List.map_cons, Outlook.after?, hl] at hts
    cases hts
  | @missing _ s _ after _ hq hafter =>
    rw [tokens, List.map_append, Outlook.after?_trans hq] at hts
    cases after with
    | nil =>
      cases hts
      cases hd
    | cons l after =>
      obtain ⟨q, hstep, -⟩ := Option.bind_eq_some_iff.mp hts
      rw [Outlook.step?_list fun h => hafter l.offset after (h ▸ rfl)] at hstep
      cases hstep
  | ended hq hdue =>
    rw [hq] at hts
    cases hts
    rw [hd] at hdue
    cases hdue
  | unclosed hq hr hopen _ =>
    rw [tokens, List.map_append, Outlook.after?_trans hq] at hts
    rw [List.map_cons, hr] at hts
    cases hts
    cases hopen
  | stray hq =>
    rw [tokens, List.map_append, Outlook.after?_trans hq] at hts
    cases hts
  | amount h =>
    rw [h] at he
    cases he

end Abacus.Term
