import Abacus.Proofs.Grammar.Sentence

/-!
# What may come next

A sequence of tokens is read from left to right with no more memory than what is due next and which
parentheses are open. The reading fails at the first token after which the sequence cannot be
continued to a sentence any more, and at no token before it.

* `Due`: what is due between two tokens. It is an operand, the first argument of a call or its end,
  the parenthesis behind the name of a function, or whatever may stand behind an operand. Behind a
  percent sign it may also be the second operand of a remainder.
* `Outlook`: what is due, and the open parentheses, each of a group or of a call. A comma may stand
  only in a call.
* `Outlook.step?` is what one token does, `Outlook.after?` what a sequence does.

Both directions are inductions of their own. What a sentence does to an outlook is found along its
form (`Forms`). That every outlook is reached only along the beginning of a sentence is found along
the tokens: `Read` keeps what was read so far as phrases that are still open at their end.

Results:
* `viable_iff`: the sequences that can be continued are those after which there is an outlook.
* `sentence_iff`: the sentences are those after which an operand is complete and nothing is open.

The outlook is no part of the readers, which recurse instead; how they keep to it is
`Proofs/Grammar/Fault`.
-/

namespace Abacus.Term.Grammar

open Abacus.Term.Parser (additiveOp? multiplicativeOp? signOp?)

/-- An open parenthesis: of a group, or of the arguments of a call. -/
inductive Bracket where
  | group | call
deriving DecidableEq, Repr

/-- What is due between two tokens. -/
inductive Due where
  /-- an operand, with signs in front or without -/
  | operand
  /-- the first argument of a call, or the end of the call -/
  | argument
  /-- the parenthesis behind the name of a function -/
  | list
  /-- whatever may stand behind an operand -/
  | operator
  /-- behind a percent sign: as behind an operand, or the second operand of a remainder -/
  | remainder
deriving DecidableEq, Repr

namespace Due

/-- An operand without a sign may come. -/
def takesOperand : Due → Bool
  | .operand | .argument | .remainder => true
  | .list | .operator => false

/-- A sign in front of an operand may come. -/
def takesSign : Due → Bool
  | .operand | .argument => true
  | .list | .operator | .remainder => false

/-- An operand is complete. -/
def isBehind : Due → Bool
  | .operator | .remainder => true
  | .operand | .argument | .list => false

/-- A parenthesis may be closed. -/
def closes : Due → Bool
  | .operator | .remainder | .argument => true
  | .operand | .list => false

theorem closes_of_isBehind {d : Due} (h : d.isBehind = true) : d.closes = true := by
  cases d with
  | operator | remainder => rfl
  | operand | argument | list => cases h

end Due

/-- What is due, and the parentheses that are open, innermost first. -/
structure Outlook where
  due : Due
  opened : List Bracket
deriving DecidableEq, Repr

namespace Outlook

/-- Before the first token. -/
def start : Outlook := ⟨.operand, []⟩

/-- What a token does, none where it cannot stand. -/
def step? (free : Option String) (o : Outlook) : Token → Option Outlook
  | .number _ => if o.due.takesOperand then some ⟨.operator, o.opened⟩ else none
  | .name name =>
    if o.due.takesOperand then
      if IsValue free name then some ⟨.operator, o.opened⟩
      else if IsCallee free name then some ⟨.list, o.opened⟩
      else none
    else none
  | .openParen =>
    if o.due.takesOperand then some ⟨.operand, .group :: o.opened⟩
    else if o.due = .list then some ⟨.argument, .call :: o.opened⟩
    else none
  | .closeParen =>
    match o.opened with
    | _ :: opened => if o.due.closes then some ⟨.operator, opened⟩ else none
    | [] => none
  | .comma =>
    match o.opened with
    | .call :: _ => if o.due.isBehind then some ⟨.operand, o.opened⟩ else none
    | _ => none
  | .operator op =>
    if o.due.isBehind then some ⟨if op = .percent then .remainder else .operand, o.opened⟩
    else if o.due.takesSign && (signOp? op).isSome then some ⟨.operand, o.opened⟩
    else none

/-- What a sequence of tokens does. -/
def after? (free : Option String) (o : Outlook) : List Token → Option Outlook
  | [] => some o
  | t :: ts => (o.step? free t).bind fun o => o.after? free ts

variable {free : Option String} {o p q : Outlook} {d : Due} {s : List Bracket} {t : Token}
  {c e ts : List Token} {name : String}

theorem after?_cons (h : o.step? free t = some p) (ts : List Token) :
    o.after? free (t :: ts) = p.after? free ts := by
  rw [after?, h]
  rfl

theorem after?_append (o : Outlook) (c e : List Token) :
    o.after? free (c ++ e) = (o.after? free c).bind fun p => p.after? free e := by
  induction c generalizing o with
  | nil => rfl
  | cons t c ih =>
    rw [List.cons_append, after?, after?]
    cases o.step? free t with
    | none => rfl
    | some p => exact ih p

theorem after?_trans (h : o.after? free c = some p) (e : List Token) :
    o.after? free (c ++ e) = p.after? free e := by
  rw [after?_append, h]
  rfl

/-! ## One token -/

theorem step?_number (h : d.takesOperand = true) (x : Float) :
    step? free ⟨d, s⟩ (.number x) = some ⟨.operator, s⟩ := if_pos h

theorem step?_value (h : d.takesOperand = true) (hname : IsValue free name) :
    step? free ⟨d, s⟩ (.name name) = some ⟨.operator, s⟩ := by
  rw [step?, if_pos h, if_pos hname]

theorem step?_callee (h : d.takesOperand = true) (hname : IsCallee free name) :
    step? free ⟨d, s⟩ (.name name) = some ⟨.list, s⟩ := by
  rw [step?, if_pos h, if_neg hname.1, if_pos hname]

theorem step?_unknown (hvalue : ¬ IsValue free name) (hcallee : ¬ IsCallee free name) :
    step? free ⟨d, s⟩ (.name name) = none := by
  rw [step?, if_neg hvalue, if_neg hcallee, ite_self]

theorem step?_group (h : d.takesOperand = true) :
    step? free ⟨d, s⟩ .openParen = some ⟨.operand, .group :: s⟩ := if_pos h

theorem step?_closeParen (h : d.closes = true) (b : Bracket) :
    step? free ⟨d, b :: s⟩ .closeParen = some ⟨.operator, s⟩ := if_pos h

theorem step?_comma (h : d.isBehind = true) :
    step? free ⟨d, .call :: s⟩ .comma = some ⟨.operand, .call :: s⟩ := if_pos h

theorem step?_operator {op : Operator} (h : d.isBehind = true) :
    step? free ⟨d, s⟩ (.operator op) =
      some ⟨if op = .percent then .remainder else .operand, s⟩ := if_pos h

theorem step?_sign {op : Operator} {u : UnaryOp} (h : d.takesSign = true)
    (hop : signOp? op = some u) : step? free ⟨d, s⟩ (.operator op) = some ⟨.operand, s⟩ := by
  have hbehind : d.isBehind = false := by
    cases d with
    | operand | argument => rfl
    | list | operator | remainder => cases h
  rw [step?, hbehind, h, hop]
  rfl

/-- Behind the name of a function, only a parenthesis may come. -/
theorem step?_list (h : t ≠ .openParen) : step? free ⟨.list, s⟩ t = none := by
  cases t with
  | number | name | operator => rfl
  | openParen => exact absurd rfl h
  | closeParen =>
    cases s with
    | nil => rfl
    | cons => rfl
  | comma =>
    match s with
    | [] | .group :: _ | .call :: _ => rfl

/-- Where an argument is due, whatever may begin an operand may come. -/
theorem step?_argument (h : step? free ⟨.operand, s⟩ t = some q) :
    step? free ⟨.argument, s⟩ t = some q := by
  cases t with
  | number | name | openParen => exact h
  | closeParen =>
    cases s with
    | nil => cases h
    | cons => cases h
  | comma =>
    match s, h with
    | [], h | .group :: _, h | .call :: _, h => cases h
  | operator => exact h

/-- Behind a percent sign, an operand without a sign may come. -/
theorem step?_remainder (h : operandNext (t :: ts) = true) :
    step? free ⟨.remainder, s⟩ t = step? free ⟨.operand, s⟩ t := by
  cases t with
  | number | name | openParen => rfl
  | operator | closeParen | comma => cases h

/-- Only parentheses open and close. -/
theorem opened_of_step? (h : o.step? free t = some q) :
    match t with
    | .openParen => ∃ b, q.opened = b :: o.opened
    | .closeParen => ∃ b, o.opened = b :: q.opened
    | _ => q.opened = o.opened := by
  obtain ⟨d, s⟩ := o
  cases t with
  | number =>
    cases (Option.ite_none_right_eq_some.mp h).2
    rfl
  | name =>
    obtain ⟨-, h⟩ := Option.ite_none_right_eq_some.mp h
    split at h
    · cases h
      rfl
    · cases (Option.ite_none_right_eq_some.mp h).2
      rfl
  | openParen =>
    rw [step?] at h
    split at h
    · cases h
      exact ⟨.group, rfl⟩
    · cases (Option.ite_none_right_eq_some.mp h).2
      exact ⟨.call, rfl⟩
  | closeParen =>
    cases s with
    | nil => cases h
    | cons b s =>
      cases (Option.ite_none_right_eq_some.mp h).2
      exact ⟨b, rfl⟩
  | comma =>
    match s, h with
    | .call :: s, h =>
      cases (Option.ite_none_right_eq_some.mp h).2
      rfl
  | operator =>
    rw [step?] at h
    split at h
    · cases h
      rfl
    · cases (Option.ite_none_right_eq_some.mp h).2
      rfl

/-! ## What sentences do -/

/-- What a phrase does that begins where it is due. -/
def Led (free : Option String) (φ : Level) (c : List Token) : Prop :=
  match φ with
  | .arguments => c = [] ∨ ∀ s, ∃ d, d.isBehind = true ∧
      after? free ⟨.operand, .call :: s⟩ c = some ⟨d, .call :: s⟩
  | .furtherArguments => ∀ d s, d.isBehind = true → ∃ d', d'.isBehind = true ∧
      after? free ⟨d, .call :: s⟩ c = some ⟨d', .call :: s⟩
  | _ => ∀ s, ∃ d, d.isBehind = true ∧ after? free ⟨.operand, s⟩ c = some ⟨d, s⟩

/-- An operator and the operand behind it. -/
theorem exists_after?_binary {op : Operator} (hd : d.isBehind = true)
    (hright : ∃ d', d'.isBehind = true ∧ after? free ⟨.operand, s⟩ e = some ⟨d', s⟩)
    (hrem : op = .percent → operandNext e = true) :
    ∃ d', d'.isBehind = true ∧ after? free ⟨d, s⟩ (.operator op :: e) = some ⟨d', s⟩ := by
  obtain ⟨d', hd', hright⟩ := hright
  refine ⟨d', hd', ?_⟩
  rw [after?_cons (step?_operator hd)]
  by_cases hop : op = .percent
  · rw [if_pos hop]
    have hnext := hrem hop
    obtain ⟨t, e, rfl⟩ := List.exists_cons_of_ne_nil (l := e) (by rintro rfl; cases hnext)
    rw [after?, step?_remainder hnext]
    exact hright
  · rw [if_neg hop]
    exact hright

/-- **A phrase leads from where it is due to where an operand is complete**, and leaves open what
was open. -/
theorem led_of_forms {φ : Level} (h : Forms free φ c) : Led free φ c := by
  induction h with
  | sum_product _ ih | product_signed _ ih | signed_power _ ih | power_postfixed _ ih
  | postfixed_primary _ ih => exact ih
  | sum_binary hop _ _ ihl ihr =>
    intro s
    obtain ⟨d, hd, hl⟩ := ihl s
    rw [after?_trans hl]
    refine exists_after?_binary hd (ihr s) ?_
    rintro rfl
    cases hop
  | product_binary _ hrem _ _ ihl ihr =>
    intro s
    obtain ⟨d, hd, hl⟩ := ihl s
    rw [after?_trans hl]
    exact exists_after?_binary hd (ihr s) hrem
  | signed_sign hop _ ih =>
    intro s
    rw [after?_cons (step?_sign rfl hop)]
    exact ih s
  | power_raised _ _ ihb ihe =>
    intro s
    obtain ⟨d, hd, hb⟩ := ihb s
    rw [after?_trans hb]
    exact exists_after?_binary hd (ihe s) nofun
  | postfixed_percent _ ih =>
    intro s
    obtain ⟨d, hd, h⟩ := ih s
    rw [after?_trans h, after?_cons (step?_operator hd)]
    exact ⟨.remainder, rfl, rfl⟩
  | number => exact fun s => ⟨.operator, rfl, rfl⟩
  | value hname =>
    intro s
    rw [after?_cons (step?_value rfl hname)]
    exact ⟨.operator, rfl, rfl⟩
  | group _ ih =>
    intro s
    obtain ⟨d, hd, h⟩ := ih (.group :: s)
    rw [after?_cons (step?_group rfl), after?_trans h,
      after?_cons (step?_closeParen (Due.closes_of_isBehind hd) _)]
    exact ⟨.operator, rfl, rfl⟩
  | @call name c hname _ ih =>
    intro s
    refine ⟨.operator, rfl, ?_⟩
    rw [after?_cons (step?_callee rfl hname)]
    show after? free ⟨.argument, .call :: s⟩ (c ++ [.closeParen]) = some ⟨.operator, s⟩
    rcases ih with rfl | ih
    · rfl
    · obtain ⟨d, hd, h⟩ := ih s
      cases c with
      | nil => rfl
      | cons t c =>
        obtain ⟨q, hq, h⟩ := Option.bind_eq_some_iff.mp h
        rw [List.cons_append, after?_cons (step?_argument hq), after?_trans h,
          after?_cons (step?_closeParen (Due.closes_of_isBehind hd) _)]
        rfl
  | arguments_none => exact .inl rfl
  | arguments_some _ _ ihf iho =>
    refine .inr fun s => ?_
    obtain ⟨d, hd, hf⟩ := ihf (.call :: s)
    rw [after?_trans hf]
    exact iho d s hd
  | further_none => exact fun d s hd => ⟨d, hd, rfl⟩
  | further_some _ _ ihn iho =>
    intro d s hd
    obtain ⟨d', hd', hn⟩ := ihn (.call :: s)
    rw [after?_cons (step?_comma hd), after?_trans hn]
    exact iho d' s hd'

/-! ## What every outlook is the outlook of -/

/-- What stands before the contents of the innermost open parenthesis. In front of each parenthesis
an operand is missing from a sum, and in front of each argument a sum is missing from a list. -/
inductive Around (free : Option String) : List Bracket → List Token → Prop
  | whole : Around free [] []
  | group {s outer c} (around : Around free s outer)
      (missing : ∀ e, Forms free .primary e → Forms free .sum (c ++ e)) :
      Around free (.group :: s) (outer ++ c ++ [.openParen])
  | call {s outer c name args} (around : Around free s outer)
      (missing : ∀ e, Forms free .primary e → Forms free .sum (c ++ e))
      (hname : IsCallee free name)
      (more : ∀ e, Forms free .sum e → Forms free .arguments (args ++ e)) :
      Around free (.call :: s) (outer ++ c ++ .name name :: .openParen :: args)

/-- What has been read where there is an outlook. -/
inductive Read (free : Option String) : Outlook → List Token → Prop
  | operand {s outer c} (around : Around free s outer)
      (missing : ∀ e, Forms free .signed e → Forms free .sum (c ++ e)) :
      Read free ⟨.operand, s⟩ (outer ++ c)
  | argument {s outer c name} (around : Around free s outer)
      (missing : ∀ e, Forms free .primary e → Forms free .sum (c ++ e))
      (hname : IsCallee free name) :
      Read free ⟨.argument, .call :: s⟩ (outer ++ c ++ [.name name, .openParen])
  | list {s outer c name} (around : Around free s outer)
      (missing : ∀ e, Forms free .primary e → Forms free .sum (c ++ e))
      (hname : IsCallee free name) :
      Read free ⟨.list, s⟩ (outer ++ c ++ [.name name])
  | operator {s outer c} (around : Around free s outer) (h : Forms free .sum c) :
      Read free ⟨.operator, s⟩ (outer ++ c)
  | remainder {s outer c} (around : Around free s outer) (h : Forms free .sum c) :
      Read free ⟨.remainder, s⟩ (outer ++ c ++ [.operator .percent])

/-- A sum is completed to a sentence by closing what is open. -/
theorem Around.exists_sentence {outer : List Token} (h : Around free s outer)
    (hc : Forms free .sum c) : Viable free (outer ++ c) := by
  induction h generalizing c with
  | whole => exact ⟨[], by simpa [Sentence] using hc⟩
  | group _ missing ih =>
    obtain ⟨more, h⟩ := ih (missing _ (.group hc))
    exact ⟨.closeParen :: more, by simpa using h⟩
  | call _ missing hname args ih =>
    obtain ⟨more, h⟩ := ih (missing _ (.call hname (args _ hc)))
    exact ⟨.closeParen :: more, by simpa using h⟩

/-- Before a sum, where nothing has been read since the last parenthesis. -/
theorem Read.inside {outer : List Token} (h : Around free s outer) :
    Read free ⟨.operand, s⟩ outer := by
  have := Read.operand (c := []) h fun e he => .sum_product (.product_signed he)
  rwa [List.append_nil] at this

/-- A token with which an operand begins, where one is missing. -/
theorem Read.of_operandNext {outer : List Token} (around : Around free s outer)
    (missing : ∀ e, Forms free .primary e → Forms free .sum (c ++ e))
    (ht : operandNext [t] = true) (h : step? free ⟨.operand, s⟩ t = some q) :
    Read free q (outer ++ c ++ [t]) := by
  cases t with
  | number =>
    cases h
    rw [List.append_assoc]
    exact .operator around (missing _ .number)
  | name name =>
    by_cases hvalue : IsValue free name
    · rw [step?_value rfl hvalue] at h
      cases h
      rw [List.append_assoc]
      exact .operator around (missing _ (.value hvalue))
    · by_cases hcallee : IsCallee free name
      · rw [step?_callee rfl hcallee] at h
        cases h
        exact .list around missing hcallee
      · rw [step?_unknown hvalue hcallee] at h
        cases h
  | openParen =>
    cases h
    exact .inside (.group around missing)
  | operator | closeParen | comma => cases ht

/-- A token where an operand is due, with signs in front or without. -/
theorem Read.step_operand (h : Read free ⟨.operand, s⟩ ts)
    (hq : step? free ⟨.operand, s⟩ t = some q) : Read free q (ts ++ [t]) := by
  obtain @⟨_, outer, c, around, missing⟩ := h
  cases t with
  | number | name | openParen =>
    exact .of_operandNext around (fun e he => missing e he.signed_of_primary) rfl hq
  | closeParen =>
    cases s with
    | nil => cases hq
    | cons => cases hq
  | comma =>
    match s, hq with
    | [], hq | .group :: _, hq | .call :: _, hq => cases hq
  | operator op =>
    cases hop : signOp? op with
    | none =>
      rw [step?, hop] at hq
      cases hq
    | some u =>
      rw [step?_sign rfl hop] at hq
      cases hq
      rw [List.append_assoc]
      refine .operand around fun e he => ?_
      rw [List.append_assoc]
      exact missing _ (.signed_sign hop he)

/-- A token where an operand is complete; one with which an operand begins cannot stand there. -/
theorem Read.step_behind {outer : List Token} (around : Around free s outer)
    (hc : Forms free .sum c) (hq : step? free ⟨.operator, s⟩ t = some q) :
    Read free q (outer ++ c ++ [t]) := by
  cases t with
  | number | name | openParen => cases hq
  | closeParen =>
    cases around with
    | whole => cases hq
    | group around missing =>
      cases hq
      have := Read.operator around (missing _ (.group hc))
      simpa using this
    | call around missing hname more =>
      cases hq
      have := Read.operator around (missing _ (.call hname (more _ hc)))
      simpa using this
  | comma =>
    cases around with
    | whole => cases hq
    | group around missing => cases hq
    | @call _ _ _ _ args around missing hname more =>
      cases hq
      have hne : args ++ c ≠ [] :=
        List.append_ne_nil_of_right_ne_nil _ (hc.ne_nil ⟨nofun, nofun⟩)
      have comma : ∀ e, Forms free .sum e → Forms free .arguments (args ++ c ++ [.comma] ++ e) := by
        intro e he
        have := (more _ hc).further (.inr ⟨rfl, hne⟩) he
        rwa [List.append_cons] at this
      have := Read.inside (.call around missing hname comma)
      simpa using this
  | operator op =>
    rw [step?_operator rfl] at hq
    cases hq
    by_cases hop : op = .percent
    · rw [if_pos hop, hop]
      exact .remainder around hc
    · rw [if_neg hop, List.append_assoc]
      refine .operand around fun e he => ?_
      rw [List.append_assoc]
      exact hc.binary he fun h => absurd h hop

/-- **One token more has been read.** -/
theorem Read.step (h : Read free o ts) (hq : o.step? free t = some q) :
    Read free q (ts ++ [t]) := by
  cases h with
  | operand around missing => exact (Read.operand around missing).step_operand hq
  | argument around missing hname =>
    by_cases ht : t = .closeParen
    · subst ht
      cases hq
      have := Read.operator around (missing _ (.call hname .arguments_none))
      simpa using this
    · have first : ∀ e, Forms free .sum e → Forms free .arguments ([] ++ e) := by
        intro e he
        have := Forms.arguments_some he .further_none
        rwa [List.append_nil] at this
      refine (Read.inside (.call around missing hname first)).step_operand ?_
      cases t with
      | number | name | openParen | comma | operator => exact hq
      | closeParen => exact absurd rfl ht
  | list around missing hname =>
    by_cases ht : t = .openParen
    · subst ht
      cases hq
      have := Read.argument around missing hname
      simpa using this
    · rw [step?_list ht] at hq
      cases hq
  | operator around hc => exact .step_behind around hc hq
  | @remainder _ _ c around hc =>
    by_cases ht : operandNext [t] = true
    · rw [step?_remainder ht] at hq
      have missing : ∀ e, Forms free .primary e →
          Forms free .sum (c ++ [.operator .percent] ++ e) := by
        intro e he
        have := hc.binary he.signed_of_primary fun _ : Operator.percent = .percent => he.begins
        rwa [List.append_cons] at this
      have := Read.of_operandNext around missing ht hq
      simpa using this
    · have := Read.step_behind (t := t) (q := q) around hc.percent ?_
      · simpa using this
      cases t with
      | number | name | openParen => exact absurd rfl ht
      | closeParen | comma | operator => exact hq

theorem Read.after (h : Read free o ts) (hq : o.after? free c = some q) :
    Read free q (ts ++ c) := by
  induction c generalizing o ts with
  | nil =>
    cases hq
    rwa [List.append_nil]
  | cons t c ih =>
    obtain ⟨p, hp, hq⟩ := Option.bind_eq_some_iff.mp hq
    have := ih (h.step hp) hq
    rwa [List.append_assoc] at this

/-- Wherever there is an outlook, what has been read can be continued. -/
theorem Read.viable (h : Read free o ts) : Viable free ts := by
  cases h with
  | operand around missing =>
    have number : Forms free .primary [.number 0] := .number
    exact (around.exists_sentence (missing _ number.signed_of_primary)).initial (by simp)
  | argument around missing hname =>
    have call := Forms.call hname .arguments_none
    exact (around.exists_sentence (missing _ call)).initial ⟨[.closeParen], by simp⟩
  | list around missing hname =>
    have call := Forms.call hname .arguments_none
    exact (around.exists_sentence (missing _ call)).initial
      ⟨[.openParen, .closeParen], by simp⟩
  | operator around hc => exact around.exists_sentence hc
  | remainder around hc =>
    rw [List.append_assoc]
    exact around.exists_sentence hc.percent

/-- **The sequences that can be continued to a sentence are those after which there is an
outlook.** -/
theorem viable_iff : Viable free ts ↔ ∃ o, start.after? free ts = some o := by
  constructor
  · rintro ⟨more, h⟩
    obtain ⟨d, -, hd⟩ := led_of_forms h []
    rw [after?_append] at hd
    obtain ⟨o, ho, -⟩ := Option.bind_eq_some_iff.mp hd
    exact ⟨o, ho⟩
  · rintro ⟨o, ho⟩
    exact ((Read.inside .whole).after ho).viable

/-- **The sentences are those after which an operand is complete and nothing is open.** -/
theorem sentence_iff :
    Sentence free ts ↔ ∃ d, d.isBehind = true ∧ start.after? free ts = some ⟨d, []⟩ := by
  constructor
  · exact fun h => led_of_forms h []
  · rintro ⟨d, hd, h⟩
    have hread : Read free ⟨d, []⟩ ts := (Read.inside .whole).after h
    cases hread with
    | operand | list => cases hd
    | operator around hc =>
      cases around
      exact hc
    | remainder around hc =>
      cases around
      exact hc.percent

end Outlook

end Abacus.Term.Grammar
