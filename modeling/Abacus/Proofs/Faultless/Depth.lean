import Abacus.Proofs.Grammar.Reader

/-!
# The reader as a machine

The readers of `Term.Parser` hand their meter on. A machine that has one counter for the depth goes
up on the way in and down on the way out, also when what it has read is refused. Its counter cannot
go below zero: going down from zero has no result, and neither has a run that calls its functions
inside one another more often than it has room for. The machine always has a result, and it is what
the readers find.

* `State`: the tokens that are left and the counters, changed in place. `Run`: a run finds something
  or is refused, and has changed the state either way; or it has no result.
* `additive`, …: the machine, one function for each level of binding. The number is the room.
* `andLeave`: back from one level in the end, as a cleanup that also runs on an error.
* `Mirrors`: a run has the result of a reader, the tokens it left and its meter. Where the reader is
  refused, the machine is not less deep than it was.

A reader returns its meter only with a result. So where it is refused, the state of the machine is
known by its depth alone, which is what leaving the level needs.

Results:
* `Mirrors.andLeave`: whatever became of what was read on a level, it can be left.
* `additive_mirrors`, …: every function does what its reader does.
* `expression?_eq`: the counter never goes below zero, and the result is that of `ofLexemes`.

What a level accounts for when it finds a term is `Proofs/Faultless/Levels`.
-/

namespace Abacus.Term.Machine

open Abacus.Term.Parser

/-- The tokens that are left, and the counters. -/
structure State where
  rest : List Lexeme
  meter : Meter

/-- A run finds something or is refused, and has changed the state either way. -/
abbrev Run := ExceptT Error (StateT State Option)

/-! ## The machine -/

/-- No result at all. -/
def stuck {α : Type} : Run α := fun _ => none

/-- The tokens that are left. -/
def look : Run (List Lexeme) := do return (← get).rest

/-- The sign that comes first. -/
def signOf? : List Lexeme → Option Operator
  | ⟨.operator op, _⟩ :: _ => some op
  | _ => none

/-- The next token is passed. -/
def consume : Run Unit := modify fun s => ⟨s.rest.tail, s.meter⟩

/-- One more operator or call. -/
def count : Run Unit := do
  modify fun s => ⟨s.rest, ⟨s.meter.depth, s.meter.operations + 1⟩⟩
  if maxOperations < (← get).meter.operations then throw (.tooManyOperations maxOperations)

/-- One level deeper. -/
def enter : Run Unit := do
  modify fun s => ⟨s.rest, ⟨s.meter.depth + 1, s.meter.operations⟩⟩
  if maxNesting < (← get).meter.depth then throw (.nestingTooDeep maxNesting)

/-- Back from one level; there is none below the ground. -/
def State.leave? (s : State) : Option State :=
  match s.meter.depth with
  | 0 => none
  | depth + 1 => some ⟨s.rest, ⟨depth, s.meter.operations⟩⟩

/-- Back from one level in the end, whether or not the run was refused. -/
def andLeave {α : Type} (run : Run α) : Run α := fun s => do
  let (result, s) ← run s
  let s ← s.leave?
  some (result, s)

/-- The parenthesis that closes the one at an offset. -/
def close (opened : Nat) : Run Unit := do
  match ← look with
  | [] => throw (.unbalancedParentheses opened)
  | t :: _ =>
    consume
    if t.token ≠ .closeParen then throw (.unexpectedToken t.token t.offset)

/-- Percent signs behind an operand. -/
def percents : Nat → Term → Run Term
  | 0, _ => stuck
  | n + 1, operand => do
    let ts ← look
    if signOf? ts = some .percent ∧ operandFollows ts.tail = false then
      consume
      count
      percents n (.unary .percent operand)
    else return operand

variable (free : Option String)

mutual

/-- A sum. -/
def additive : Nat → Run Term
  | 0 => stuck
  | n + 1 => do
    let left ← multiplicative n
    additiveTail n left

/-- The summands behind a sum. -/
def additiveTail : Nat → Term → Run Term
  | 0, _ => stuck
  | n + 1, left => do
    match (signOf? (← look)).bind additiveOp? with
    | none => return left
    | some op =>
      consume
      count
      let right ← multiplicative n
      additiveTail n (.binary op left right)

/-- A product. -/
def multiplicative : Nat → Run Term
  | 0 => stuck
  | n + 1 => do
    let left ← unary n
    multiplicativeTail n left

/-- The factors behind a product. -/
def multiplicativeTail : Nat → Term → Run Term
  | 0, _ => stuck
  | n + 1, left => do
    match (signOf? (← look)).bind multiplicativeOp? with
    | none => return left
    | some op =>
      consume
      count
      let right ← unary n
      multiplicativeTail n (.binary op left right)

/-- An operand with the signs in front of it. -/
def unary : Nat → Run Term
  | 0 => stuck
  | n + 1 => do
    enter
    andLeave (signed n)

/-- One sign and its operand, or a power. -/
def signed : Nat → Run Term
  | 0 => stuck
  | n + 1 => do
    match (signOf? (← look)).bind signOp? with
    | none => power n
    | some op =>
      consume
      count
      let operand ← unary n
      return .unary op operand

/-- A base with its exponent. -/
def power : Nat → Run Term
  | 0 => stuck
  | n + 1 => do
    let base ← postfixed n
    if signOf? (← look) = some .caret then
      consume
      count
      let exponent ← unary n
      return .binary .power base exponent
    else return base

/-- An operand with the percent signs behind it. -/
def postfixed : Nat → Run Term
  | 0 => stuck
  | n + 1 => do
    let operand ← primary n
    percents n operand

/-- A number, a name, a call or an expression in parentheses. -/
def primary : Nat → Run Term
  | 0 => stuck
  | n + 1 => do
    match ← look with
    | [] => throw .unexpectedEnd
    | t :: _ =>
      consume
      match t.token with
      | .number value => return .literal value
      | .openParen =>
        let inner ← additive n
        close t.offset
        return inner
      | .name name =>
        match meaning free name with
        | .variable => return .variable name
        | .constant value => return .literal value
        | .function f =>
          let args ← call n name
          if args.length = f.arity then return .call name args
          else throw (.argumentCount name f.arity args.length)
        | .unknown => throw (.unknownName name)
      | _ => throw (.unexpectedToken t.token t.offset)

/-- The argument list of a call in its parentheses. -/
def call : Nat → String → Run (List Term)
  | 0, _ => stuck
  | n + 1, name => do
    match ← look with
    | ⟨.openParen, opened⟩ :: _ =>
      consume
      count
      let args ← arguments n
      close opened
      return args
    | _ => throw (.missingArguments name)

/-- Arguments up to the closing parenthesis. -/
def arguments : Nat → Run (List Term)
  | 0 => stuck
  | n + 1 => do
    match ← look with
    | ⟨.closeParen, _⟩ :: _ => return []
    | _ =>
      let first ← additive n
      let others ← moreArguments n
      return first :: others

/-- Further arguments, each behind a comma. -/
def moreArguments : Nat → Run (List Term)
  | 0 => stuck
  | n + 1 => do
    match ← look with
    | ⟨.comma, _⟩ :: _ =>
      consume
      let next ← additive n
      let others ← moreArguments n
      return next :: others
    | _ => return []

end

variable {free : Option String} {α β : Type} {n n' o : Nat} {ts : List Lexeme} {m : Meter}

/-! ## Runs -/

theorem bind_of_ok {run : Run α} {k : α → Run β} {s s' : State} {a : α}
    (h : run s = some (.ok a, s')) : (run >>= k) s = k a s' := by
  show (run s >>= fun (result, s) => ExceptT.bindCont k result s) = _
  rw [h]
  rfl

theorem bind_of_error {run : Run α} {k : α → Run β} {s s' : State} {e : Error}
    (h : run s = some (.error e, s')) : (run >>= k) s = some (.error e, s') := by
  show (run s >>= fun (result, s) => ExceptT.bindCont k result s) = _
  rw [h]
  rfl

theorem look_bind {k : List Lexeme → Run α} : (look >>= k) ⟨ts, m⟩ = k ts ⟨ts, m⟩ := rfl

theorem consume_bind {k : Unit → Run α} {t : Lexeme} :
    (consume >>= k) ⟨t :: ts, m⟩ = k () ⟨ts, m⟩ := rfl

/-- A counter that has gone up is refused above its limit. -/
theorem throw_above {limit k : Nat} {e : Error} {s : State} :
    (if limit < k + 1 then throw e else pure () : Run Unit) s =
      some (if k < limit then .ok () else .error e, s) := by
  by_cases hlt : k < limit
  · rw [if_pos hlt, if_neg (Nat.not_lt.mpr hlt)]
    rfl
  · rw [if_neg hlt, if_pos (Nat.lt_succ_of_le (Nat.le_of_not_lt hlt))]
    rfl

theorem count_eq (ts : List Lexeme) (m : Meter) : count ⟨ts, m⟩ =
    some (if m.operations < maxOperations then .ok ()
      else .error (.tooManyOperations maxOperations), ⟨ts, ⟨m.depth, m.operations + 1⟩⟩) :=
  throw_above

theorem enter_eq (ts : List Lexeme) (m : Meter) : enter ⟨ts, m⟩ =
    some (if m.depth < maxNesting then .ok ()
      else .error (.nestingTooDeep maxNesting), ⟨ts, ⟨m.depth + 1, m.operations⟩⟩) :=
  throw_above

theorem leave?_succ {depth : Nat} (h : m.depth = depth + 1) :
    State.leave? ⟨ts, m⟩ = some ⟨ts, ⟨depth, m.operations⟩⟩ := by
  unfold State.leave?
  rw [h]

/-! ## The machine and the readers -/

/-- The machine finds what a reader finds, is then as deep as before, and where it is refused not
less deep. -/
def Mirrors (m : Meter) :
    Except Error (Parsed α n) → Option (Except Error α × State) → Prop
  | .ok r, run => run = some (.ok r.value, ⟨r.rest, r.meter⟩) ∧ r.meter.depth = m.depth
  | .error e, run => ∃ s, run = some (.error e, s) ∧ m.depth ≤ s.meter.depth

theorem Mirrors.congr {m' : Meter} {x : Except Error (Parsed α n)}
    {run : Option (Except Error α × State)} (h : Mirrors m x run) (hm : m.depth = m'.depth) :
    Mirrors m' x run := by
  unfold Mirrors at h ⊢
  rwa [hm] at h

theorem Mirrors.ok {a : α} {h : ts.length < n} :
    Mirrors m (.ok ⟨a, ts, m, h⟩) ((return a : Run α) ⟨ts, m⟩) := ⟨rfl, rfl⟩

theorem Mirrors.error {e : Error} :
    Mirrors m (.error e : Except Error (Parsed α n)) ((throw e : Run α) ⟨ts, m⟩) :=
  ⟨_, rfl, Nat.le_refl _⟩

/-- Two runs in sequence. -/
theorem Mirrors.bind {x : Except Error (Parsed α n)} {f : Parsed α n → Except Error (Parsed β n')}
    {run : Run α} {k : α → Run β} {s : State} (hx : Mirrors m x (run s))
    (hf : ∀ r, Mirrors r.meter (f r) (k r.value ⟨r.rest, r.meter⟩)) :
    Mirrors m (x >>= f) ((run >>= k) s) := by
  cases x with
  | error e =>
    obtain ⟨s', hrun, hdepth⟩ := hx
    exact ⟨s', bind_of_error hrun, hdepth⟩
  | ok r =>
    obtain ⟨hrun, hdepth⟩ := hx
    rw [bind_of_ok hrun]
    exact (hf r).congr hdepth

/-- The token of an operator or a call is passed and counted. -/
theorem Mirrors.count {f : Meter → Except Error (Parsed α n)} {run : Run α} {t : Lexeme}
    {rest : List Lexeme} (hts : ts = t :: rest) (hf : ∀ m, Mirrors m (f m) (run ⟨rest, m⟩)) :
    Mirrors m (m.count >>= f) ((do consume; count; run) ⟨ts, m⟩) := by
  rw [hts, consume_bind, Meter.count]
  have hcount := count_eq rest m
  by_cases hlt : m.operations < maxOperations
  · rw [if_pos hlt] at hcount ⊢
    rw [bind_of_ok hcount]
    exact (hf _).congr rfl
  · rw [if_neg hlt] at hcount ⊢
    exact ⟨_, bind_of_error hcount, Nat.le_refl _⟩

/-- A parenthesis is closed alike. -/
theorem Mirrors.close {f : { c : List Lexeme // c.length < ts.length } → Except Error (Parsed α n)}
    {run : Run α} (hf : ∀ c, Mirrors m (f c) (run ⟨c.val, m⟩)) :
    Mirrors m (closing o ts >>= f) ((do close o; run) ⟨ts, m⟩) := by
  match ts, f, hf with
  | [], f, _ => exact ⟨_, rfl, Nat.le_refl _⟩
  | ⟨.closeParen, _⟩ :: rest, f, hf => exact hf ⟨rest, _⟩
  | ⟨.number _, _⟩ :: _, f, _ | ⟨.name _, _⟩ :: _, f, _ | ⟨.operator _, _⟩ :: _, f, _
  | ⟨.openParen, _⟩ :: _, f, _ | ⟨.comma, _⟩ :: _, f, _ => exact ⟨_, rfl, Nat.le_refl _⟩

/-- **There is a level to come back from**, whether or not what was read on it was refused. -/
theorem Mirrors.andLeave {inside : Meter} {x : Except Error (Parsed α n)} {run : Run α} {s : State}
    (hx : Mirrors inside x (run s)) (hinside : inside.depth = m.depth + 1) :
    Mirrors m (x >>= fun r => .ok ⟨r.value, r.rest, r.meter.leave, r.shorter⟩)
      (andLeave run s) := by
  show Mirrors m _ (run s >>= fun (result, s) => _)
  cases x with
  | error e =>
    obtain ⟨⟨rest, meter⟩, hrun, hdepth⟩ := hx
    rw [hinside] at hdepth
    obtain ⟨depth, hmeter⟩ := Nat.exists_eq_succ_of_ne_zero (Nat.ne_zero_of_lt hdepth)
    rw [hrun]
    show Mirrors m _ (State.leave? ⟨rest, meter⟩ >>= _)
    rw [leave?_succ hmeter]
    exact ⟨_, rfl, Nat.le_of_succ_le_succ (Nat.le_trans hdepth (Nat.le_of_eq hmeter))⟩
  | ok r =>
    obtain ⟨hrun, hdepth⟩ := hx
    rw [hinside] at hdepth
    have hleave : r.meter.leave = ⟨m.depth, r.meter.operations⟩ := by
      rw [Meter.leave, hdepth]
      rfl
    rw [hrun]
    show Mirrors m (.ok ⟨r.value, r.rest, r.meter.leave, r.shorter⟩)
      (State.leave? ⟨r.rest, r.meter⟩ >>= _)
    rw [leave?_succ hdepth, hleave]
    exact ⟨rfl, rfl⟩

/-- Going up and down leads back. -/
theorem Mirrors.unary {f : Meter → Except Error (Parsed α n)} {run : Run α}
    (hf : ∀ m, Mirrors m (f m) (run ⟨ts, m⟩)) :
    Mirrors m (do
      let m ← m.enter
      let r ← f m
      .ok ⟨r.value, r.rest, r.meter.leave, r.shorter⟩)
      ((do enter; Machine.andLeave run) ⟨ts, m⟩) := by
  rw [Meter.enter]
  have henter := enter_eq ts m
  by_cases hlt : m.depth < maxNesting
  · rw [if_pos hlt] at henter ⊢
    rw [bind_of_ok henter]
    exact (hf ⟨m.depth + 1, m.operations⟩).andLeave rfl
  · rw [if_neg hlt] at henter ⊢
    exact ⟨_, bind_of_error henter, Nat.le_succ _⟩

/-! ## The next sign -/

theorem signOf?_eq_some {op : Operator} (h : signOf? ts = some op) :
    ∃ o rest, ts = ⟨.operator op, o⟩ :: rest := by
  unfold signOf? at h
  split at h
  · cases h
    exact ⟨_, _, rfl⟩
  · cases h

/-- The next sign is one that the level takes up, or is not. -/
theorem signOf?_cases (f : Operator → Option β) (ts : List Lexeme) :
    (∃ op b o rest, ts = ⟨.operator op, o⟩ :: rest ∧ f op = some b ∧
      (signOf? ts).bind f = some b) ∨
      ((signOf? ts).bind f = none ∧
        ∀ op b o rest, ts = ⟨.operator op, o⟩ :: rest → f op ≠ some b) := by
  cases h : (signOf? ts).bind f with
  | some b =>
    obtain ⟨op, hop, hb⟩ := Option.bind_eq_some_iff.mp h
    obtain ⟨o, rest, hts⟩ := signOf?_eq_some hop
    exact .inl ⟨op, b, o, rest, hts, hb, rfl⟩
  | none =>
    refine .inr ⟨rfl, ?_⟩
    rintro op b o rest rfl hb
    rw [show signOf? (⟨.operator op, o⟩ :: rest) = some op from rfl, Option.bind_some, hb] at h
    cases h

/-! ## Every reader

A call of one function inside another reads a token or goes to a lower one of eight levels, so room
for eight calls for each token is enough. -/

theorem percents_mirrors {t : Term} {ts : List Lexeme} {m : Meter} {h : ts.length < n} :
    ∀ {room : Nat}, ts.length < room →
      Mirrors m (Parser.percents n t ts m h) (percents room t ⟨ts, m⟩)
  | room + 1, hroom => by
    rcases Nat.lt_or_ge 1 (pull (tokens ts)) with h1 | h1
    · rw [percents_stop h1, percents, look_bind, if_neg]
      · exact .ok
      · rintro ⟨hsign, hop⟩
        obtain ⟨o, rest, rfl⟩ := signOf?_eq_some hsign
        rw [tokens, List.map_cons, pull_percent ((operandNext_tokens rest).trans hop)] at h1
        exact Nat.lt_irrefl 1 h1
    · obtain ⟨o, rest, rfl, hop⟩ := pull_eq_one (Nat.le_antisymm h1 (pull_pos _))
      have hfollows : operandFollows rest = false := (operandNext_tokens rest).symm.trans hop
      rw [percents_step rfl hop, percents, look_bind, if_pos ⟨rfl, hfollows⟩]
      exact .count rfl fun m => percents_mirrors (Nat.lt_of_succ_lt_succ hroom)

mutual

theorem additive_mirrors {ts : List Lexeme} {m : Meter} :
    ∀ {room : Nat}, 8 * ts.length + 6 < room →
      Mirrors m (Parser.additive free ts m) (additive free room ⟨ts, m⟩)
  | room + 1, hroom => by
    rw [additive_eq, additive]
    refine (multiplicative_mirrors (by omega)).bind fun r => ?_
    have hr := r.shorter
    exact additiveTail_mirrors (by omega)
termination_by structural room => room

theorem additiveTail_mirrors {n : Nat} {t : Term} {ts : List Lexeme} {m : Meter}
    {h : ts.length < n} :
    ∀ {room : Nat}, 8 * ts.length < room →
      Mirrors m (Parser.additiveTail free n t ts m h) (additiveTail free room t ⟨ts, m⟩)
  | room + 1, hroom => by
    rcases signOf?_cases additiveOp? ts with ⟨op, b, o, rest, hts, hop, hsome⟩ | ⟨hnone, hne⟩
    · have hrest := length_of_cons hts
      rw [additiveTail_step hts hop, additiveTail, look_bind, hsome]
      refine .count hts fun m => ?_
      refine (multiplicative_mirrors (by omega)).bind fun r => ?_
      have hr := r.shorter
      exact additiveTail_mirrors (by omega)
    · have hstop : pull (tokens ts) ≠ 4 := by
        intro h4
        obtain ⟨op, b, -, o, rest, hts, hop, -⟩ := pull_eq_four h4
        exact hne op b o rest hts hop
      rw [additiveTail_stop hstop, additiveTail, look_bind, hnone]
      exact .ok
termination_by structural room => room

theorem multiplicative_mirrors {ts : List Lexeme} {m : Meter} :
    ∀ {room : Nat}, 8 * ts.length + 5 < room →
      Mirrors m (Parser.multiplicative free ts m) (multiplicative free room ⟨ts, m⟩)
  | room + 1, hroom => by
    rw [multiplicative_eq, multiplicative]
    refine (unary_mirrors (by omega)).bind fun r => ?_
    have hr := r.shorter
    exact multiplicativeTail_mirrors (by omega)
termination_by structural room => room

theorem multiplicativeTail_mirrors {n : Nat} {t : Term} {ts : List Lexeme} {m : Meter}
    {h : ts.length < n} :
    ∀ {room : Nat}, 8 * ts.length < room →
      Mirrors m (Parser.multiplicativeTail free n t ts m h)
        (multiplicativeTail free room t ⟨ts, m⟩)
  | room + 1, hroom => by
    rcases signOf?_cases multiplicativeOp? ts with
      ⟨op, b, o, rest, hts, hop, hsome⟩ | ⟨hnone, hne⟩
    · have hrest := length_of_cons hts
      rw [multiplicativeTail_step hts hop, multiplicativeTail, look_bind, hsome]
      refine .count hts fun m => ?_
      refine (unary_mirrors (by omega)).bind fun r => ?_
      have hr := r.shorter
      exact multiplicativeTail_mirrors (by omega)
    · rw [multiplicativeTail_end hne, multiplicativeTail, look_bind, hnone]
      exact .ok
termination_by structural room => room

theorem unary_mirrors {ts : List Lexeme} {m : Meter} :
    ∀ {room : Nat}, 8 * ts.length + 4 < room →
      Mirrors m (Parser.unary free ts m) (unary free room ⟨ts, m⟩)
  | room + 1, hroom => by
    rw [unary_eq, unary]
    exact .unary fun m => signed_mirrors (by omega)
termination_by structural room => room

theorem signed_mirrors {ts : List Lexeme} {m : Meter} :
    ∀ {room : Nat}, 8 * ts.length + 3 < room →
      Mirrors m (Parser.signed free ts m) (signed free room ⟨ts, m⟩)
  | room + 1, hroom => by
    rcases signOf?_cases signOp? ts with ⟨op, b, o, rest, hts, hop, hsome⟩ | ⟨hnone, hne⟩
    · have hrest := length_of_cons hts
      rw [signed_step hts hop, signed, look_bind, hsome]
      refine .count hts fun m => ?_
      exact (unary_mirrors (by omega)).bind fun r => .ok
    · have hstop : pull (tokens ts) ≠ 4 := by
        intro h4
        obtain ⟨op, -, u, o, rest, hts, -, hop⟩ := pull_eq_four h4
        exact hne op u o rest hts hop
      rw [signed_stop hstop, signed, look_bind, hnone]
      exact power_mirrors (by omega)
termination_by structural room => room

theorem power_mirrors {ts : List Lexeme} {m : Meter} :
    ∀ {room : Nat}, 8 * ts.length + 2 < room →
      Mirrors m (Parser.power free ts m) (power free room ⟨ts, m⟩)
  | room + 1, hroom => by
    have hbase : Mirrors m (Parser.postfixed free ts m) (postfixed free room ⟨ts, m⟩) :=
      postfixed_mirrors (by omega)
    rw [power]
    cases hb : Parser.postfixed free ts m with
    | error e =>
      rw [hb] at hbase
      obtain ⟨s, hrun, hdepth⟩ := hbase
      rw [power_of_error hb]
      exact ⟨s, bind_of_error hrun, hdepth⟩
    | ok b =>
      rw [hb] at hbase
      obtain ⟨hrun, hdepth⟩ := hbase
      rw [bind_of_ok hrun, look_bind]
      refine Mirrors.congr ?_ hdepth
      by_cases h2 : pull (tokens b.rest) = 2
      · obtain ⟨o, rest, hrest⟩ := pull_eq_two h2
        have hlength := Nat.lt_trans (length_of_cons hrest) b.shorter
        have hsign : signOf? b.rest = some .caret := by rw [hrest]; rfl
        rw [power_step hb hrest, if_pos hsign]
        refine .count hrest fun m => ?_
        exact (unary_mirrors (by omega)).bind fun r => .ok
      · rw [power_stop hb h2, if_neg]
        · exact .ok
        · intro hsign
          obtain ⟨o, rest, hrest⟩ := signOf?_eq_some hsign
          rw [hrest] at h2
          exact h2 rfl
termination_by structural room => room

theorem postfixed_mirrors {ts : List Lexeme} {m : Meter} :
    ∀ {room : Nat}, 8 * ts.length + 1 < room →
      Mirrors m (Parser.postfixed free ts m) (postfixed free room ⟨ts, m⟩)
  | room + 1, hroom => by
    rw [postfixed_eq, postfixed]
    refine (primary_mirrors (by omega)).bind fun r => ?_
    have hr := r.shorter
    exact percents_mirrors (by omega)
termination_by structural room => room

theorem primary_mirrors {ts : List Lexeme} {m : Meter} :
    ∀ {room : Nat}, 8 * ts.length < room →
      Mirrors m (Parser.primary free ts m) (primary free room ⟨ts, m⟩)
  | room + 1, hroom => by
    match ts with
    | [] =>
      rw [Parser.primary, primary]
      exact .error
    | ⟨.number x, o⟩ :: rest =>
      rw [primary_number rfl, primary]
      exact .ok
    | ⟨.openParen, o⟩ :: rest =>
      rw [List.length_cons] at hroom
      rw [primary_group rfl, primary]
      refine (additive_mirrors (by omega)).bind fun r => ?_
      exact .close fun c => .ok
    | ⟨.name name, o⟩ :: rest =>
      rw [List.length_cons] at hroom
      rw [primary, look_bind]
      show Mirrors m _ ((match meaning free name with
        | .variable => _ | .constant value => _ | .function f => _ | .unknown => _ : Run Term)
          ⟨rest, m⟩)
      rcases hm : meaning free name with _ | x | f | _
      · rw [primary_variable rfl hm]
        exact .ok
      · rw [primary_constant rfl hm]
        exact .ok
      · rw [primary_function rfl hm]
        refine (call_mirrors name (by omega)).bind fun a => ?_
        by_cases harity : a.value.length = f.arity
        · rw [if_pos harity, if_pos harity]
          exact .ok
        · rw [if_neg harity, if_neg harity]
          exact .error
      · rw [primary_unknown rfl hm]
        exact .error
    | ⟨.operator _, _⟩ :: _ | ⟨.closeParen, _⟩ :: _ | ⟨.comma, _⟩ :: _ =>
      rw [primary_stop rfl, primary]
      exact .error
termination_by structural room => room

theorem call_mirrors {ts : List Lexeme} {m : Meter} (name : String) :
    ∀ {room : Nat}, 8 * ts.length < room →
      Mirrors m (Parser.call free name ts m) (call free room name ⟨ts, m⟩)
  | room + 1, hroom => by
    rw [call, look_bind]
    split
    · rename_i o rest
      rw [List.length_cons] at hroom
      rw [call_step rfl]
      refine .count rfl fun m => ?_
      exact (arguments_mirrors (by omega)).bind fun r => .close fun c => .ok
    · rename_i hne
      rw [call_stop hne]
      exact .error
termination_by structural room => room

theorem arguments_mirrors {n : Nat} {ts : List Lexeme} {m : Meter} {h : ts.length < n} :
    ∀ {room : Nat}, 8 * ts.length + 7 < room →
      Mirrors m (Parser.arguments free n ts m h) (arguments free room ⟨ts, m⟩)
  | room + 1, hroom => by
    rw [arguments, look_bind]
    split
    · rw [arguments_stop rfl]
      exact .ok
    · rename_i hne
      rw [arguments_step hne]
      refine (additive_mirrors (by omega)).bind fun a => ?_
      have ha := a.shorter
      exact (moreArguments_mirrors (by omega)).bind fun r => .ok
termination_by structural room => room

theorem moreArguments_mirrors {n : Nat} {ts : List Lexeme} {m : Meter} {h : ts.length < n} :
    ∀ {room : Nat}, 8 * ts.length < room →
      Mirrors m (Parser.moreArguments free n ts m h) (moreArguments free room ⟨ts, m⟩)
  | room + 1, hroom => by
    rw [moreArguments, look_bind]
    split
    · rename_i o rest _
      rw [List.length_cons] at hroom
      rw [moreArguments_step rfl, consume_bind]
      refine (additive_mirrors (by omega)).bind fun a => ?_
      have ha := a.shorter
      exact (moreArguments_mirrors (by omega)).bind fun r => .ok
    · rename_i hne
      rw [moreArguments_stop hne]
      exact .ok
termination_by structural room => room

end

/-! ## Whole expressions -/

/-- An expression up to the end of the tokens. -/
def whole (free : Option String) (room : Nat) : Run Term := do
  let t ← additive free room
  match ← look with
  | [] => return t
  | ⟨.closeParen, offset⟩ :: _ => throw (.unbalancedParentheses offset)
  | next :: _ => throw (.trailingInput next.token next.offset)

/-- Tokens as one expression, from the ground. -/
def expression? (free : Option String) (ts : List Lexeme) : Option (Except Error Term) :=
  match ts with
  | [] => some (.ok (.literal 0))
  | ts => (whole free (8 * ts.length + 7) ⟨ts, ⟨0, 0⟩⟩).map Prod.fst

/-- **The counter never goes below zero**, and what is read is what the readers read. -/
theorem expression?_eq (free : Option String) (ts : List Lexeme) :
    expression? free ts = some (ofLexemes free ts) := by
  cases ts with
  | nil => rfl
  | cons t ts =>
    have hrun : Mirrors ⟨0, 0⟩ (Parser.additive free (t :: ts) ⟨0, 0⟩)
        (additive free (8 * (t :: ts).length + 7) ⟨t :: ts, ⟨0, 0⟩⟩) :=
      additive_mirrors (Nat.lt_succ_self _)
    show (whole free _ ⟨t :: ts, ⟨0, 0⟩⟩).map Prod.fst = some (Parser.additive free _ _ >>= _)
    rw [whole]
    cases hread : Parser.additive free (t :: ts) ⟨0, 0⟩ with
    | error e =>
      rw [hread] at hrun
      obtain ⟨s, hrun, -⟩ := hrun
      rw [bind_of_error hrun]
      rfl
    | ok r =>
      rw [hread] at hrun
      obtain ⟨hrun, -⟩ := hrun
      rw [bind_of_ok hrun, look_bind]
      obtain ⟨t, rest, m, h⟩ := r
      cases rest with
      | nil => rfl
      | cons next rest =>
        obtain ⟨token, offset⟩ := next
        cases token <;> rfl

end Abacus.Term.Machine
