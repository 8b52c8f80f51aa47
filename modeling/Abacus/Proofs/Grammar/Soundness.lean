import Abacus.Proofs.Grammar.Reader

/-!
# What a reader reads, the grammar derives

Every reader that succeeds has gone along a derivation of what it returns, has left the depth as
it was, has counted exactly the operators and calls it returns, and stands before a sign that its
level does not take up. `Reads` puts the first three together, from a sequence of tokens and a meter
to another; the sign is said of each reader by itself, by `pull`.

The readers recurse through one another, so the statements are proved together, by the measure the
readers themselves end by. There is one theorem for each reader, and they are the cases of one
induction. The loops of sums, products and percent signs carry what was read before them as a
derivation of the same level, since the rules are left recursive.

Results:
* `additive_sound`: what is read as a sum derives as a sum. The other readers have theirs, down to
  `moreArguments_sound`.
* `Reads.limit`: a meter within the limit of operations stays within it.

A sum read at depth `d` derives with room for `255 - d` constructs, since its operands are entered
below the limit of 256; `Proofs/Grammar/Exactness` starts at depth 0.
-/

namespace Abacus.Term.Grammar

/-- The operators and calls in the terms of a phrase. -/
def Phrase.operations : Phrase → Nat
  | .sum t | .product t | .signed t | .power t | .postfixed t | .primary t => t.operations
  | .arguments args | .furtherArguments args => operationsIn args

end Abacus.Term.Grammar

namespace Abacus.Term.Parser

open Grammar

/-- From `ts` to `rest` a phrase was read by the rules and counted on the meter. -/
structure Reads (free : Option String) (n : Nat) (p : Phrase) (ts : List Lexeme) (m : Meter)
    (rest : List Lexeme) (m' : Meter) : Prop where
  derives : Derives free n p (tokens ts) (tokens rest)
  meter : m' = m.after p.operations
  bound : m'.operations ≤ max m.operations maxOperations

variable {free : Option String}

theorem Reads.depth_eq {n : Nat} {p : Phrase} {ts rest : List Lexeme} {m m' : Meter}
    (h : Reads free n p ts m rest m') : m'.depth = m.depth := by
  rw [h.meter, Meter.after_depth]

theorem Reads.limit {n : Nat} {p : Phrase} {ts rest : List Lexeme} {m m' : Meter}
    (h : Reads free n p ts m rest m') (hm : m.operations ≤ maxOperations) :
    m'.operations ≤ maxOperations :=
  Nat.le_trans h.bound (Nat.max_le.mpr ⟨hm, Nat.le_refl _⟩)

/-- Behind an operator that was counted there is room up to the limit only. -/
theorem Reads.bound_of_count {n k : Nat} {p : Phrase} {ts rest : List Lexeme} {m m' : Meter}
    (h : Reads free n p ts m rest m') (hm : m.operations ≤ maxOperations) :
    m'.operations ≤ max k maxOperations :=
  Nat.le_trans (h.limit hm) (Nat.le_max_right _ _)

/-- What was read in sequence stays within the bound. -/
theorem Reads.bound_trans {n n' : Nat} {p p' : Phrase} {ts ts' rest : List Lexeme}
    {m m' m'' : Meter} (h : Reads free n p ts m ts' m') (h' : Reads free n' p' ts' m' rest m'') :
    m''.operations ≤ max m.operations maxOperations :=
  Nat.le_trans h'.bound (Nat.max_le.mpr ⟨h.bound, Nat.le_max_right _ _⟩)

/-- An operator is counted between its operands. -/
theorem Meter.after_binary (m : Meter) (op : BinaryOp) (t u : Term) :
    ((m.after t.operations).after 1).after u.operations =
      m.after (Term.binary op t u).operations := by
  rw [Meter.after_after, Meter.after_after, Term.operations]
  exact congrArg m.after (by omega)

/-- Where the reader can still enter, there is room for one construct more. -/
theorem room_succ {depth : Nat} (h : depth < maxNesting) : 256 - depth = 255 - depth + 1 :=
  Nat.succ_sub (Nat.le_of_lt_succ h)

theorem percents_sound {n k : Nat} {ts₀ ts : List Lexeme} {m₀ m : Meter} {t : Term}
    {h : ts.length < n} {r : Parsed Term n} (hr : percents n t ts m h = .ok r)
    (hs : Reads free k (.postfixed t) ts₀ m₀ ts m) :
    Reads free k (.postfixed r.value) ts₀ m₀ r.rest r.meter ∧ 1 < pull (tokens r.rest) := by
  rcases Nat.lt_or_ge 1 (pull (tokens ts)) with hp | hp
  · rw [percents_stop hp] at hr
    cases hr
    exact ⟨hs, hp⟩
  · obtain ⟨o, rest, hts, hop⟩ := pull_eq_one (Nat.le_antisymm hp (pull_pos _))
    rw [percents_step hts hop] at hr
    obtain ⟨m', hm, hr⟩ := Except.bind_eq_ok.mp hr
    obtain ⟨rfl, hlim⟩ := count_eq_ok hm
    have hd := hs.derives
    rw [hts] at hd
    have := length_of_cons hts
    refine percents_sound hr
      ⟨.postfixed_percent hd hop, ?_, Nat.le_trans hlim (Nat.le_max_right _ _)⟩
    rw [hs.meter, Meter.after_after]
    rfl
termination_by ts.length

mutual

theorem additive_sound {ts : List Lexeme} {m : Meter} {r : Parsed Term ts.length}
    (hr : additive free ts m = .ok r) :
    m.depth < maxNesting ∧ Reads free (255 - m.depth) (.sum r.value) ts m r.rest r.meter ∧
      4 < pull (tokens r.rest) := by
  rw [additive_eq] at hr
  obtain ⟨⟨t, rest, m', h⟩, ht, hr⟩ := Except.bind_eq_ok.mp hr
  obtain ⟨hd, hs, hp⟩ := multiplicative_sound ht
  exact ⟨hd, additiveTail_sound hr hd ⟨.sum_product hs.derives, hs.meter, hs.bound⟩ hp⟩
termination_by 8 * ts.length + 6

theorem additiveTail_sound {n : Nat} {t : Term} {ts₀ ts : List Lexeme} {m₀ m : Meter}
    {h : ts.length < n} {r : Parsed Term n} (hr : additiveTail free n t ts m h = .ok r)
    (hd : m₀.depth < maxNesting) (hs : Reads free (255 - m₀.depth) (.sum t) ts₀ m₀ ts m)
    (hp : 3 < pull (tokens ts)) :
    Reads free (255 - m₀.depth) (.sum r.value) ts₀ m₀ r.rest r.meter ∧
      4 < pull (tokens r.rest) := by
  by_cases h4 : pull (tokens ts) = 4
  · obtain ⟨op, b, -, o, rest, hts, hop, -⟩ := pull_eq_four h4
    rw [additiveTail_step hts hop] at hr
    obtain ⟨m', hm, hr⟩ := Except.bind_eq_ok.mp hr
    obtain ⟨rfl, hlim⟩ := count_eq_ok hm
    obtain ⟨u, hu, hr⟩ := Except.bind_eq_ok.mp hr
    have := length_of_cons hts
    obtain ⟨-, hs', hp'⟩ := multiplicative_sound hu
    have hleft := hs.derives
    rw [hts] at hleft
    have hdepth : (m.after 1).depth = m₀.depth := hs.depth_eq
    rw [hdepth] at hs'
    have := Nat.lt_trans u.shorter (length_of_cons hts)
    refine additiveTail_sound hr hd
      ⟨.sum_binary hop hleft hs'.derives, ?_, hs'.bound_of_count hlim⟩ hp'
    rw [hs'.meter, hs.meter]
    exact m₀.after_binary b t u.value
  · rw [additiveTail_stop h4] at hr
    cases hr
    exact ⟨hs, Nat.lt_of_le_of_ne hp (Ne.symm h4)⟩
termination_by 8 * ts.length

theorem multiplicative_sound {ts : List Lexeme} {m : Meter} {r : Parsed Term ts.length}
    (hr : multiplicative free ts m = .ok r) :
    m.depth < maxNesting ∧ Reads free (255 - m.depth) (.product r.value) ts m r.rest r.meter ∧
      3 < pull (tokens r.rest) := by
  rw [multiplicative_eq] at hr
  obtain ⟨⟨t, rest, m', h⟩, ht, hr⟩ := Except.bind_eq_ok.mp hr
  obtain ⟨hd, hs, hp⟩ := unary_sound ht
  exact ⟨hd, multiplicativeTail_sound hr hd ⟨.product_signed hs.derives, hs.meter, hs.bound⟩ hp⟩
termination_by 8 * ts.length + 5

theorem multiplicativeTail_sound {n : Nat} {t : Term} {ts₀ ts : List Lexeme} {m₀ m : Meter}
    {h : ts.length < n} {r : Parsed Term n} (hr : multiplicativeTail free n t ts m h = .ok r)
    (hd : m₀.depth < maxNesting) (hs : Reads free (255 - m₀.depth) (.product t) ts₀ m₀ ts m)
    (hp : 2 < pull (tokens ts)) :
    Reads free (255 - m₀.depth) (.product r.value) ts₀ m₀ r.rest r.meter ∧
      3 < pull (tokens r.rest) := by
  rcases Nat.lt_or_ge 3 (pull (tokens ts)) with h3 | h3
  · rw [multiplicativeTail_stop h3] at hr
    cases hr
    exact ⟨hs, h3⟩
  · obtain ⟨op, b, o, rest, hts, hop, hrem⟩ := pull_eq_three (Nat.le_antisymm h3 hp)
    rw [multiplicativeTail_step hts hop] at hr
    obtain ⟨m', hm, hr⟩ := Except.bind_eq_ok.mp hr
    obtain ⟨rfl, hlim⟩ := count_eq_ok hm
    obtain ⟨u, hu, hr⟩ := Except.bind_eq_ok.mp hr
    have := length_of_cons hts
    obtain ⟨-, hs', hp'⟩ := unary_sound hu
    have hleft := hs.derives
    rw [hts] at hleft
    have hdepth : (m.after 1).depth = m₀.depth := hs.depth_eq
    rw [hdepth] at hs'
    have := Nat.lt_trans u.shorter (length_of_cons hts)
    refine multiplicativeTail_sound hr hd
      ⟨.product_binary hop hrem hleft hs'.derives, ?_, hs'.bound_of_count hlim⟩ hp'
    rw [hs'.meter, hs.meter]
    exact m₀.after_binary b t u.value
termination_by 8 * ts.length

theorem unary_sound {ts : List Lexeme} {m : Meter} {r : Parsed Term ts.length}
    (hr : unary free ts m = .ok r) :
    m.depth < maxNesting ∧ Reads free (255 - m.depth) (.signed r.value) ts m r.rest r.meter ∧
      2 < pull (tokens r.rest) := by
  rw [unary_eq] at hr
  obtain ⟨m', hm, hr⟩ := Except.bind_eq_ok.mp hr
  obtain ⟨hd, rfl⟩ := enter_eq_ok hm
  obtain ⟨s, hs, hr⟩ := Except.bind_eq_ok.mp hr
  obtain ⟨hs, hp⟩ := signed_sound hs
  cases hr
  refine ⟨hd, ⟨?_, ?_, hs.bound⟩, hp⟩
  · have hk : 256 - (m.depth + 1) = 255 - m.depth := by omega
    exact hk ▸ hs.derives
  · rw [hs.meter]
    rfl
termination_by 8 * ts.length + 4

theorem signed_sound {ts : List Lexeme} {m : Meter} {r : Parsed Term ts.length}
    (hr : signed free ts m = .ok r) :
    Reads free (256 - m.depth) (.signed r.value) ts m r.rest r.meter ∧
      2 < pull (tokens r.rest) := by
  by_cases h4 : pull (tokens ts) = 4
  · obtain ⟨op, -, u, o, rest, hts, -, hop⟩ := pull_eq_four h4
    have := length_of_cons hts
    rw [signed_step hts hop] at hr
    obtain ⟨m', hm, hr⟩ := Except.bind_eq_ok.mp hr
    obtain ⟨rfl, hlim⟩ := count_eq_ok hm
    obtain ⟨a, ha, hr⟩ := Except.bind_eq_ok.mp hr
    obtain ⟨hd, hs, hp⟩ := unary_sound ha
    cases hr
    refine ⟨⟨?_, ?_, hs.bound_of_count hlim⟩, hp⟩
    · have hroom : 256 - m.depth = 255 - m.depth + 1 := room_succ hd
      rw [hroom, congrArg tokens hts]
      exact .signed_sign hop hs.derives
    · rw [hs.meter, Meter.after_after]
      exact congrArg m.after (Nat.add_comm _ _)
  · rw [signed_stop h4] at hr
    obtain ⟨hs, hp⟩ := power_sound hr
    exact ⟨⟨.signed_power hs.derives, hs.meter, hs.bound⟩, hp⟩
termination_by 8 * ts.length + 3

theorem power_sound {ts : List Lexeme} {m : Meter} {r : Parsed Term ts.length}
    (hr : power free ts m = .ok r) :
    Reads free (256 - m.depth) (.power r.value) ts m r.rest r.meter ∧
      2 < pull (tokens r.rest) := by
  cases hb : postfixed free ts m with
  | error e =>
    rw [power, hb] at hr
    cases hr
  | ok b =>
    obtain ⟨hs, hp⟩ := postfixed_sound hb
    by_cases h2 : pull (tokens b.rest) = 2
    · obtain ⟨o, rest, hrest⟩ := pull_eq_two h2
      rw [power_step hb hrest] at hr
      obtain ⟨m'', hm, hr⟩ := Except.bind_eq_ok.mp hr
      obtain ⟨rfl, hlim⟩ := count_eq_ok hm
      obtain ⟨e, he, hr⟩ := Except.bind_eq_ok.mp hr
      have := Nat.lt_trans (length_of_cons hrest) b.shorter
      obtain ⟨hd, hs', hp'⟩ := unary_sound he
      have hdepth : (b.meter.after 1).depth = m.depth := hs.depth_eq
      rw [hdepth] at hd hs'
      cases hr
      refine ⟨⟨?_, ?_, hs'.bound_of_count hlim⟩, hp'⟩
      · have hbase := hs.derives
        rw [room_succ hd, hrest] at hbase
        rw [room_succ hd]
        exact .power_raised hbase hs'.derives
      · rw [hs'.meter, hs.meter]
        exact m.after_binary .power b.value e.value
    · rw [power_stop hb h2] at hr
      cases hr
      exact ⟨⟨.power_postfixed hs.derives, hs.meter, hs.bound⟩,
        Nat.lt_of_le_of_ne hp (Ne.symm h2)⟩
termination_by 8 * ts.length + 2

theorem postfixed_sound {ts : List Lexeme} {m : Meter} {r : Parsed Term ts.length}
    (hr : postfixed free ts m = .ok r) :
    Reads free (256 - m.depth) (.postfixed r.value) ts m r.rest r.meter ∧
      1 < pull (tokens r.rest) := by
  rw [postfixed_eq] at hr
  obtain ⟨⟨t, rest, m', h⟩, ht, hr⟩ := Except.bind_eq_ok.mp hr
  have hs := primary_sound ht
  exact percents_sound hr ⟨.postfixed_primary hs.derives, hs.meter, hs.bound⟩
termination_by 8 * ts.length + 1

theorem primary_sound {ts : List Lexeme} {m : Meter} {r : Parsed Term ts.length}
    (hr : primary free ts m = .ok r) :
    Reads free (256 - m.depth) (.primary r.value) ts m r.rest r.meter := by
  match ts, r, hr with
  | [], _, hr =>
    rw [primary] at hr
    cases hr
  | ⟨.number x, o⟩ :: rest, _, hr =>
    rw [primary_number rfl] at hr
    cases hr
    exact ⟨.number, rfl, Nat.le_max_left _ _⟩
  | ⟨.openParen, o⟩ :: rest, _, hr =>
    rw [primary_group rfl] at hr
    obtain ⟨t, ht, hr⟩ := Except.bind_eq_ok.mp hr
    obtain ⟨rest', hc, hr⟩ := Except.bind_eq_ok.mp hr
    obtain ⟨hd, hs, -⟩ := additive_sound ht
    obtain ⟨o', hrest⟩ := closing_eq_ok hc
    cases hr
    refine ⟨?_, hs.meter, hs.bound⟩
    have hinner := hs.derives
    rw [hrest] at hinner
    rw [room_succ hd]
    exact .group hinner
  | ⟨.name name, o⟩ :: rest, r, hr =>
    have hspec := meaning_spec free name
    rcases hm : meaning free name with _ | x | f | _
    · rw [hm] at hspec
      rw [primary_variable rfl hm] at hr
      cases hr
      exact ⟨.bound hspec, rfl, Nat.le_max_left _ _⟩
    · rw [hm] at hspec
      rw [primary_constant rfl hm] at hr
      cases hr
      exact ⟨.constant hspec.1 hspec.2, rfl, Nat.le_max_left _ _⟩
    · rw [hm] at hspec
      rw [primary_function rfl hm] at hr
      obtain ⟨a, ha, hr⟩ := Except.bind_eq_ok.mp hr
      split at hr
      · rename_i harity
        cases hr
        exact call_sound ha hspec.1 hspec.2.1 hspec.2.2 harity
      · cases hr
    · rw [primary_unknown rfl hm] at hr
      cases hr
  | ⟨.operator _, _⟩ :: _, _, hr | ⟨.closeParen, _⟩ :: _, _, hr | ⟨.comma, _⟩ :: _, _, hr =>
    rw [primary_stop rfl] at hr
    cases hr
termination_by 8 * ts.length

theorem call_sound {name : String} {f : Function} {o : Nat} {ts : List Lexeme} {m : Meter}
    {r : Parsed (List Term) ts.length} (hr : call free name ts m = .ok r)
    (hfree : free ≠ some name) (hconst : constant? name = none)
    (hfun : Function.ofName? name = some f) (harity : r.value.length = f.arity) :
    Reads free (256 - m.depth) (.primary (.call name r.value)) (⟨.name name, o⟩ :: ts) m r.rest
      r.meter := by
  by_cases hopen : ∃ o rest, ts = ⟨.openParen, o⟩ :: rest
  · obtain ⟨o', rest, rfl⟩ := hopen
    rw [call_step rfl] at hr
    obtain ⟨m', hm, hr⟩ := Except.bind_eq_ok.mp hr
    obtain ⟨rfl, hlim⟩ := count_eq_ok hm
    obtain ⟨a, ha, hr⟩ := Except.bind_eq_ok.mp hr
    obtain ⟨rest', hc, hr⟩ := Except.bind_eq_ok.mp hr
    obtain ⟨hd, hs⟩ := arguments_sound ha
    obtain ⟨o'', hrest⟩ := closing_eq_ok hc
    cases hr
    have hne : a.value ≠ [] := by
      intro he
      rw [he] at harity
      exact absurd harity (Nat.ne_of_lt f.arity_pos)
    refine ⟨?_, ?_, hs.bound_of_count hlim⟩
    · have hroom : 256 - m.depth = 255 - m.depth + 1 := room_succ (hd hne)
      have hinner := hs.derives
      rw [hrest] at hinner
      rw [hroom]
      exact .call hfree hconst hfun harity hinner
    · rw [hs.meter, Meter.after_after]
      exact congrArg m.after (Nat.add_comm _ _)
  · rw [call_stop fun o rest e => hopen ⟨o, rest, e⟩] at hr
    cases hr
termination_by 8 * ts.length

theorem arguments_sound {n : Nat} {ts : List Lexeme} {m : Meter} {h : ts.length < n}
    {r : Parsed (List Term) n} (hr : arguments free n ts m h = .ok r) :
    (r.value ≠ [] → m.depth < maxNesting) ∧
      Reads free (255 - m.depth) (.arguments r.value) ts m r.rest r.meter := by
  by_cases hclose : ∃ o rest, ts = ⟨.closeParen, o⟩ :: rest
  · obtain ⟨o, rest, hts⟩ := hclose
    rw [arguments_stop hts] at hr
    cases hr
    exact ⟨fun hne => absurd rfl hne, .arguments_none, rfl, Nat.le_max_left _ _⟩
  · rw [arguments_step fun o rest e => hclose ⟨o, rest, e⟩] at hr
    obtain ⟨a, ha, hr⟩ := Except.bind_eq_ok.mp hr
    obtain ⟨as, has, hr⟩ := Except.bind_eq_ok.mp hr
    obtain ⟨hd, hs, -⟩ := additive_sound ha
    have := a.shorter
    have hs' := moreArguments_sound has (by rw [hs.depth_eq]; exact hd)
    rw [hs.depth_eq] at hs'
    cases hr
    refine ⟨fun _ => hd, .arguments_some hs.derives hs'.derives, ?_,
      hs.bound_trans hs'⟩
    rw [hs'.meter, hs.meter, Meter.after_after]
    rfl
termination_by 8 * ts.length + 7

theorem moreArguments_sound {n : Nat} {ts : List Lexeme} {m : Meter} {h : ts.length < n}
    {r : Parsed (List Term) n} (hr : moreArguments free n ts m h = .ok r)
    (hd : m.depth < maxNesting) :
    Reads free (255 - m.depth) (.furtherArguments r.value) ts m r.rest r.meter := by
  by_cases hcomma : ∃ o rest, ts = ⟨.comma, o⟩ :: rest
  · obtain ⟨o, rest, hts⟩ := hcomma
    rw [moreArguments_step hts] at hr
    obtain ⟨a, ha, hr⟩ := Except.bind_eq_ok.mp hr
    obtain ⟨as, has, hr⟩ := Except.bind_eq_ok.mp hr
    have := length_of_cons hts
    obtain ⟨-, hs, -⟩ := additive_sound ha
    have := a.shorter
    have hs' := moreArguments_sound has (by rw [hs.depth_eq]; exact hd)
    rw [hs.depth_eq] at hs'
    cases hr
    refine ⟨?_, ?_, hs.bound_trans hs'⟩
    · rw [congrArg tokens hts]
      exact .further_some hs.derives hs'.derives
    · rw [hs'.meter, hs.meter, Meter.after_after]
      rfl
  · rw [moreArguments_stop fun o rest e => hcomma ⟨o, rest, e⟩] at hr
    cases hr
    exact ⟨.further_none, rfl, Nat.le_max_left _ _⟩
termination_by 8 * ts.length

end

end Abacus.Term.Parser
