import Abacus.Proofs.Grammar.Comparison
import Abacus.Proofs.Term.Faults

/-!
# A variable does no harm

The same text read in two dialects, without a variable and with one. An expression that is read
without a variable is read with one, as the same term. What a variable adds is the reading of its
own name: without the variable that name has no meaning, and it is the only thing that can be
refused for that reason.

The variable wins over constants and functions of the same name, so all this holds only of a name
that has no other meaning. Any other string will do, also one that is no name at all.

* `hasVariable_of_parse`: a term read without a variable has none.
* `Derives.unbind`: where no variable occurs, none is needed. This direction goes along derivations.
* `parse_none_eq`: the other direction follows both readings step by step, with the comparison of
  `Proofs/Grammar/Comparison`.
* `parse_conservative`: the two readings decide each other, for every alphabet and every text.

What is refused with the variable is refused without it, but perhaps for the name of the variable,
which may come first.
-/

namespace Abacus.Term

open Grammar Abacus.Term.Parser

variable {name text : String} {t : Term} {d : Dialect}

/-- Where nothing is bound, no variable is read. -/
theorem hasVariable_of_parse (h : parse d text = .ok t) (hfree : d.free = none) :
    t.hasVariable = false := by
  by_contra hv
  obtain ⟨s, hs⟩ := (hasVariable_iff t).mp (Bool.eq_true_of_not_eq_false hv)
  cases (expressible_of_parse h).1.of_mem_nodes hs with
  | bound hbound =>
    rw [hfree] at hbound
    cases hbound

theorem hasVariables_eq_false {ts : List Term} :
    hasVariables ts = false ↔ ∀ t ∈ ts, t.hasVariable = false := by
  induction ts with
  | nil => simp [hasVariables]
  | cons t ts ih => simp [hasVariables, ih]

/-- **Where no variable occurs, none is needed**: the same rules derive the same phrase. -/
theorem Grammar.Derives.unbind {free : Option String} {n : Nat} {p : Phrase}
    {ts rest : List Token} (h : Derives free n p ts rest)
    (hp : p.Holds fun t => t.hasVariable = false) : Derives none n p ts rest := by
  induction h with
  | sum_product _ ih => exact .sum_product (ih hp)
  | sum_binary hop _ _ ihl ihr =>
    obtain ⟨hl, hr⟩ := Bool.or_eq_false_iff.mp hp
    exact .sum_binary hop (ihl hl) (ihr hr)
  | product_signed _ ih => exact .product_signed (ih hp)
  | product_binary hop hrem _ _ ihl ihr =>
    obtain ⟨hl, hr⟩ := Bool.or_eq_false_iff.mp hp
    exact .product_binary hop hrem (ihl hl) (ihr hr)
  | signed_sign hop _ ih => exact .signed_sign hop (ih hp)
  | signed_power _ ih => exact .signed_power (ih hp)
  | power_postfixed _ ih => exact .power_postfixed (ih hp)
  | power_raised _ _ ihb ihe =>
    obtain ⟨hb, he⟩ := Bool.or_eq_false_iff.mp hp
    exact .power_raised (ihb hb) (ihe he)
  | postfixed_primary _ ih => exact .postfixed_primary (ih hp)
  | postfixed_percent _ hnext ih => exact .postfixed_percent (ih hp) hnext
  | number => exact .number
  | group _ ih => exact .group (ih hp)
  | bound => cases hp
  | constant _ hconst => exact .constant nofun hconst
  | call _ hconst hfun harity _ ih =>
    exact .call nofun hconst hfun harity (ih (hasVariables_eq_false.mp hp))
  | arguments_none => exact .arguments_none
  | arguments_some _ _ ihf iho =>
    obtain ⟨hf, ho⟩ := List.forall_mem_cons.mp hp
    exact .arguments_some (ihf hf) (iho ho)
  | further_none => exact .further_none
  | further_some _ _ ihn iho =>
    obtain ⟨hn, ho⟩ := List.forall_mem_cons.mp hp
    exact .further_some (ihn hn) (iho ho)

/-- A term without a variable is read without a variable. -/
theorem ofLexemes_unbind {ts : List Lexeme} (h : ofLexemes (some name) ts = .ok t)
    (hv : t.hasVariable = false) : ofLexemes none ts = .ok t := by
  by_cases hne : ts = []
  · subst hne
    exact h
  · obtain ⟨hd, hops⟩ := derives_of_ofLexemes hne h
    rcases ofLexemes_of_derives (hd.unbind hv) hops with hok | ⟨-, hdeep⟩
    · exact hok
    · exact absurd hdeep (Nat.lt_irrefl 255)

/-- A text is cut into the same tokens with and without the variable. -/
theorem parse_none_eq (h : meaning none name = .unknown) (a : Alphabet) (text : String) :
    parse ⟨a, none⟩ text = parse ⟨a, some name⟩ text ∨
      parse ⟨a, none⟩ text = .error (.unknownName name) := by
  cases hscan : Token.scan a text with
  | error e => exact .inl (by rw [parse, parse, hscan]; rfl)
  | ok ts =>
    rw [parse, parse, Except.bind_of_ok hscan, Except.bind_of_ok hscan]
    exact ofLexemes_none_eq h ts

/-- What is read without the variable is read with it. -/
theorem parse_bind {a : Alphabet} (hm : meaning none name = .unknown)
    (h : parse ⟨a, none⟩ text = .ok t) : parse ⟨a, some name⟩ text = .ok t := by
  rcases parse_none_eq hm a text with h' | h'
  · rw [← h', h]
  · rw [h] at h'
    cases h'

/-- A term without a variable is read without a variable. -/
theorem parse_unbind {a : Alphabet} (h : parse ⟨a, some name⟩ text = .ok t)
    (hv : t.hasVariable = false) : parse ⟨a, none⟩ text = .ok t := by
  obtain ⟨ts, hscan, h⟩ := Except.bind_eq_ok.mp h
  exact (Except.bind_of_ok hscan _).trans (ofLexemes_unbind h hv)

/-- A value found with nothing bound is the value at every number. -/
theorem evaluateAt_of_evaluate {w : Float} (h : Abacus.evaluate text = .ok w) (x : Float) :
    evaluateAt text x = .ok w := by
  obtain ⟨t, ht, hw⟩ := Except.bind_eq_ok.mp h
  have hx : meaning none abscissa = .unknown := rfl
  have hsame := evaluate_congr (hasVariable_of_parse ht rfl) (some (abscissa, x)) none
  exact (Except.bind_of_ok (parse_bind hx ht) _).trans (hsame.trans hw)

theorem meaning_unknown (hconst : constant? name = none) (hfun : Function.ofName? name = none) :
    meaning none name = .unknown := by
  unfold meaning
  rw [if_neg nofun, hconst, hfun]

/-- **A variable does no harm.** Its name must not be the name of a constant or of a function. What
is read without it is read with it, as the same term; a term without the variable is read without
it; a term with the variable is refused for its name without it; and what is refused with it is
refused without it, for the same reason or for its name. So a value found with nothing bound is the
value at every number. -/
theorem parse_conservative (a : Alphabet) (text name : String)
    (hconst : constant? name = none) (hfun : Function.ofName? name = none) :
    (∀ t, parse ⟨a, none⟩ text = .ok t →
      parse ⟨a, some name⟩ text = .ok t ∧ t.hasVariable = false) ∧
    (∀ t, parse ⟨a, some name⟩ text = .ok t → t.hasVariable = false →
      parse ⟨a, none⟩ text = .ok t) ∧
    (∀ t, parse ⟨a, some name⟩ text = .ok t → t.hasVariable = true →
      parse ⟨a, none⟩ text = .error (.unknownName name)) ∧
    (∀ e, parse ⟨a, some name⟩ text = .error e →
      parse ⟨a, none⟩ text = .error e ∨ parse ⟨a, none⟩ text = .error (.unknownName name)) ∧
    ∀ w, Abacus.evaluate text = .ok w → ∀ x, evaluateAt text x = .ok w := by
  have hm := meaning_unknown hconst hfun
  refine ⟨fun t h => ⟨parse_bind hm h, hasVariable_of_parse h rfl⟩, fun t => parse_unbind,
    fun t h hv => ?_, fun e h => ?_, fun w => evaluateAt_of_evaluate⟩
  · rcases parse_none_eq hm a text with heq | hname
    · rw [hasVariable_of_parse (heq.trans h) rfl] at hv
      cases hv
    · exact hname
  · rw [← h]
    exact (parse_none_eq hm a text).imp_right id

/-- The exponent is the variable in percent; without the variable nothing else is wrong. -/
theorem parse_conservative_percent :
    ∃ t, parse (.inVariable "t") "2^t%" = .ok t ∧ t.hasVariable = true ∧
      parse .scientific "2^t%" = .error (.unknownName "t") := by
  have hread : parse (.inVariable "t") "2^t%" = .ok (.binary .power
      (.literal (Decimal.toFloat ⟨2, 0⟩)) (.unary .percent (.variable "t"))) := by
    with_unfolding_all rfl
  obtain ⟨-, -, hvariable, -, -⟩ := parse_conservative .scientific "2^t%" "t" rfl rfl
  exact ⟨_, hread, rfl, hvariable _ hread rfl⟩

end Abacus.Term
