import Abacus.Entry
import Abacus.Proofs.Grammar.Comparison
import Abacus.Proofs.Token.Insertion

/-!
# The value at a number is the value with the number written in

An expression in `x` has the same value at a number as the text in which the digits of the number
stand for `x`. The two texts have the same tokens up to the number, these are read as the same term
up to the number, and the number in the term is the number bound to `x`.

Each of the three steps has a module: the text in `Proofs/Token/Insertion`, the reading in
`Proofs/Grammar/Comparison`, the value in `Proofs/Term/Substitution`.

* `inserted`: the text with the number written in. Only a whole name `x` is replaced, and the digits
  stand between spaces, so `max` keeps its letters and no digit runs into another.
* `Term.Error.SameCause`: two errors of one kind. Places and names in them may differ, since the new
  text is longer and has no `x` in it.
* `evaluateAt_iff_evaluate_inserted`: the two have the same value, or fail for the same cause.

The number is finite and has no minus sign, the negative zero included: a sign would bind less tight
than a power, so `x ^ 2` at `-1` is not `-1 ^ 2`.
-/

namespace Abacus

open Term.Parser

/-- The text with the digits of a number, between spaces, in the place of each `x`. -/
def inserted (text : String) (x : Float) : String :=
  String.ofList (Token.replaceName abscissa (plain.write x) text.toList)

/-- The errors say the same, of whatever place and name. -/
def Term.Error.SameCause (e e' : Term.Error) : Prop := e.ctorIdx = e'.ctorIdx

variable {text : String} {lexemes : List Lexeme} {x : Float}

/-- The number stands in for `x`, and the tokens may stand anywhere. -/
def numberForAbscissa (x : Float) : StandIn := ⟨abscissa, some x, fun _ _ => True, nofun⟩

theorem corresponds_of_stands {s s' : Lexeme} (h : Token.Stands abscissa x s s') :
    (numberForAbscissa x).Corresponds s s' := by
  refine ⟨?_, trivial⟩
  obtain ⟨t, o⟩ := s
  rw [h]
  cases t with
  | name s =>
    unfold StandIn.token numberForAbscissa
    by_cases hs : s = abscissa
    · subst hs
      rfl
    · rw [if_neg fun h => hs (Token.name.inj h)]
      exact (if_neg hs).symm
  | number | operator | openParen | closeParen | comma => exact if_neg nofun

theorem sameCause_of_refuses {u : StandIn} {e e' : Term.Error} (h : u.Refuses e e') :
    e.SameCause e' := by
  cases h <;> rfl

/-- The text with the number in it has the same value, or both fail for the same cause. -/
theorem evaluate_inserted (hscan : Token.scan .scientific text = .ok lexemes)
    (hfin : x.isFinite = true) (hx : Double.Unsigned x) :
    evaluate (inserted text x) = evaluateAt text x ∨
      ∃ e e', evaluateAt text x = .error e ∧ evaluate (inserted text x) = .error e' ∧
        e.SameCause e' := by
  obtain ⟨lexemes', hscan', hall⟩ := Token.scan_replaceName hscan hfin hx
  have hagree := StandIn.ofLexemes_agrees (hall.imp fun s s' => corresponds_of_stands)
  have hold : Term.parse (.inVariable abscissa) text = Term.ofLexemes (some abscissa) lexemes :=
    Except.bind_of_ok hscan _
  have hnew : Term.parse .scientific (inserted text x) = Term.ofLexemes none lexemes' :=
    Except.bind_of_ok hscan' _
  rw [evaluateAt, evaluate, hold, hnew]
  change (numberForAbscissa x).Agrees _ (Term.ofLexemes (some abscissa) lexemes) _ at hagree
  generalize Term.ofLexemes (some abscissa) lexemes = r, Term.ofLexemes none lexemes' = r'
    at hagree ⊢
  cases hagree with
  | @ok t t' ht =>
    obtain rfl : t' = t.assign abscissa x := ht
    exact .inl (Term.evaluate_assign abscissa x t)
  | error he => exact .inr ⟨_, _, rfl, rfl, sameCause_of_refuses he⟩
  | unbound hnone => cases hnone

/-- **The value at a number is the value with the number written in**: for a text that is cut into
tokens and a finite number without a minus sign, the two have the same value, NaN included, or fail
for the same cause. -/
theorem evaluateAt_iff_evaluate_inserted (hscan : Token.scan .scientific text = .ok lexemes)
    (hfin : x.isFinite = true) (hx : Double.Unsigned x) :
    (∀ y, evaluateAt text x = .ok y ↔ evaluate (inserted text x) = .ok y) ∧
      ∀ e, evaluateAt text x = .error e →
        ∃ e', evaluate (inserted text x) = .error e' ∧ e.SameCause e' := by
  rcases evaluate_inserted hscan hfin hx with heq | ⟨e, e', hold, hnew, hsame⟩
  · rw [heq]
    exact ⟨fun y => Iff.rfl, fun e he => ⟨e, he, rfl⟩⟩
  · rw [hold, hnew]
    refine ⟨fun y => ⟨nofun, nofun⟩, fun e he => ?_⟩
    cases he
    exact ⟨e', rfl, hsame⟩

/-- The sign in front of the number takes the remainder, as the sign in front of `x` does. -/
theorem evaluateAt_iff_evaluate_inserted_remainder :
    inserted "5%x%x" (Decimal.toFloat ⟨25, -1⟩) = "5% 2.5 % 2.5 " ∧
      ∃ y, evaluateAt "5%x%x" (Decimal.toFloat ⟨25, -1⟩) = .ok y ∧
        evaluate "5% 2.5 % 2.5 " = .ok y := by
  have hscan : Token.scan .scientific "5%x%x" = .ok
      [⟨.number (Decimal.toFloat ⟨5, 0⟩), 0⟩, ⟨.operator .percent, 1⟩, ⟨.name "x", 2⟩,
        ⟨.operator .percent, 3⟩, ⟨.name "x", 4⟩] := by
    with_unfolding_all rfl
  have hread : Term.parse (.inVariable abscissa) "5%x%x" = .ok (.binary .remainder
      (.binary .remainder (.literal (Decimal.toFloat ⟨5, 0⟩)) (.variable "x"))
      (.variable "x")) := by
    with_unfolding_all rfl
  have htext : inserted "5%x%x" (Decimal.toFloat ⟨25, -1⟩) = "5% 2.5 % 2.5 " := by
    with_unfolding_all rfl
  have hvalue : ∃ y, evaluateAt "5%x%x" (Decimal.toFloat ⟨25, -1⟩) = .ok y :=
    ⟨_, Except.bind_of_ok hread _⟩
  obtain ⟨y, hy⟩ := hvalue
  obtain ⟨hsame, -⟩ := evaluateAt_iff_evaluate_inserted hscan
    (by decide +kernel : (Decimal.toFloat ⟨25, -1⟩).isFinite = true)
    (Decimal.toFloat_rounds _).unsigned
  rw [htext] at hsame
  exact ⟨htext, y, hy, (hsame y).mp hy⟩

end Abacus
