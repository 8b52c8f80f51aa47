import Abacus.Proofs.Grammar.Completeness
import Abacus.Proofs.Grammar.Soundness

/-!
# Reading is exactly the grammar

Where a text has tokens at all, it is read as a term iff its tokens derive the term
(`Grammar.Derives`), with no operand inside more than 255 enclosing constructs and with at most 2048
operators and calls in the term. The outermost operand itself counts as one level of the reader's
256, and an exponent is a construct like a group or a sign.

One direction is that what a reader reads derives (`Proofs/Grammar/Soundness`), the other that a
reader follows every derivation (`Proofs/Grammar/Completeness`). What is left for this module is the
end of the text: the reader of a sum may stop in front of more tokens, which a whole text may not.

A text of blank characters has no tokens. It is read as zero, and derives nothing.

Results:
* `ofLexemes_of_derives`: derived tokens are read as their term or refused for their nesting.
* `derives_of_ofLexemes`: what is read derives, within the limits.
* `parse_eq_ok_iff`: the two together, over texts.
* `parse_percent_minus_power`: both percent signs, a sign, a power and the variable in one text.

That a text has at most one term follows, for the reader is a function. Errors are the business of
`Proofs/Grammar/Limits` and `Proofs/Grammar/Blame`.
-/

namespace Abacus.Term

open Grammar Abacus.Term.Parser

variable {free : Option String} {ts : List Lexeme} {t : Term}

/-- The tokens of a whole text are read to the end or not at all. -/
theorem ofLexemes_eq_ok (hne : ts ≠ []) :
    ofLexemes free ts = .ok t ↔ ∃ m h, additive free ts ⟨0, 0⟩ = .ok ⟨t, [], m, h⟩ := by
  rw [ofLexemes]
  · constructor
    · intro h
      obtain ⟨⟨t', rest, m, hlt⟩, hr, h⟩ := Except.bind_eq_ok.mp h
      match rest, hlt, hr, h with
      | [], hlt, hr, h =>
        cases h
        exact ⟨m, hlt, hr⟩
      | ⟨.closeParen, _⟩ :: _, _, _, h | ⟨.number _, _⟩ :: _, _, _, h
      | ⟨.name _, _⟩ :: _, _, _, h | ⟨.operator _, _⟩ :: _, _, _, h
      | ⟨.openParen, _⟩ :: _, _, _, h | ⟨.comma, _⟩ :: _, _, _, h => cases h
    · rintro ⟨m, h, hr⟩
      exact Except.bind_of_ok hr _
  · exact fun h => hne h

/-- **Derived tokens are read as their term or refused for their nesting**, and refused only where
some operand lies inside more than 255 constructs. -/
theorem ofLexemes_of_derives {n : Nat} (hd : Derives free n (.sum t) (tokens ts) [])
    (hops : t.operations ≤ maxOperations) :
    ofLexemes free ts = .ok t ∨
      ofLexemes free ts = .error (.nestingTooDeep maxNesting) ∧ 255 < n := by
  have hne : ts ≠ [] := by
    rintro rfl
    obtain ⟨s, others, h, -⟩ := hd.begins
    cases h
  rcases (follows_of_derives hd).sum_reaches (m := ⟨0, 0⟩) rfl (Nat.lt_succ_self 4)
    (by rw [Nat.zero_add]; exact hops) with ⟨ys, h, hr, hy⟩ | ⟨hr, hdeep⟩
  · obtain rfl := List.map_eq_nil_iff.mp hy
    exact .inl ((ofLexemes_eq_ok hne).mpr ⟨_, h, hr⟩)
  · refine .inr ⟨?_, by rwa [Nat.zero_add] at hdeep⟩
    rw [ofLexemes]
    · exact hr.bind _
    · exact fun h => hne h

/-- What is read derives, within the limits. -/
theorem derives_of_ofLexemes (hne : ts ≠ []) (h : ofLexemes free ts = .ok t) :
    Derives free 255 (.sum t) (tokens ts) [] ∧ t.operations ≤ maxOperations := by
  obtain ⟨m, hlt, hr⟩ := (ofLexemes_eq_ok hne).mp h
  obtain ⟨-, hs, -⟩ := additive_sound hr
  refine ⟨hs.derives, ?_⟩
  have hl := hs.limit (Nat.zero_le _)
  rw [hs.meter, Meter.after_operations, Nat.zero_add] at hl
  exact hl

/-- **Reading is exactly the grammar**: where a text has tokens at all, it is read as a term iff
the whole of them derives the term with no operand inside more than 255 enclosing constructs, and
the term has at most 2048 operators and calls. -/
theorem parse_eq_ok_iff {d : Dialect} {text : String} (hscan : Token.scan d.alphabet text = .ok ts)
    (hne : ts ≠ []) (t : Term) :
    parse d text = .ok t ↔
      Derives d.free 255 (.sum t) (tokens ts) [] ∧ t.operations ≤ 2048 := by
  rw [parse, Except.bind_of_ok hscan]
  constructor
  · exact derives_of_ofLexemes hne
  · rintro ⟨hd, hops⟩
    rcases ofLexemes_of_derives hd hops with h | ⟨-, hdeep⟩
    · exact h
    · exact absurd hdeep (Nat.lt_irrefl 255)

/-- The percent sign before a sign in front divides by a hundred, and an exponent takes its own sign
and its own percent sign. -/
theorem parse_percent_minus_power :
    ∃ ts, Token.scan .scientific "7%-x^-3%" = .ok ts ∧ ts ≠ [] ∧
      parse (.inVariable "x") "7%-x^-3%" = .ok
        (.binary .subtract (.unary .percent (.literal (Decimal.toFloat ⟨7, 0⟩)))
          (.binary .power (.variable "x")
            (.unary .negate (.unary .percent (.literal (Decimal.toFloat ⟨3, 0⟩)))))) := by
  have hscan : Token.scan .scientific "7%-x^-3%" = .ok
      [⟨.number (Decimal.toFloat ⟨7, 0⟩), 0⟩, ⟨.operator .percent, 1⟩, ⟨.operator .minus, 2⟩,
        ⟨.name "x", 3⟩, ⟨.operator .caret, 4⟩, ⟨.operator .minus, 5⟩,
        ⟨.number (Decimal.toFloat ⟨3, 0⟩), 6⟩, ⟨.operator .percent, 7⟩] := by
    with_unfolding_all rfl
  have hpercent {x n rest} (h : operandNext rest = false) :
      Derives (some "x") n (.power (.unary .percent (.literal x)))
        (.number x :: .operator .percent :: rest) rest :=
    .power_postfixed (.postfixed_percent (.postfixed_primary .number) h)
  refine ⟨_, hscan, List.cons_ne_nil _ _,
    (parse_eq_ok_iff (d := .inVariable "x") hscan (List.cons_ne_nil _ _) _).mpr ⟨?_, by decide⟩⟩
  refine .sum_binary rfl (.sum_product (.product_signed (.signed_power (hpercent rfl)))) ?_
  refine .product_signed (.signed_power (.power_raised (.postfixed_primary (.bound rfl)) ?_))
  exact .signed_sign rfl (.signed_power (hpercent rfl))

end Abacus.Term
