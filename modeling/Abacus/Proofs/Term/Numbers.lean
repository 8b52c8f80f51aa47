import Abacus.Proofs.Decimal.Layouts
import Abacus.Proofs.Term.RoundTrip
import Abacus.Term.Evaluation

/-!
# A number is an expression

The plain form of a finite double can be entered in every alphabet and in every dialect. It is a
single token for a double without sign. A negative double is read as an operation on its magnitude,
and comes to the same double, the negative zero included.

* `exists_derives_plain`: the tokens of the plain form, and the term they derive.
* `Term.exists_parse_plain`: the plain form is read as a term whose value is the double.

So whatever is printed as the value of an expression is an expression with this value. NaN and the
infinities are printed by names that no expression knows.
-/

namespace Abacus

open Double

variable {x : Float}

/-- What is written does not begin blank. -/
theorem exists_plain_write (hfin : x.isFinite = true) :
    ∃ c cs, plain.write x = c :: cs ∧ isBlank c = false := by
  obtain ⟨c, cs, hwrite⟩ := List.exists_cons_of_ne_nil (plain.write_ne_nil hfin)
  have hmem : c ∈ plain.write x := hwrite ▸ List.mem_cons_self
  exact ⟨c, cs, hwrite, Token.not_isBlank_of_numeralChar (plain.numeralChar_write hfin hmem)⟩

namespace Term

/-- The tokens of the plain form derive a term whose value is the double. -/
theorem exists_derives_plain (a : Alphabet) (free : Option String) (hfin : x.isFinite = true) :
    ∃ t ts, Token.Scans a (plain.write x) ts ∧ Grammar.Derives free 1 (.sum t) ts [] ∧
      t.operations ≤ 1 ∧ ∀ b, t.evaluate b = .ok x := by
  obtain ⟨v, hv⟩ := exists_exact hfin
  obtain ⟨sign, m, e, hc, he, rfl⟩ := exists_ofPoint hv
  have hscans := Token.Scans.number (a := a) (isFinite_ofPoint .positive hc he)
    (unsigned_ofPoint hc he)
  cases sign with
  | positive =>
    exact ⟨.literal _, _, hscans, Grammar.Derives.number.sum_of_primary, Nat.zero_le 1,
      fun _ => by rw [evaluate]⟩
  | negative =>
    have hminus : a.admits '-' = true := Token.admits_of_mem_keypadSigns (by decide)
    rw [plain.write_negative hc he]
    refine ⟨.unary .negate (.literal (ofPoint .positive m e)), _, hscans.sign hminus rfl,
      .sum_product (.product_signed (.signed_sign rfl Grammar.Derives.number.signed_of_primary)),
      Nat.le_refl 1, fun _ => ?_⟩
    rw [evaluate, evaluate]
    exact congrArg Except.ok (neg_ofPoint .positive hc he)

/-- **A finite double in its plain form is an expression** in every alphabet, whose value is the
double. -/
theorem exists_parse_plain (d : Dialect) (hfin : x.isFinite = true) :
    d.alphabet.permits (plain.write x) = true ∧
      ∃ t, parse d (plain.text x) = .ok t ∧ ∀ b, t.evaluate b = .ok x := by
  obtain ⟨t, ts, hscans, hd, hops, hvalue⟩ := exists_derives_plain d.alphabet d.free hfin
  refine ⟨List.all_eq_true.mpr hscans.admitted, t, ?_, hvalue⟩
  obtain ⟨lexemes, rfl, hscan⟩ := Token.scan_of_scans hscans
  rw [parse]
  refine (Except.bind_of_ok hscan _).trans ?_
  rcases ofLexemes_of_derives hd (hops.trans (by decide)) with h | ⟨-, hdeep⟩
  · exact h
  · exact absurd hdeep (by decide)

end Term

end Abacus
