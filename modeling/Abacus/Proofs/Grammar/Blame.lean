import Abacus.Proofs.Grammar.Fault
import Abacus.Proofs.Grammar.Limits

/-!
# What an error of the grammar points at

A text is refused at its first token that cannot stand where it stands: what is before the token can
be continued to a sentence, and with the token it cannot. At the end of the text it is refused only
if something is still due. An offset given for unbalanced parentheses is that of a parenthesis
without a partner, and which one of them is known.

* `Stands`: the token at an offset of a text, and the tokens around it. Offsets increase along a
  text, so no other token stands there.
* `Sentence` and `Viable` (`Proofs/Grammar/Sentence`) are about the form of an expression. An error
  that names a token is not excused by a limit or by a number of arguments.
* `unmatched` (`Proofs/Grammar/Parentheses`) is over the whole text, also behind the parenthesis an
  error points at.

Results:
* `sentence_of_ofLexemes`, `ofLexemes_of_sentence`: what is read is a sentence, and a sentence is
  read unless there is too much of something in it.
* `parse_blame`: the token that an error names, and the tokens before it. At the end, that more
  would make the whole text a sentence, and that it is none yet.
* `parse_unbalanced`: the parenthesis that an error points at. It is the first closing one without a
  partner, or the innermost one open at the end of a text in which every closing one has its own.

Out of scope: unknown names and missing arguments, whose errors name no offset, and the errors of
the limits (`Proofs/Grammar/Limits`).
-/

namespace Abacus.Term

open Grammar Abacus.Term.Parser

/-- The text is cut into tokens, and one of them stands at the offset, behind some and before
others. -/
structure Stands (d : Dialect) (text : String) (t : Token) (offset : Nat)
    (before after : List Lexeme) : Prop where
  scan : Token.scan d.alphabet text = .ok (before ++ ⟨t, offset⟩ :: after)
  before : ∀ l ∈ before, l.offset < offset
  after : ∀ l ∈ after, offset < l.offset

variable {d : Dialect} {free : Option String} {text : String} {t : Token} {offset : Nat}
  {ts before after : List Lexeme}

/-- Offsets increase, so one token stands at each. -/
theorem Stands.of_scan (h : Token.scan d.alphabet text = .ok (before ++ ⟨t, offset⟩ :: after)) :
    Stands d text t offset before after := by
  have hscan := h
  unfold Token.scan at h
  split at h
  · have hincreasing := (Token.splits_of_scanFrom h).increasing.2
    rw [List.map_append, List.map_cons, List.pairwise_append] at hincreasing
    obtain ⟨-, htail, hacross⟩ := hincreasing
    refine ⟨hscan, fun l hl => ?_, fun l hl => ?_⟩
    · exact hacross _ (List.mem_map_of_mem hl) _ (List.mem_cons_self ..)
    · exact List.rel_of_pairwise_cons htail (List.mem_map_of_mem hl)
  · cases h

/-! ## Sentences and the reader -/

/-- What is read is a sentence. -/
theorem sentence_of_ofLexemes {u : Term} (hne : ts ≠ []) (h : ofLexemes free ts = .ok u) :
    Sentence free (tokens ts) := by
  obtain ⟨c, hc, hforms⟩ := (derives_of_ofLexemes hne h).1.forms
  rw [List.append_nil] at hc
  rw [hc]
  exact hforms

/-- A sentence is read, or refused for how much there is of something. -/
theorem ofLexemes_of_sentence (h : Sentence free (tokens ts)) :
    (∃ u, ofLexemes free ts = .ok u) ∨
      ∃ e, ofLexemes free ts = .error e ∧ e.concernsAmount = true := by
  cases hr : ofLexemes free ts with
  | ok u => exact .inl ⟨u, rfl⟩
  | error e =>
    refine .inr ⟨e, rfl, ?_⟩
    cases he : e.concernsAmount with
    | true => rfl
    | false => exact absurd h ((ofLexemes_fault hr).not_sentence he)

/-! ## Tokens -/

/-- Where a token cannot stand, what is before it can be continued and with the token it cannot. -/
theorem viable_of_step?_eq_none {c : List Token} {q : Outlook}
    (hq : Outlook.start.after? free c = some q) (ht : q.step? free t = none) :
    Viable free c ∧ ¬ Viable free (c ++ [t]) := by
  refine ⟨Outlook.viable_iff.mpr ⟨q, hq⟩, fun h => ?_⟩
  obtain ⟨r, hr⟩ := Outlook.viable_iff.mp h
  rw [Outlook.after?_trans hq, Outlook.after?, ht] at hr
  cases hr

/-- The token an error names is the first that cannot stand where it stands. -/
theorem Fault.viable {e : Error} (h : Fault free e .start ts)
    (he : e = .unexpectedToken t offset ∨ e = .trailingInput t offset) :
    ∃ before after, ts = before ++ ⟨t, offset⟩ :: after ∧ Viable free (tokens before) ∧
      ¬ Viable free (tokens before ++ [t]) := by
  cases h with
  | unexpected hq hl =>
    rcases he with he | he <;> cases he
    exact ⟨_, _, rfl, viable_of_step?_eq_none hq hl⟩
  | trailing hq hl =>
    rcases he with he | he <;> cases he
    exact ⟨_, _, rfl, viable_of_step?_eq_none hq hl⟩
  | unknown | missing | ended | unclosed | stray => rcases he with he | he <;> cases he
  | amount ha => rcases he with rfl | rfl <;> cases ha

/-- An error for the end is given where something is due. -/
theorem Fault.unfinished (h : Fault free .unexpectedEnd .start ts) :
    (∃ more, more ≠ [] ∧ Sentence free (tokens ts ++ more)) ∧ ¬ Sentence free (tokens ts) := by
  have hno := h.not_sentence rfl
  refine ⟨?_, hno⟩
  cases h with
  | ended hq hdue =>
    obtain ⟨more, h⟩ := Outlook.viable_iff.mpr ⟨_, hq⟩
    refine ⟨more, ?_, h⟩
    rintro rfl
    rw [List.append_nil] at h
    exact hno h
  | amount ha => cases ha

/-- **Errors name the first wrong token**: what is before it can be continued to a sentence, and
with it cannot. The end is reported where the whole text can be continued and is no sentence. -/
theorem parse_blame (d : Dialect) (text : String) :
    (∀ t offset, parse d text = .error (.unexpectedToken t offset) ∨
        parse d text = .error (.trailingInput t offset) →
      ∃ before after, Stands d text t offset before after ∧ Viable d.free (tokens before) ∧
        ¬ Viable d.free (tokens before ++ [t])) ∧
    (parse d text = .error .unexpectedEnd → ∃ ts, Token.scan d.alphabet text = .ok ts ∧
      (∃ more, more ≠ [] ∧ Sentence d.free (tokens ts ++ more)) ∧
      ¬ Sentence d.free (tokens ts)) := by
  constructor
  · intro t offset h
    have named {e : Error} (he : e = .unexpectedToken t offset ∨ e = .trailingInput t offset)
        (h : parse d text = .error e) : ∃ before after, Stands d text t offset before after ∧
          Viable d.free (tokens before) ∧ ¬ Viable d.free (tokens before ++ [t]) := by
      have hkind : e.kind ≠ .lexical := by rcases he with rfl | rfl <;> exact nofun
      obtain ⟨ts, hscan, h⟩ := exists_tokens_of_parse h hkind
      obtain ⟨before, after, rfl, hviable⟩ := (ofLexemes_fault h).viable he
      exact ⟨before, after, .of_scan hscan, hviable⟩
    exact h.elim (named (.inl rfl)) (named (.inr rfl))
  · intro h
    obtain ⟨ts, hscan, h⟩ := exists_tokens_of_parse h nofun
    exact ⟨ts, hscan, (ofLexemes_fault h).unfinished⟩

/-- A call may have no arguments, but behind a comma one is due. -/
theorem parse_blame_comma :
    parse .scientific "max(2%*3%,)" = .error (.unexpectedToken .closeParen 10) ∧
    ∃ before after, Stands .scientific "max(2%*3%,)" .closeParen 10 before after ∧
      Viable none (tokens before) ∧ ¬ Viable none (tokens before ++ [.closeParen]) := by
  have h : parse .scientific "max(2%*3%,)" = .error (.unexpectedToken .closeParen 10) := by
    with_unfolding_all rfl
  exact ⟨h, (parse_blame .scientific "max(2%*3%,)").1 .closeParen 10 (.inl h)⟩

/-! ## Parentheses -/

/-- The parenthesis an error points at has no partner. -/
theorem Fault.without_partner (h : Fault free (.unbalancedParentheses offset) .start ts) :
    ∃ t before after, ts = before ++ ⟨t, offset⟩ :: after ∧
      (t = .closeParen ∧ unmatched before = ⟨[], []⟩ ∧
          (unmatched ts).stray.head? = some offset ∨
        t = .openParen ∧ (unmatched ts).stray = [] ∧
          (unmatched ts).opened.head? = some offset) := by
  cases h with
  | @unclosed _ q _ _ _ before after _ hq hr hopen hafter =>
    obtain ⟨-, hstray⟩ := Unmatched.after_of_after? (u := ⟨[], []⟩) hq rfl
    refine ⟨.openParen, before, after, rfl, .inr ⟨rfl, ?_⟩⟩
    rw [unmatched, Unmatched.after_append, Unmatched.after_cons, hafter]
    exact ⟨hstray, rfl⟩
  | @stray _ _ before after _ hq =>
    obtain ⟨hopened, hstray⟩ := Unmatched.after_of_after? (u := ⟨[], []⟩) hq rfl
    have hbefore : unmatched before = ⟨[], []⟩ := by
      rw [unmatched, Unmatched.mk.injEq]
      exact ⟨List.length_eq_zero_iff.mp hopened, hstray⟩
    refine ⟨.closeParen, before, after, rfl, .inl ⟨rfl, hbefore, ?_⟩⟩
    obtain ⟨others, hothers⟩ := (Unmatched.mk [] [offset]).stray_kept after
    rw [unmatched, Unmatched.after_append, Unmatched.after_cons, ← unmatched, hbefore]
    show (Unmatched.after ⟨[], [offset]⟩ after).stray.head? = some offset
    rw [← hothers]
    rfl
  | amount ha => cases ha

/-- **The parenthesis an error points at has no partner**: it is the first closing one without,
behind nothing but pairs, or the innermost one open at the end of a text in which every closing
one has its partner. -/
theorem parse_unbalanced (h : parse d text = .error (.unbalancedParentheses offset)) :
    ∃ t before after, Stands d text t offset before after ∧
      let u := unmatched (before ++ ⟨t, offset⟩ :: after)
      u ≠ ⟨[], []⟩ ∧
      (t = .closeParen ∧ unmatched before = ⟨[], []⟩ ∧ u.stray.head? = some offset ∨
        t = .openParen ∧ u.stray = [] ∧ u.opened.head? = some offset) := by
  obtain ⟨ts, hscan, h⟩ := exists_tokens_of_parse h nofun
  obtain ⟨t, before, after, rfl, hwhich⟩ := (ofLexemes_fault h).without_partner
  refine ⟨t, before, after, .of_scan hscan, ?_, hwhich⟩
  intro hnone
  rw [hnone] at hwhich
  rcases hwhich with ⟨-, -, h⟩ | ⟨-, -, h⟩ <;> cases h

/-- Of two that are open at the end, the error points at the one opened last. -/
theorem parse_unbalanced_call :
    parse .scientific "(1)+(2*max(3" = .error (.unbalancedParentheses 10) ∧
    ∃ t before after, Stands .scientific "(1)+(2*max(3" t 10 before after ∧
      let u := unmatched (before ++ ⟨t, 10⟩ :: after)
      u ≠ ⟨[], []⟩ ∧
      (t = .closeParen ∧ unmatched before = ⟨[], []⟩ ∧ u.stray.head? = some 10 ∨
        t = .openParen ∧ u.stray = [] ∧ u.opened.head? = some 10) := by
  have h : parse .scientific "(1)+(2*max(3" = .error (.unbalancedParentheses 10) := by
    with_unfolding_all rfl
  exact ⟨h, parse_unbalanced h⟩

end Abacus.Term
