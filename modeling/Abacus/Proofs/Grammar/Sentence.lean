import Abacus.Proofs.Grammar.Derivation

/-!
# Sentences

The sequences of tokens that are expressions by their form. How deep they are nested, how many
operators they hold and how many arguments a call has makes no difference here, so a sentence may
still be refused for a limit or for the number of arguments, but for nothing else.

* `Level`: the kinds of phrase, without the terms they stand for.
* `Forms`: the forms of the phrases; `Sentence`: the form of a whole expression.
* `Viable`: what a sentence begins with.
* `IsValue`, `IsCallee`: a name is an operand by itself if it is the variable or a constant, and the
  name of a call if it is that of a function otherwise.

A percent sign behind an operand needs no word on what follows it: inside a sentence an operand is
never followed by another one. So a phrase here is its own tokens, without those behind it, and two
phrases are put together by appending them.

Results:
* `Derives.forms`: what derives has the form of its phrase.
* `Forms.percent`, `Forms.binary`, `Forms.further`: how a phrase is continued at its end, whatever
  was read before. A percent sign that divides by a hundred becomes a remainder if an operand
  follows, which changes the phrase before it.

How a sentence is told from left to right is `Proofs/Grammar/Outlook`.
-/

namespace Abacus.Term.Grammar

open Abacus.Term.Parser (additiveOp? multiplicativeOp? signOp?)

/-- The kinds of phrase, loosest first. -/
inductive Level where
  | sum | product | signed | power | postfixed | primary | arguments | furtherArguments
deriving DecidableEq, Repr

/-- The kind of a phrase, whatever term it stands for. -/
def Phrase.level : Phrase → Level
  | .sum _ => .sum
  | .product _ => .product
  | .signed _ => .signed
  | .power _ => .power
  | .postfixed _ => .postfixed
  | .primary _ => .primary
  | .arguments _ => .arguments
  | .furtherArguments _ => .furtherArguments

/-- The name is an operand by itself. -/
def IsValue (free : Option String) (name : String) : Prop :=
  free = some name ∨ (constant? name).isSome

/-- The name is that of a function, and neither the variable nor a constant is called so. -/
def IsCallee (free : Option String) (name : String) : Prop :=
  ¬ IsValue free name ∧ (Function.ofName? name).isSome

instance (free : Option String) (name : String) : Decidable (IsValue free name) :=
  inferInstanceAs (Decidable (_ ∨ _))

instance (free : Option String) (name : String) : Decidable (IsCallee free name) :=
  inferInstanceAs (Decidable (_ ∧ _))

/-- The forms of the phrases. -/
inductive Forms (free : Option String) : Level → List Token → Prop
  | sum_product {c} (h : Forms free .product c) : Forms free .sum c
  | sum_binary {op b c d} (hop : additiveOp? op = some b) (left : Forms free .sum c)
      (right : Forms free .product d) : Forms free .sum (c ++ .operator op :: d)
  | product_signed {c} (h : Forms free .signed c) : Forms free .product c
  | product_binary {op b c d} (hop : multiplicativeOp? op = some b)
      (remainder : op = .percent → operandNext d = true) (left : Forms free .product c)
      (right : Forms free .signed d) : Forms free .product (c ++ .operator op :: d)
  | signed_sign {op u c} (hop : signOp? op = some u) (operand : Forms free .signed c) :
      Forms free .signed (.operator op :: c)
  | signed_power {c} (h : Forms free .power c) : Forms free .signed c
  | power_postfixed {c} (h : Forms free .postfixed c) : Forms free .power c
  | power_raised {c d} (base : Forms free .postfixed c) (exponent : Forms free .signed d) :
      Forms free .power (c ++ .operator .caret :: d)
  | postfixed_primary {c} (h : Forms free .primary c) : Forms free .postfixed c
  | postfixed_percent {c} (operand : Forms free .postfixed c) :
      Forms free .postfixed (c ++ [.operator .percent])
  | number {x} : Forms free .primary [.number x]
  | value {name} (h : IsValue free name) : Forms free .primary [.name name]
  | group {c} (inner : Forms free .sum c) : Forms free .primary (.openParen :: (c ++ [.closeParen]))
  | call {name c} (h : IsCallee free name) (inner : Forms free .arguments c) :
      Forms free .primary (.name name :: .openParen :: (c ++ [.closeParen]))
  | arguments_none : Forms free .arguments []
  | arguments_some {c d} (first : Forms free .sum c) (others : Forms free .furtherArguments d) :
      Forms free .arguments (c ++ d)
  | further_none : Forms free .furtherArguments []
  | further_some {c d} (next : Forms free .sum c) (others : Forms free .furtherArguments d) :
      Forms free .furtherArguments (.comma :: (c ++ d))

/-- The tokens are an expression by their form. -/
def Sentence (free : Option String) (ts : List Token) : Prop := Forms free .sum ts

/-- The tokens can be continued to an expression. -/
def Viable (free : Option String) (ts : List Token) : Prop := ∃ more, Sentence free (ts ++ more)

variable {free : Option String} {φ : Level} {c d ts rest : List Token} {n : Nat}

/-- What a viable sequence begins with is viable. -/
theorem Viable.initial (h : Viable free ts) (hc : c <+: ts) : Viable free c := by
  obtain ⟨more, h⟩ := h
  obtain ⟨e, rfl⟩ := hc
  rw [List.append_assoc] at h
  exact ⟨e ++ more, h⟩

/-! ## What derives -/

theorem IsValue.bound {name : String} (h : free = some name) : IsValue free name := .inl h

theorem IsValue.constant {name : String} {x : Float} (h : constant? name = some x) :
    IsValue free name := .inr (by rw [h]; rfl)

theorem not_isValue {name : String} (hfree : free ≠ some name) (hconst : constant? name = none) :
    ¬ IsValue free name := by
  rintro (h | h)
  · exact hfree h
  · rw [hconst] at h
    cases h

theorem IsCallee.of {name : String} {f : Function} (hfree : free ≠ some name)
    (hconst : constant? name = none) (hfun : Function.ofName? name = some f) :
    IsCallee free name :=
  ⟨not_isValue hfree hconst, by rw [hfun]; rfl⟩

theorem not_isCallee {name : String} (hfun : Function.ofName? name = none) :
    ¬ IsCallee free name := by
  rintro ⟨-, h⟩
  rw [hfun] at h
  cases h

theorem operandNext_append (h : operandNext c = true) (d : List Token) :
    operandNext (c ++ d) = true := by
  unfold operandNext at h
  split at h
  · rfl
  · rfl
  · rfl
  · cases h

theorem operandNext_of_append (h : operandNext (c ++ d) = true) (hne : c ≠ []) :
    operandNext c = true := by
  obtain ⟨t, c, rfl⟩ := List.exists_cons_of_ne_nil hne
  cases t with
  | number | name | openParen => rfl
  | operator | closeParen | comma => cases h

theorem Forms.ne_nil (h : Forms free φ c) (hφ : φ ≠ .arguments ∧ φ ≠ .furtherArguments) :
    c ≠ [] := by
  induction h with
  | sum_product _ ih | product_signed _ ih | signed_power _ ih | power_postfixed _ ih
  | postfixed_primary _ ih => exact ih ⟨nofun, nofun⟩
  | sum_binary | product_binary | power_raised | postfixed_percent =>
    exact List.append_ne_nil_of_right_ne_nil _ (List.cons_ne_nil _ _)
  | signed_sign | number | value | group | call => exact List.cons_ne_nil _ _
  | arguments_none | arguments_some => exact absurd rfl hφ.1
  | further_none | further_some => exact absurd rfl hφ.2

/-- A number, a name, a group or a call begins without a sign. -/
theorem Forms.begins (h : Forms free .primary c) : operandNext c = true := by
  cases h with
  | number | value | group | call => rfl

/-- **What derives has the form of its phrase.** -/
theorem Derives.forms {p : Phrase} (h : Derives free n p ts rest) :
    ∃ c, ts = c ++ rest ∧ Forms free p.level c := by
  induction h with
  | sum_product _ ih =>
    obtain ⟨c, hc, h⟩ := ih
    exact ⟨c, hc, .sum_product h⟩
  | sum_binary hop _ _ ihl ihr =>
    obtain ⟨c, rfl, hl⟩ := ihl
    obtain ⟨d, rfl, hr⟩ := ihr
    exact ⟨_, by simp, .sum_binary hop hl hr⟩
  | product_signed _ ih =>
    obtain ⟨c, hc, h⟩ := ih
    exact ⟨c, hc, .product_signed h⟩
  | product_binary hop hrem _ _ ihl ihr =>
    obtain ⟨c, rfl, hl⟩ := ihl
    obtain ⟨d, rfl, hr⟩ := ihr
    have hne : d ≠ [] := hr.ne_nil ⟨nofun, nofun⟩
    exact ⟨_, by simp, .product_binary hop (fun h => operandNext_of_append (hrem h) hne) hl hr⟩
  | signed_sign hop _ ih =>
    obtain ⟨c, rfl, h⟩ := ih
    exact ⟨_, rfl, .signed_sign hop h⟩
  | signed_power _ ih =>
    obtain ⟨c, hc, h⟩ := ih
    exact ⟨c, hc, .signed_power h⟩
  | power_postfixed _ ih =>
    obtain ⟨c, hc, h⟩ := ih
    exact ⟨c, hc, .power_postfixed h⟩
  | power_raised _ _ ihb ihe =>
    obtain ⟨c, rfl, hb⟩ := ihb
    obtain ⟨d, rfl, he⟩ := ihe
    exact ⟨_, by simp, .power_raised hb he⟩
  | postfixed_primary _ ih =>
    obtain ⟨c, hc, h⟩ := ih
    exact ⟨c, hc, .postfixed_primary h⟩
  | postfixed_percent _ _ ih =>
    obtain ⟨c, rfl, h⟩ := ih
    exact ⟨_, by simp, .postfixed_percent h⟩
  | number => exact ⟨_, rfl, .number⟩
  | group _ ih =>
    obtain ⟨c, rfl, h⟩ := ih
    exact ⟨_, by simp, .group h⟩
  | bound hfree => exact ⟨_, rfl, .value (.bound hfree)⟩
  | constant _ hconst => exact ⟨_, rfl, .value (.constant hconst)⟩
  | call hfree hconst hfun _ _ ih =>
    obtain ⟨c, rfl, h⟩ := ih
    exact ⟨_, by simp, .call (.of hfree hconst hfun) h⟩
  | arguments_none => exact ⟨[], rfl, .arguments_none⟩
  | arguments_some _ _ ihf iho =>
    obtain ⟨c, rfl, hf⟩ := ihf
    obtain ⟨d, rfl, ho⟩ := iho
    exact ⟨c ++ d, by simp, .arguments_some hf ho⟩
  | further_none => exact ⟨[], rfl, .further_none⟩
  | further_some _ _ ihn iho =>
    obtain ⟨c, rfl, hn⟩ := ihn
    obtain ⟨d, rfl, ho⟩ := iho
    exact ⟨_, by simp, .further_some hn ho⟩

/-! ## Going on at the end -/

/-- An operand that stands alone. -/
theorem Forms.signed_of_primary (h : Forms free .primary c) : Forms free .signed c :=
  .signed_power (.power_postfixed (.postfixed_primary h))

/-- A percent sign may follow any operand, and belongs to the last one. -/
theorem Forms.percent_of (h : Forms free φ c)
    (hφ : φ ≠ .primary ∧ φ ≠ .arguments ∧ φ ≠ .furtherArguments) :
    Forms free φ (c ++ [.operator .percent]) := by
  induction h with
  | sum_product _ ih => exact .sum_product (ih ⟨nofun, nofun, nofun⟩)
  | sum_binary hop left _ _ ihr =>
    rw [List.append_assoc, List.cons_append]
    exact .sum_binary hop left (ihr ⟨nofun, nofun, nofun⟩)
  | product_signed _ ih => exact .product_signed (ih ⟨nofun, nofun, nofun⟩)
  | product_binary hop hrem left _ _ ihr =>
    rw [List.append_assoc, List.cons_append]
    exact .product_binary hop (fun h => operandNext_append (hrem h) _) left
      (ihr ⟨nofun, nofun, nofun⟩)
  | signed_sign hop _ ih => exact .signed_sign hop (ih ⟨nofun, nofun, nofun⟩)
  | signed_power _ ih => exact .signed_power (ih ⟨nofun, nofun, nofun⟩)
  | power_postfixed _ ih => exact .power_postfixed (ih ⟨nofun, nofun, nofun⟩)
  | power_raised base _ _ ihe =>
    rw [List.append_assoc, List.cons_append]
    exact .power_raised base (ihe ⟨nofun, nofun, nofun⟩)
  | postfixed_primary h => exact .postfixed_percent (.postfixed_primary h)
  | postfixed_percent operand => exact .postfixed_percent (.postfixed_percent operand)
  | number | value | group | call => exact absurd rfl hφ.1
  | arguments_none | arguments_some => exact absurd rfl hφ.2.1
  | further_none | further_some => exact absurd rfl hφ.2.2

theorem Forms.percent (h : Forms free .sum c) : Forms free .sum (c ++ [.operator .percent]) :=
  h.percent_of ⟨nofun, nofun, nofun⟩

/-- The kinds of phrase that may end with a power. -/
def Level.endsWithPower : Level → Bool
  | .sum | .product | .signed | .power => true
  | .postfixed | .primary | .arguments | .furtherArguments => false

/-- An exponent may follow any operand, and belongs to the last one. -/
theorem Forms.raised (h : Forms free φ c) (hφ : φ.endsWithPower = true)
    (exponent : Forms free .signed d) : Forms free φ (c ++ .operator .caret :: d) := by
  induction h with
  | sum_product _ ih => exact .sum_product (ih rfl)
  | sum_binary hop left _ _ ihr =>
    rw [List.append_assoc, List.cons_append]
    exact .sum_binary hop left (ihr rfl)
  | product_signed _ ih => exact .product_signed (ih rfl)
  | product_binary hop hrem left _ _ ihr =>
    rw [List.append_assoc, List.cons_append]
    exact .product_binary hop (fun h => operandNext_append (hrem h) _) left (ihr rfl)
  | signed_sign hop _ ih => exact .signed_sign hop (ih rfl)
  | signed_power _ ih => exact .signed_power (ih rfl)
  | power_postfixed h => exact .power_raised h exponent
  | power_raised base _ _ ihe =>
    rw [List.append_assoc, List.cons_append]
    exact .power_raised base (ihe rfl)
  | postfixed_primary | postfixed_percent | number | value | group | call | arguments_none
  | arguments_some | further_none | further_some => cases hφ

/-- **A sum goes on with any sign and an operand.** Behind a percent sign the operand carries no
sign of its own. -/
theorem Forms.binary {op : Operator} (h : Forms free .sum c) (right : Forms free .signed d)
    (hrem : op = .percent → operandNext d = true) : Forms free .sum (c ++ .operator op :: d) := by
  have product {b : BinaryOp} (hop : multiplicativeOp? op = some b) :
      Forms free .sum (c ++ .operator op :: d) := by
    cases h with
    | sum_product h => exact .sum_product (.product_binary hop hrem h right)
    | sum_binary hop' left h =>
      rw [List.append_assoc, List.cons_append]
      exact .sum_binary hop' left (.product_binary hop hrem h right)
  cases op with
  | plus => exact .sum_binary (b := .add) rfl h (.product_signed right)
  | minus => exact .sum_binary (b := .subtract) rfl h (.product_signed right)
  | times => exact product (b := .multiply) rfl
  | slash => exact product (b := .divide) rfl
  | percent => exact product (b := .remainder) rfl
  | caret => exact h.raised rfl right

/-- Arguments go on with a comma and a sum. -/
theorem Forms.further (h : Forms free φ c)
    (hφ : φ = .furtherArguments ∨ φ = .arguments ∧ c ≠ []) (next : Forms free .sum d) :
    Forms free φ (c ++ .comma :: d) := by
  have last : Forms free .furtherArguments (.comma :: (d ++ [])) := .further_some next .further_none
  rw [List.append_nil] at last
  induction h with
  | arguments_none => exact hφ.elim nofun fun h => absurd rfl h.2
  | arguments_some first _ _ ih =>
    rw [List.append_assoc]
    exact .arguments_some first (ih (.inl rfl))
  | further_none => exact last
  | further_some next _ _ ih =>
    rw [List.cons_append, List.append_assoc]
    exact .further_some next (ih (.inl rfl))
  | sum_product | sum_binary | product_signed | product_binary | signed_sign | signed_power
  | power_postfixed | power_raised | postfixed_primary | postfixed_percent | number | value | group
  | call => exact hφ.elim nofun fun h => nomatch h.1

end Abacus.Term.Grammar
