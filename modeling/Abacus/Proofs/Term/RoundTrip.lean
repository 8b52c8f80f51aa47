import Abacus.Proofs.Grammar.Exactness
import Abacus.Proofs.Token.Writing

/-!
# A term reads back as it is written

What `Term.text` writes, `Term.parse` reads as the same term. The written form puts every operation
in parentheses, so it is a primary operand wherever it stands, and its tokens can be read off the
tree (`spell`). Two inductions over the tree meet in them: the characters are cut into these tokens
(`Expressible.scans`), and the tokens derive the tree (`Expressible.derives`).

The written form is nested deeper than the text the term was read from, so it may be refused where
that text was not. A sign in front and a power put an operand inside two constructs, its parentheses
and itself, every other operation inside one. So twice the height bounds the nesting, and a height
of 127 keeps it below the limit.

Terms are restricted to those that can be read at all. `Expressible` says what is known of them:
names have the meaning that the tree gives them, signs belong to the alphabet, and no number has
a minus sign.

* `expressible_of_parse`: a term that was read is expressible.
* `parse_text`: it is read again from its written form, unless its parentheses nest too deep.

Numbers must be finite. A literal that was read may be infinite, and is then written as a name that
means nothing.
-/

namespace Abacus

/-- The sign of an operation as an operator. -/
def BinaryOp.operator : BinaryOp → Operator
  | .add => .plus
  | .subtract => .minus
  | .multiply => .times
  | .divide => .slash
  | .remainder => .percent
  | .power => .caret

namespace Term

open Grammar
open Abacus.Term.Parser (additiveOp? multiplicativeOp? maxOperations)

mutual

/-- The tokens of the written form. -/
def spell : Term → List Token
  | .literal value => [.number value]
  | .variable name => [.name name]
  | .unary .negate a => .openParen :: .operator .minus :: (a.spell ++ [.closeParen])
  | .unary .keep a => .openParen :: .operator .plus :: (a.spell ++ [.closeParen])
  | .unary .percent a => .openParen :: (a.spell ++ [.operator .percent, .closeParen])
  | .binary op a b =>
    .openParen :: (a.spell ++ .operator op.operator :: (b.spell ++ [.closeParen]))
  | .call name args => .name name :: .openParen :: (spellArgs args ++ [.closeParen])

/-- The tokens of terms with commas between them. -/
def spellArgs : List Term → List Token
  | [] => []
  | [t] => t.spell
  | t :: ts => t.spell ++ .comma :: spellArgs ts

end

mutual

/-- The most operators and calls on a path from the root to a leaf. -/
def height : Term → Nat
  | .literal _ => 0
  | .variable _ => 0
  | .unary _ a => a.height + 1
  | .binary _ a b => max a.height b.height + 1
  | .call _ args => heightIn args + 1

/-- The most operators and calls on a path in one of the terms. -/
def heightIn : List Term → Nat
  | [] => 0
  | t :: ts => max t.height (heightIn ts)

end

mutual

/-- The numbers in the term, constants among them. -/
def literals : Term → List Float
  | .literal value => [value]
  | .variable _ => []
  | .unary _ a => a.literals
  | .binary _ a b => a.literals ++ b.literals
  | .call _ args => literalsIn args

/-- The numbers in the terms. -/
def literalsIn : List Term → List Float
  | [] => []
  | t :: ts => t.literals ++ literalsIn ts

end

/-- The term can be read in the dialect, were there no limits and no infinite numbers. -/
inductive Expressible (d : Dialect) : Term → Prop
  | literal {x : Float} (hx : Double.Unsigned x) : Expressible d (.literal x)
  | bound {name : String} (hfree : d.free = some name)
      (hname : Token.Proper d.alphabet (.name name)) : Expressible d (.variable name)
  | unary {op : UnaryOp} {a : Term} (ha : Expressible d a) : Expressible d (.unary op a)
  | binary {op : BinaryOp} {a b : Term} (hop : d.alphabet.admits op.sign = true)
      (ha : Expressible d a) (hb : Expressible d b) : Expressible d (.binary op a b)
  | call {name : String} {f : Function} {args : List Term} (hfree : d.free ≠ some name)
      (hconst : constant? name = none) (hfun : Function.ofName? name = some f)
      (harity : args.length = f.arity) (hname : Token.Proper d.alphabet (.name name))
      (hargs : ∀ a ∈ args, Expressible d a) : Expressible d (.call name args)

variable {d : Dialect} {t : Term} {n : Nat} {ts rest : List Token}

theorem height_le_heightIn {args : List Term} : ∀ a ∈ args, a.height ≤ heightIn args := by
  induction args with
  | nil => nofun
  | cons a args ih =>
    intro b hb
    rw [heightIn]
    rcases List.mem_cons.mp hb with rfl | hb
    · exact Nat.le_max_left _ _
    · exact (ih b hb).trans (Nat.le_max_right _ _)

theorem literals_subset_literalsIn {args : List Term} :
    ∀ a ∈ args, ∀ x ∈ a.literals, x ∈ literalsIn args := by
  induction args with
  | nil => nofun
  | cons a args ih =>
    intro b hb x hx
    rw [literalsIn]
    rcases List.mem_cons.mp hb with rfl | hb
    · exact List.mem_append_left _ hx
    · exact List.mem_append_right _ (ih b hb x hx)

/-! ## The written form is scanned as the tokens of the tree -/

theorem scans_writeArgs {a : Alphabet} {args : List Term} (hcomma : a.admits ',' = true)
    (h : ∀ t ∈ args, Token.Scans a t.write t.spell) :
    Token.Scans a (writeArgs args) (spellArgs args) := by
  induction args with
  | nil => exact .nil
  | cons t args ih =>
    cases args with
    | nil => exact h t List.mem_cons_self
    | cons u args =>
      have hrest := ih fun t ht => h t (List.mem_cons_of_mem _ ht)
      rw [writeArgs, spellArgs]
      · exact (h t List.mem_cons_self).append ⟨rfl, by decide⟩
          (.sign hcomma rfl (.blank rfl hrest))
      · exact List.cons_ne_nil u args
      · exact List.cons_ne_nil u args

/-- **The written form is scanned as the tokens of the tree.** -/
theorem Expressible.scans (h : Expressible d t) (hfin : ∀ x ∈ t.literals, x.isFinite = true) :
    Token.Scans d.alphabet t.write t.spell := by
  have hadmits {c : Char} (hc : c ∈ Alphabet.keypadSigns) : d.alphabet.admits c = true :=
    Token.admits_of_mem_keypadSigns hc
  have hopen := hadmits (c := '(') (by decide)
  have hclose : Token.Scans d.alphabet [')'] [.closeParen] :=
    .sign (hadmits (by decide)) rfl .nil
  induction h with
  | literal hx => exact .number (hfin _ List.mem_cons_self) hx
  | bound _ hname => exact .name hname
  | @unary op a _ ih =>
    have ha := ih hfin
    cases op with
    | negate | keep =>
      have hbody := ha.append ⟨rfl, by decide⟩ hclose
      exact .sign hopen rfl (.sign (hadmits (by decide)) rfl hbody)
    | percent =>
      have hpercent := Token.Scans.sign (hadmits (c := '%') (by decide)) rfl hclose
      exact .sign hopen rfl (ha.append ⟨rfl, by decide⟩ hpercent)
  | @binary op a b hop _ _ iha ihb =>
    have ha := iha fun x hx => hfin x (List.mem_append_left _ hx)
    have hb := ihb fun x hx => hfin x (List.mem_append_right _ hx)
    have hsign : Token.ofSign? op.sign = some (.operator op.operator) := by cases op <;> rfl
    have hwrite : (Term.binary op a b).write =
        '(' :: (a.write ++ ' ' :: op.sign :: ' ' :: (b.write ++ [')'])) := by
      rw [write]
      simp only [List.append_assoc, List.cons_append, List.nil_append]
    rw [hwrite]
    exact .sign hopen rfl (ha.append ⟨rfl, by decide⟩
      (.blank rfl (.sign hop hsign (.blank rfl (hb.append ⟨rfl, by decide⟩ hclose)))))
  | @call name f args _ _ _ _ hname _ ih =>
    have hname' := Token.Scans.name hname
    obtain ⟨⟨c, cs, hcs, hc, -⟩, hadmits⟩ := hname
    have hcomma := Token.admits_comma hc (hadmits c (by rw [hcs]; exact List.mem_cons_self))
    have hargs := scans_writeArgs hcomma fun a ha =>
      ih a ha fun x hx => hfin x (literals_subset_literalsIn a ha x hx)
    exact hname'.append ⟨rfl, by decide⟩
      (.sign hopen rfl (hargs.append ⟨rfl, by decide⟩ hclose))

/-! ## The tokens of the tree derive it -/

theorem Grammar.Derives.signed_of_primary {free : Option String}
    (h : Derives free n (.primary t) ts rest) : Derives free n (.signed t) ts rest :=
  .signed_power (.power_postfixed (.postfixed_primary h))

theorem Grammar.Derives.sum_of_primary {free : Option String}
    (h : Derives free n (.primary t) ts rest) : Derives free n (.sum t) ts rest :=
  .sum_product (.product_signed h.signed_of_primary)

/-- Arguments end where the next comma stands. -/
theorem derives_spellArgs_cons {free : Option String} {args : List Term}
    (h : ∀ a ∈ t :: args, ∀ rest, Derives free n (.primary a) (a.spell ++ rest) rest)
    (rest : List Token) : ∃ mid, Derives free n (.sum t) (spellArgs (t :: args) ++ rest) mid ∧
      Derives free n (.furtherArguments args) mid rest := by
  induction args generalizing t with
  | nil => exact ⟨rest, (h t List.mem_cons_self rest).sum_of_primary, .further_none⟩
  | cons u args ih =>
    obtain ⟨mid, hu, hargs⟩ := ih fun a ha => h a (List.mem_cons_of_mem t ha)
    refine ⟨.comma :: (spellArgs (u :: args) ++ rest), ?_, .further_some hu hargs⟩
    rw [spellArgs, List.append_assoc]
    · exact (h t List.mem_cons_self _).sum_of_primary
    · exact List.cons_ne_nil u args

theorem derives_spellArgs {free : Option String} {args : List Term}
    (h : ∀ a ∈ args, ∀ rest, Derives free n (.primary a) (a.spell ++ rest) rest)
    (rest : List Token) : Derives free n (.arguments args) (spellArgs args ++ rest) rest := by
  cases args with
  | nil => exact .arguments_none
  | cons t args =>
    obtain ⟨mid, ht, hargs⟩ := derives_spellArgs_cons h rest
    exact .arguments_some ht hargs

/-- An operation between two operands, in its parentheses. -/
theorem derives_binary {free : Option String} (op : BinaryOp) {a b : Term}
    (ha : ∀ rest, Derives free (n + 1) (.primary a) (a.spell ++ rest) rest)
    (hb : ∀ rest, Derives free n (.primary b) (b.spell ++ rest) rest) (rest : List Token) :
    Derives free (n + 1) (.sum (.binary op a b))
      (a.spell ++ .operator op.operator :: (b.spell ++ rest)) rest := by
  have hleft := ha (.operator op.operator :: (b.spell ++ rest))
  have hright := ((hb rest).mono (Nat.le_succ n)).signed_of_primary
  cases op with
  | add | subtract => exact .sum_binary rfl hleft.sum_of_primary (.product_signed hright)
  | multiply | divide =>
    refine .sum_product (.product_binary ?_ ?_ (.product_signed hleft.signed_of_primary) hright)
    · rfl
    · nofun
  | remainder =>
    -- the right operand begins as an operand without a sign does
    refine .sum_product (.product_binary ?_ ?_ (.product_signed hleft.signed_of_primary) hright)
    · rfl
    · exact fun _ => (hb rest).begins
  | power =>
    exact .sum_product (.product_signed (.signed_power
      (.power_raised (.postfixed_primary hleft) (hb rest).signed_of_primary)))

/-- **The tokens of the tree derive it**, with no operand inside more constructs than twice the
height. -/
theorem Expressible.derives (h : Expressible d t) (rest : List Token) :
    Derives d.free (2 * t.height) (.primary t) (t.spell ++ rest) rest := by
  induction h generalizing rest with
  | literal => exact .number
  | bound hfree => exact .bound hfree
  | @unary op a _ ih =>
    have hsigned (u : UnaryOp) (op : Operator) (hop : Parser.signOp? op = some u) :
        Derives d.free (2 * a.height + 1 + 1) (.primary (.unary u a))
          (.openParen :: .operator op :: (a.spell ++ .closeParen :: rest)) rest :=
      .group (.sum_product (.product_signed (.signed_sign hop (ih _).signed_of_primary)))
    cases op with
    | negate =>
      rw [spell, List.cons_append, List.cons_append, List.append_assoc]
      exact hsigned .negate .minus rfl
    | keep =>
      rw [spell, List.cons_append, List.cons_append, List.append_assoc]
      exact hsigned .keep .plus rfl
    | percent =>
      rw [spell, List.cons_append, List.append_assoc]
      refine .group (.sum_product (.product_signed (.signed_power (.power_postfixed ?_))))
      exact .postfixed_percent (.postfixed_primary ((ih _).mono (Nat.le_succ _))) rfl
  | @binary op a b _ _ _ iha ihb =>
    have hleft := Nat.mul_le_mul_left 2 (Nat.le_max_left a.height b.height)
    have hright := Nat.mul_le_mul_left 2 (Nat.le_max_right a.height b.height)
    rw [spell, height]
    simp only [List.append_assoc, List.cons_append, List.nil_append]
    exact .group (derives_binary op (fun _ => (iha _).mono (Nat.le_succ_of_le hleft))
      (fun _ => (ihb _).mono hright) (.closeParen :: rest))
  | @call name f args hfree hconst hfun harity _ _ ih =>
    have hargs := derives_spellArgs (n := 2 * heightIn args)
      (fun a ha rest => (ih a ha rest).mono (Nat.mul_le_mul_left 2 (height_le_heightIn a ha)))
      (.closeParen :: rest)
    rw [spell, height]
    simp only [List.append_assoc, List.cons_append, List.nil_append]
    exact .call hfree hconst hfun harity (hargs.mono (Nat.le_succ _))

/-! ## What is read is expressible -/

/-- Every term of the phrase has the property. -/
def Grammar.Phrase.Holds (p : Term → Prop) : Phrase → Prop
  | .sum t | .product t | .signed t | .power t | .postfixed t | .primary t => p t
  | .arguments args | .furtherArguments args => ∀ a ∈ args, p a

theorem sign_of_additiveOp? {op : Operator} {b : BinaryOp} (h : additiveOp? op = some b) :
    b.sign = op.sign := by
  cases op <;> cases h <;> rfl

theorem sign_of_multiplicativeOp? {op : Operator} {b : BinaryOp}
    (h : multiplicativeOp? op = some b) : b.sign = op.sign := by
  cases op <;> cases h <;> rfl

/-- The constants have no minus sign. -/
theorem unsigned_constant {name : String} {x : Float} (h : constant? name = some x) :
    Double.Unsigned x := by
  have hE : Decimal.toFloat ⟨2718281828459045, -15⟩ = 2.718281828459045 := rfl
  have hPi : Decimal.toFloat ⟨3141592653589793, -15⟩ = 3.141592653589793 := rfl
  unfold constant? constants at h
  rw [List.lookup_cons, List.lookup_cons, List.lookup_nil] at h
  split at h
  · cases h
    rw [← hE]
    exact (Decimal.toFloat_rounds _).unsigned
  · split at h
    · cases h
      rw [← hPi]
      exact (Decimal.toFloat_rounds _).unsigned
    · cases h

theorem unsigned_zero : Double.Unsigned 0 := by
  have hzero : Exact.of? 0 = some ⟨false, 0, 0⟩ := by decide +kernel
  intro v hv
  rw [hzero] at hv
  cases hv
  rfl

/-- Proper tokens derive expressible terms, and proper tokens are left. -/
theorem Grammar.Derives.expressible {p : Phrase} (h : Derives d.free n p ts rest)
    (hts : ∀ s ∈ ts, s.Proper d.alphabet) :
    p.Holds (Expressible d) ∧ ∀ s ∈ rest, s.Proper d.alphabet := by
  induction h with
  | sum_product _ ih | product_signed _ ih | signed_power _ ih | power_postfixed _ ih
  | postfixed_primary _ ih => exact ih hts
  | sum_binary hop _ _ ihl ihr =>
    obtain ⟨hl, hmid⟩ := ihl hts
    obtain ⟨hsign, hmid⟩ := List.forall_mem_cons.mp hmid
    obtain ⟨hr, hrest⟩ := ihr hmid
    exact ⟨.binary (by rw [sign_of_additiveOp? hop]; exact hsign) hl hr, hrest⟩
  | product_binary hop _ _ _ ihl ihr =>
    obtain ⟨hl, hmid⟩ := ihl hts
    obtain ⟨hsign, hmid⟩ := List.forall_mem_cons.mp hmid
    obtain ⟨hr, hrest⟩ := ihr hmid
    exact ⟨.binary (by rw [sign_of_multiplicativeOp? hop]; exact hsign) hl hr, hrest⟩
  | power_raised _ _ ihb ihe =>
    obtain ⟨hb, hmid⟩ := ihb hts
    obtain ⟨hsign, hmid⟩ := List.forall_mem_cons.mp hmid
    obtain ⟨he, hrest⟩ := ihe hmid
    exact ⟨.binary hsign hb he, hrest⟩
  | signed_sign _ _ ih =>
    obtain ⟨ha, hrest⟩ := ih (List.forall_mem_cons.mp hts).2
    exact ⟨.unary ha, hrest⟩
  | postfixed_percent _ _ ih =>
    obtain ⟨ha, hrest⟩ := ih hts
    exact ⟨.unary ha, (List.forall_mem_cons.mp hrest).2⟩
  | number =>
    obtain ⟨hx, hrest⟩ := List.forall_mem_cons.mp hts
    exact ⟨.literal hx, hrest⟩
  | group _ ih =>
    obtain ⟨ha, hrest⟩ := ih (List.forall_mem_cons.mp hts).2
    exact ⟨ha, (List.forall_mem_cons.mp hrest).2⟩
  | bound hfree =>
    obtain ⟨hname, hrest⟩ := List.forall_mem_cons.mp hts
    exact ⟨.bound hfree hname, hrest⟩
  | constant _ hconst =>
    exact ⟨.literal (unsigned_constant hconst), (List.forall_mem_cons.mp hts).2⟩
  | call hfree hconst hfun harity _ ih =>
    obtain ⟨hname, hts⟩ := List.forall_mem_cons.mp hts
    obtain ⟨hargs, hrest⟩ := ih (List.forall_mem_cons.mp hts).2
    exact ⟨.call hfree hconst hfun harity hname hargs, (List.forall_mem_cons.mp hrest).2⟩
  | arguments_none | further_none => exact ⟨nofun, hts⟩
  | arguments_some _ _ ihf iho =>
    obtain ⟨hf, hmid⟩ := ihf hts
    obtain ⟨ho, hrest⟩ := iho hmid
    exact ⟨List.forall_mem_cons.mpr ⟨hf, ho⟩, hrest⟩
  | further_some _ _ ihn iho =>
    obtain ⟨hn, hmid⟩ := ihn (List.forall_mem_cons.mp hts).2
    obtain ⟨ho, hrest⟩ := iho hmid
    exact ⟨List.forall_mem_cons.mpr ⟨hn, ho⟩, hrest⟩

/-- A term that was read is expressible, and has no more operations than are allowed. -/
theorem expressible_of_parse {text : String} (h : parse d text = .ok t) :
    Expressible d t ∧ t.operations ≤ maxOperations := by
  obtain ⟨lexemes, hscan, h⟩ := Except.bind_eq_ok.mp h
  by_cases hne : lexemes = []
  · subst hne
    cases h
    exact ⟨.literal unsigned_zero, Nat.zero_le _⟩
  · obtain ⟨hd, hops⟩ := derives_of_ofLexemes hne h
    have hproper : ∀ s ∈ lexemes.map Lexeme.token, s.Proper d.alphabet := by
      intro s hs
      obtain ⟨x, hx, rfl⟩ := List.mem_map.mp hs
      exact Token.proper_of_scan hscan x hx
    exact ⟨(hd.expressible hproper).1, hops⟩

/-- **A term that was read, with finite numbers only, is read again from its written form** or
refused because the parentheses nest too deep; and it is read again if no path from the root to a
leaf has more than 127 operators and calls. -/
theorem parse_text {text : String} (h : parse d text = .ok t)
    (hfin : ∀ x ∈ t.literals, x.isFinite = true) :
    (parse d t.text = .ok t ∨ parse d t.text = .error (.nestingTooDeep 256)) ∧
      (t.height ≤ 127 → parse d t.text = .ok t) := by
  obtain ⟨hexp, hops⟩ := expressible_of_parse h
  obtain ⟨lexemes, htokens, hscan⟩ := Token.scan_of_scans (hexp.scans hfin)
  have hparse : parse d t.text = ofLexemes d.free lexemes := Except.bind_of_ok hscan _
  have hd := (hexp.derives []).sum_of_primary
  rw [List.append_nil, ← htokens] at hd
  rw [hparse]
  rcases ofLexemes_of_derives hd hops with hok | ⟨herror, hdeep⟩
  · exact ⟨.inl hok, fun _ => hok⟩
  · refine ⟨.inr herror, ?_⟩
    intro hheight
    omega

/-- A constant is written as its digits, and a variable of its name keeps the name. -/
theorem parse_text_shadowed :
    ∃ t, parse (.inVariable "E") "-2%^E-max(PI,.5)" = .ok t ∧
      (∀ x ∈ t.literals, x.isFinite = true) ∧ t.height = 4 ∧
      t.text = "((-((2%) ^ E)) - max(3.141592653589793, 0.5))" ∧
      parse (.inVariable "E") t.text = .ok t := by
  have hparse : parse (.inVariable "E") "-2%^E-max(PI,.5)" = .ok (.binary .subtract
      (.unary .negate (.binary .power (.unary .percent (.literal (Decimal.toFloat ⟨2, 0⟩)))
        (.variable "E")))
      (.call "max" [.literal 3.141592653589793, .literal (Decimal.toFloat ⟨5, -1⟩)])) := by
    with_unfolding_all rfl
  have hfin : ∀ x ∈ [Decimal.toFloat ⟨2, 0⟩, 3.141592653589793, Decimal.toFloat ⟨5, -1⟩],
      x.isFinite = true := by
    decide +kernel
  refine ⟨_, hparse, hfin, rfl, ?_, (parse_text hparse hfin).2 (by decide)⟩
  with_unfolding_all rfl

end Term

end Abacus
