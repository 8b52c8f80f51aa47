import Abacus.Proofs.Grammar.Derivation

/-!
# How deep an expression is nested

The nesting of a sequence of tokens, counted from left to right whether or not the tokens are an
expression. Groups, calls, signs in front and exponents enclose what stands in them. A group or a
call ends with its parenthesis; a sign and an exponent end with their operand, so at the next sign
between operands that is no power, at a comma, or with the group around them.

* `Place`: where one is between two tokens. Whether an operand is due tells a sign in front from one
  between operands; the depths around the open parentheses are what a closing one goes back to.
* `Place.step` is what one token does, `nesting` the depth of the deepest place.
* `Path`: from one place to another, with so many constructs on the way beside those around.

A derivation says how much room it was given, not how much it needs: any more will do
(`Derives.mono`). So the least room is found on the tokens.

Results:
* `passes_of_derives`: how a derivation goes from place to place.
* `Derives.of_nesting`: room for its nesting is all the room an expression needs.
* `Derives.nesting_le`: it needs no less.

The outermost operand is at depth 0 here and is the first level of a reader, so a limit of 256
levels is a nesting of 255 (`Proofs/Grammar/Limits`).
-/

namespace Abacus.Term.Grammar

open Abacus.Term.Parser (additiveOp? multiplicativeOp? signOp?)

/-! ## Counting -/

/-- A place between two tokens: whether an operand is due there, how many constructs enclose it,
and how many enclose each parenthesis that is still open, from the inside out. -/
structure Place where
  due : Bool
  depth : Nat
  opened : List Nat
deriving DecidableEq, Repr

/-- How many constructs enclose what stands directly in the innermost group. -/
def ground : List Nat → Nat
  | [] => 0
  | d :: _ => d + 1

/-- What a token does; a sign is one between operands unless an operand is due. -/
def Place.step (p : Place) (t : Token) (rest : List Token) : Place :=
  match t with
  | .number _ | .name _ => ⟨false, p.depth, p.opened⟩
  | .openParen => ⟨true, p.depth + 1, p.depth :: p.opened⟩
  | .closeParen => ⟨false, p.opened.headD 0, p.opened.tail⟩
  | .comma | .operator .times | .operator .slash => ⟨true, ground p.opened, p.opened⟩
  | .operator .caret => ⟨true, p.depth + 1, p.opened⟩
  | .operator .percent => if operandNext rest then ⟨true, ground p.opened, p.opened⟩ else p
  | .operator .plus | .operator .minus =>
    if p.due then ⟨true, p.depth + 1, p.opened⟩ else ⟨true, ground p.opened, p.opened⟩

/-- The depth of the deepest place from here on. -/
def deepest (p : Place) : List Token → Nat
  | [] => p.depth
  | t :: rest => max p.depth (deepest (p.step t rest) rest)

/-- How deep groups, calls, signs and exponents are nested. -/
def nesting (ts : List Token) : Nat := deepest ⟨true, 0, []⟩ ts

variable {p q r : Place} {t : Token} {ts mid rest : List Token} {base n k : Nat}

theorem depth_le_deepest (p : Place) (ts : List Token) : p.depth ≤ deepest p ts := by
  cases ts with
  | nil => exact Nat.le_refl _
  | cons t rest => exact Nat.le_max_left _ _

theorem deepest_step_le (p : Place) (t : Token) (rest : List Token) :
    deepest (p.step t rest) rest ≤ deepest p (t :: rest) := Nat.le_max_right _ _

theorem step_additive {op : Operator} {b : BinaryOp} (hop : additiveOp? op = some b) (d : Nat)
    (opened : List Nat) (rest : List Token) :
    Place.step ⟨false, d, opened⟩ (.operator op) rest = ⟨true, ground opened, opened⟩ := by
  cases op with
  | plus | minus => rfl
  | times | slash | percent | caret => cases hop

theorem step_multiplicative {op : Operator} {b : BinaryOp} (hop : multiplicativeOp? op = some b)
    (hrem : op = .percent → operandNext rest = true) (d : Nat) (opened : List Nat) :
    Place.step ⟨false, d, opened⟩ (.operator op) rest = ⟨true, ground opened, opened⟩ := by
  cases op with
  | times | slash => rfl
  | percent => exact if_pos (hrem rfl)
  | plus | minus | caret => cases hop

theorem step_sign {op : Operator} {u : UnaryOp} (hop : signOp? op = some u) (d : Nat)
    (opened : List Nat) (rest : List Token) :
    Place.step ⟨true, d, opened⟩ (.operator op) rest = ⟨true, d + 1, opened⟩ := by
  cases op with
  | plus | minus => rfl
  | times | slash | percent | caret => cases hop

/-! ## From place to place -/

/-- From one place to another, with at most `n` constructs on the way beside the `base` around. -/
structure Path (base n : Nat) (p : Place) (ts : List Token) (q : Place) (rest : List Token) :
    Prop where
  deepest_le : deepest q rest ≤ deepest p ts
  bounded {N : Nat} (hp : p.depth ≤ N) (hn : base + n ≤ N) :
    q.depth ≤ N ∧ (deepest q rest ≤ N → deepest p ts ≤ N)

namespace Path

theorem refl (base n : Nat) (p : Place) (ts : List Token) : Path base n p ts p ts :=
  ⟨Nat.le_refl _, fun hp _ => ⟨hp, id⟩⟩

theorem trans (h : Path base n p ts q mid) (h' : Path base n q mid r rest) :
    Path base n p ts r rest := by
  refine ⟨Nat.le_trans h'.deepest_le h.deepest_le, fun hp hn => ?_⟩
  obtain ⟨hq, hback⟩ := h.bounded hp hn
  obtain ⟨hr, hback'⟩ := h'.bounded hq hn
  exact ⟨hr, fun hd => hback (hback' hd)⟩

/-- One token that goes no deeper than the bound. -/
theorem step (hq : p.step t rest = q) (hd : q.depth ≤ p.depth ∨ q.depth ≤ base + n) :
    Path base n p (t :: rest) q rest := by
  subst hq
  refine ⟨deepest_step_le p t rest, fun hp hn => ⟨?_, fun hdeep => Nat.max_le.mpr ⟨hp, hdeep⟩⟩⟩
  exact hd.elim (Nat.le_trans · hp) (Nat.le_trans · hn)

/-- What is inside one construct more. -/
theorem inside (h : Path (base + 1) n p ts q rest) : Path base (n + 1) p ts q rest :=
  ⟨h.deepest_le, fun hp hn => h.bounded hp (by omega)⟩

end Path

/-- From one place to another along a phrase, which derives with as much room as the deepest place
behind the first leaves. -/
structure Passes (free : Option String) (n : Nat) (φ : Phrase) (base : Nat) (p : Place)
    (ts : List Token) (q : Place) (rest : List Token) : Prop
    extends Path base n p ts q rest where
  derives {N : Nat} (h : deepest p ts ≤ N) : Derives free (N - base) φ ts rest

variable (free : Option String)

/-- Where a phrase begins and where it ends. Only arguments may end where an operand is due. -/
def Travels (n : Nat) (φ : Phrase) (ts rest : List Token) : Prop :=
  match φ with
  | .sum _ | .product _ => ∀ opened, ∃ d,
      Passes free n φ (ground opened) ⟨true, ground opened, opened⟩ ts ⟨false, d, opened⟩ rest
  | .signed _ | .power _ => ∀ d₀ opened, ∃ d,
      Passes free n φ d₀ ⟨true, d₀, opened⟩ ts ⟨false, d, opened⟩ rest
  | .postfixed _ | .primary _ => ∀ d₀ opened,
      Passes free n φ d₀ ⟨true, d₀, opened⟩ ts ⟨false, d₀, opened⟩ rest
  | .arguments _ => ∀ opened, ∃ due d,
      Passes free n φ (ground opened) ⟨true, ground opened, opened⟩ ts ⟨due, d, opened⟩ rest
  | .furtherArguments _ => ∀ d₀ opened, ∃ due d,
      Passes free n φ (ground opened) ⟨false, d₀, opened⟩ ts ⟨due, d, opened⟩ rest

variable {free}

/-- Between two operands of a group the count is back at what stands directly in it. -/
theorem path_between {d : Nat} {opened : List Nat}
    (h : Place.step ⟨false, d, opened⟩ t rest = ⟨true, ground opened, opened⟩) :
    Path (ground opened) n ⟨false, d, opened⟩ (t :: rest) ⟨true, ground opened, opened⟩ rest :=
  Path.step h (.inr (Nat.le_add_right _ _))

/-- A parenthesis, and what is read behind it up to its partner. -/
theorem path_group {d₀ d : Nat} {due : Bool} {opened : List Nat} (due₀ : Bool)
    (h : Path (d₀ + 1) n ⟨true, d₀ + 1, d₀ :: opened⟩ ts ⟨due, d, d₀ :: opened⟩
      (.closeParen :: rest)) :
    Path d₀ (n + 1) ⟨due₀, d₀, opened⟩ (.openParen :: ts) ⟨false, d₀, opened⟩ rest := by
  have hopen : Path d₀ (n + 1) ⟨due₀, d₀, opened⟩ (.openParen :: ts)
      ⟨true, d₀ + 1, d₀ :: opened⟩ ts := Path.step rfl (.inr (by dsimp only; omega))
  have hclose : Path d₀ (n + 1) ⟨due, d, d₀ :: opened⟩ (.closeParen :: rest)
      ⟨false, d₀, opened⟩ rest := Path.step rfl (.inr (Nat.le_add_right _ _))
  exact (hopen.trans h.inside).trans hclose

/-- Room for a construct more where a place inside it is reached. -/
theorem room_inside {d N : Nat} (hp : p.depth = d + 1) (h : deepest p ts ≤ N) :
    N - d = N - (d + 1) + 1 := by
  have := depth_le_deepest p ts
  omega

/-- **A derivation goes from place to place**, and needs no more room than the deepest place on its
way. -/
theorem passes_of_derives {φ : Phrase} (h : Derives free n φ ts rest) :
    Travels free n φ ts rest := by
  induction h with
  | sum_product _ ih =>
    intro opened
    obtain ⟨d, hpass⟩ := ih opened
    exact ⟨d, hpass.toPath, fun h => .sum_product (hpass.derives h)⟩
  | sum_binary hop _ _ ihl ihr =>
    intro opened
    obtain ⟨d, hl⟩ := ihl opened
    obtain ⟨d', hr⟩ := ihr opened
    have hmid := hl.toPath.trans (path_between (step_additive hop d opened _))
    exact ⟨d', hmid.trans hr.toPath, fun h =>
      .sum_binary hop (hl.derives h) (hr.derives (Nat.le_trans hmid.deepest_le h))⟩
  | product_signed _ ih =>
    intro opened
    obtain ⟨d, hpass⟩ := ih (ground opened) opened
    exact ⟨d, hpass.toPath, fun h => .product_signed (hpass.derives h)⟩
  | product_binary hop hrem _ _ ihl ihr =>
    intro opened
    obtain ⟨d, hl⟩ := ihl opened
    obtain ⟨d', hr⟩ := ihr (ground opened) opened
    have hmid := hl.toPath.trans (path_between (step_multiplicative hop hrem d opened))
    exact ⟨d', hmid.trans hr.toPath, fun h =>
      .product_binary hop hrem (hl.derives h) (hr.derives (Nat.le_trans hmid.deepest_le h))⟩
  | @signed_sign n op u t ts rest hop _ ih =>
    intro d₀ opened
    obtain ⟨d, hpass⟩ := ih (d₀ + 1) opened
    have hsign : Path d₀ (n + 1) ⟨true, d₀, opened⟩ (.operator op :: ts)
        ⟨true, d₀ + 1, opened⟩ ts :=
      Path.step (step_sign hop d₀ opened ts) (.inr (by dsimp only; omega))
    refine ⟨d, hsign.trans hpass.toPath.inside, fun h => ?_⟩
    have hin := Nat.le_trans hsign.deepest_le h
    rw [room_inside rfl hin]
    exact .signed_sign hop (hpass.derives hin)
  | signed_power _ ih =>
    intro d₀ opened
    obtain ⟨d, hpass⟩ := ih d₀ opened
    exact ⟨d, hpass.toPath, fun h => .signed_power (hpass.derives h)⟩
  | power_postfixed _ ih =>
    intro d₀ opened
    have hpass := ih d₀ opened
    exact ⟨d₀, hpass.toPath, fun h => .power_postfixed (hpass.derives h)⟩
  | @power_raised n t u ts mid rest _ _ ihb ihe =>
    intro d₀ opened
    have hb := ihb d₀ opened
    obtain ⟨d, he⟩ := ihe (d₀ + 1) opened
    have hcaret : Path d₀ (n + 1) ⟨false, d₀, opened⟩ (.operator .caret :: mid)
        ⟨true, d₀ + 1, opened⟩ mid := Path.step rfl (.inr (by dsimp only; omega))
    have hmid := hb.toPath.trans hcaret
    refine ⟨d, hmid.trans he.toPath.inside, fun h => ?_⟩
    have hin := Nat.le_trans hmid.deepest_le h
    have hbase := hb.derives h
    rw [room_inside rfl hin] at hbase ⊢
    exact .power_raised hbase (he.derives hin)
  | postfixed_primary _ ih =>
    intro d₀ opened
    have hpass := ih d₀ opened
    exact ⟨hpass.toPath, fun h => .postfixed_primary (hpass.derives h)⟩
  | @postfixed_percent n t ts rest _ hp ih =>
    intro d₀ opened
    have hpass := ih d₀ opened
    have hstep : Place.step ⟨false, d₀, opened⟩ (.operator .percent) rest = ⟨false, d₀, opened⟩ :=
      if_neg (Bool.eq_false_iff.mp hp)
    have hsign : Path d₀ n ⟨false, d₀, opened⟩ (.operator .percent :: rest) ⟨false, d₀, opened⟩
        rest := Path.step hstep (.inl (Nat.le_refl _))
    exact ⟨hpass.toPath.trans hsign, fun h => .postfixed_percent (hpass.derives h) hp⟩
  | number =>
    intro d₀ opened
    exact ⟨Path.step rfl (.inl (Nat.le_refl _)), fun _ => .number⟩
  | group _ ih =>
    intro d₀ opened
    obtain ⟨d, hpass⟩ := ih (d₀ :: opened)
    refine ⟨path_group true hpass.toPath, fun h => ?_⟩
    have hin := Nat.le_trans (deepest_step_le _ _ _) h
    rw [room_inside rfl hin]
    exact .group (hpass.derives hin)
  | bound hf =>
    intro d₀ opened
    exact ⟨Path.step rfl (.inl (Nat.le_refl _)), fun _ => .bound hf⟩
  | constant hf hc =>
    intro d₀ opened
    exact ⟨Path.step rfl (.inl (Nat.le_refl _)), fun _ => .constant hf hc⟩
  | @call n name f args ts rest hf hc hfun ha _ ih =>
    intro d₀ opened
    obtain ⟨due, d, hpass⟩ := ih (d₀ :: opened)
    have hname : Path d₀ (n + 1) ⟨true, d₀, opened⟩ (.name name :: .openParen :: ts)
        ⟨false, d₀, opened⟩ (.openParen :: ts) := Path.step rfl (.inl (Nat.le_refl _))
    refine ⟨hname.trans (path_group false hpass.toPath), fun h => ?_⟩
    have hin := Nat.le_trans (deepest_step_le _ _ _) (Nat.le_trans hname.deepest_le h)
    rw [room_inside rfl hin]
    exact .call hf hc hfun ha (hpass.derives hin)
  | arguments_none =>
    intro opened
    exact ⟨true, _, .refl _ _ _ _, fun _ => .arguments_none⟩
  | arguments_some _ _ ihf iho =>
    intro opened
    obtain ⟨d, hf⟩ := ihf opened
    obtain ⟨due, d', ho⟩ := iho d opened
    exact ⟨due, d', hf.toPath.trans ho.toPath, fun h =>
      .arguments_some (hf.derives h) (ho.derives (Nat.le_trans hf.deepest_le h))⟩
  | further_none =>
    intro d₀ opened
    exact ⟨false, d₀, .refl _ _ _ _, fun _ => .further_none⟩
  | @further_some n t args ts mid rest _ _ ihn iho =>
    intro d₀ opened
    obtain ⟨d, hn⟩ := ihn opened
    obtain ⟨due, d', ho⟩ := iho d opened
    have hcomma : Path (ground opened) n ⟨false, d₀, opened⟩ (.comma :: ts)
        ⟨true, ground opened, opened⟩ ts := path_between rfl
    refine ⟨due, d', (hcomma.trans hn.toPath).trans ho.toPath, fun h => ?_⟩
    have hin := Nat.le_trans hcomma.deepest_le h
    exact .further_some (hn.derives hin) (ho.derives (Nat.le_trans hn.deepest_le hin))

/-! ## An expression -/

/-- **Room for its nesting is all the room an expression needs.** -/
theorem Derives.of_nesting {t : Term} (h : Derives free n (.sum t) ts rest)
    (hk : nesting ts ≤ k) : Derives free k (.sum t) ts rest := by
  obtain ⟨d, hpass⟩ := passes_of_derives h []
  exact hpass.derives hk

/-- **It needs no less.** -/
theorem Derives.nesting_le {t : Term} (h : Derives free n (.sum t) ts []) : nesting ts ≤ n := by
  obtain ⟨d, hpass⟩ := passes_of_derives h []
  obtain ⟨hd, hdeep⟩ := hpass.bounded (Nat.zero_le n) (Nat.le_of_eq (Nat.zero_add n))
  exact hdeep hd

end Abacus.Term.Grammar
