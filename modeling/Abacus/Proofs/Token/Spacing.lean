import Abacus.Proofs.Token.Writing

/-!
# Tokens written with spaces between them

A space ends every word and is part of none, so tokens written in their canonical spelling with a
space between two of them are scanned one by one as they were written: `2` and `E` do not run into
an exponent, and a number is no longer than its digits.

`spaced` is that text. What comes back is the same sequence of tokens, in the same alphabet, each
at the byte where its spelling begins in the new text. The offsets of the old text are not kept,
for the spellings may differ: `2e3` is written `2000`, and `.5` is written `0.5`.

Results:
* `exists_scanFrom_spaced`: a sequence of written tokens is scanned one by one.
* `scan_spaced`: what was scanned, written again, is scanned as the same tokens.
* `scan_spaced_exponent`: an exponent, a bare point, and a name behind a number.

Numbers are asked to be finite. A numeral too great for a double is scanned as an infinite number,
and what is written for that is no numeral. The spellings themselves are `Proofs/Token/Writing`.
-/

namespace Abacus.Token

/-- The tokens as they are written, with a space between two of them. -/
def spaced (ts : List Token) : List Char := [' '].intercalate (ts.map write)

variable {a : Alphabet} {t : Token} {ts : List Token} {lexemes : List Lexeme} {offset : Nat}

@[simp] theorem spaced_nil : spaced [] = [] := rfl

@[simp] theorem spaced_singleton (t : Token) : spaced [t] = t.write :=
  List.intercalate_singleton

@[simp] theorem spaced_cons (t u : Token) (ts : List Token) :
    spaced (t :: u :: ts) = t.write ++ ' ' :: spaced (u :: ts) := by
  rw [spaced, List.map_cons, List.map_cons, List.intercalate_cons_cons, List.append_assoc]
  rfl

/-! ## Scanned one by one -/

/-- Each lexeme stands behind the spellings of those before it, each with a space. -/
def StandsBehind (offset : Nat) (lexemes : List Lexeme) : Prop :=
  ∀ before s after, lexemes = before ++ s :: after →
    s.offset = offset + byteLength (before.flatMap fun r => r.token.write ++ [' '])

theorem StandsBehind.cons
    (h : StandsBehind (offset + byteLength (t.write ++ [' '])) lexemes) :
    StandsBehind offset (⟨t, offset⟩ :: lexemes) := by
  intro before s after heq
  cases before with
  | nil =>
    cases heq
    rfl
  | cons r before =>
    rw [List.cons_append, List.cons.injEq] at heq
    obtain ⟨rfl, heq⟩ := heq
    rw [h before s after heq, List.flatMap_cons, byteLength_append _ (before.flatMap _),
      Nat.add_assoc]

/-- Written tokens with spaces between them are scanned one by one. -/
theorem exists_scanFrom_spaced (h : ∀ t ∈ ts, t.Writable a) (offset : Nat) :
    ∃ lexemes, scanFrom offset (spaced ts) = .ok lexemes ∧ lexemes.map Lexeme.token = ts ∧
      StandsBehind offset lexemes := by
  induction ts generalizing offset with
  | nil => exact ⟨[], by rw [spaced_nil, scanFrom], rfl, by simp [StandsBehind]⟩
  | cons t ts ih =>
    obtain ⟨ht, hts⟩ := List.forall_mem_cons.mp h
    obtain ⟨lexemes, hscan, hmap, hstands⟩ := ih hts (offset + byteLength (t.write ++ [' ']))
    refine ⟨⟨t, offset⟩ :: lexemes, ?_, congrArg (t :: ·) hmap, hstands.cons⟩
    cases ts with
    | nil =>
      obtain rfl := List.map_eq_nil_iff.mp hmap
      rw [spaced_singleton, ← List.append_nil t.write]
      exact scanFrom_write ht ends_nil (by rw [scanFrom])
    | cons u ts =>
      rw [spaced_cons]
      refine scanFrom_write ht (ends_cons ⟨rfl, by decide⟩ _) ?_
      rw [scanFrom_blank rfl]
      rwa [byteLength_append, ← Nat.add_assoc] at hscan

/-- Written tokens stay in the alphabet. -/
theorem admits_spaced (h : ∀ t ∈ ts, t.Writable a) : ∀ c ∈ spaced ts, a.admits c = true := by
  induction ts with
  | nil => nofun
  | cons t ts ih =>
    obtain ⟨ht, hts⟩ := List.forall_mem_cons.mp h
    cases ts with
    | nil =>
      rw [spaced_singleton]
      exact ht.scans.admitted
    | cons u ts =>
      rw [spaced_cons]
      exact List.forall_mem_append.mpr
        ⟨ht.scans.admitted, List.forall_mem_cons.mpr ⟨admits_of_isBlank rfl, ih hts⟩⟩

/-- **Printing tokens and scanning them again gives the same tokens**, where they stand in the new
text, as long as every number among them is finite. -/
theorem scan_spaced {text : String} (h : scan a text = .ok lexemes)
    (hfin : ∀ s ∈ lexemes, ∀ x, s.token = .number x → x.isFinite = true) :
    ∃ again, scan a (String.ofList (spaced (lexemes.map Lexeme.token))) = .ok again ∧
      again.map Lexeme.token = lexemes.map Lexeme.token ∧
      ∀ before s after, again = before ++ s :: after →
        s.offset = byteLength (before.flatMap fun r => r.token.write ++ [' ']) := by
  have hwritable : ∀ t ∈ lexemes.map Lexeme.token, t.Writable a := by
    intro t ht
    obtain ⟨s, hs, rfl⟩ := List.mem_map.mp ht
    exact ⟨proper_of_scan h s hs, hfin s hs⟩
  obtain ⟨again, hscan, hmap, hstands⟩ := exists_scanFrom_spaced hwritable 0
  refine ⟨again, ?_, hmap, fun before s after heq => ?_⟩
  · have hpermits : a.permits (spaced (lexemes.map Lexeme.token)) = true :=
      List.all_eq_true.mpr (admits_spaced hwritable)
    rw [scan, String.toList_ofList, if_pos hpermits, hscan]
  · rw [hstands before s after heq, Nat.zero_add]

/-- An exponent is written out, a number with a bare point gets its zero, and a number does not run
into the name behind it. -/
theorem scan_spaced_exponent :
    let lexemes : List Lexeme := [⟨.number (Decimal.toFloat ⟨2, 3⟩), 0⟩,
      ⟨.number (Decimal.toFloat ⟨5, -1⟩), 3⟩, ⟨.name "E", 5⟩, ⟨.operator .percent, 6⟩]
    scan .scientific "2e3.5E%" = .ok lexemes ∧
      spaced (lexemes.map Lexeme.token) = "2000 0.5 E %".toList ∧
      ∃ again, scan .scientific "2000 0.5 E %" = .ok again ∧
        again.map Lexeme.token = lexemes.map Lexeme.token := by
  intro lexemes
  have h : scan .scientific "2e3.5E%" = .ok lexemes := by
    with_unfolding_all rfl
  have hspaced : spaced (lexemes.map Lexeme.token) = "2000 0.5 E %".toList := by
    with_unfolding_all rfl
  have hfin : ∀ s ∈ lexemes, ∀ x, s.token = .number x → x.isFinite = true := by
    intro s hs x hx
    simp only [lexemes, List.mem_cons, List.not_mem_nil, or_false] at hs
    rcases hs with rfl | rfl | rfl | rfl <;> cases hx <;> decide +kernel
  obtain ⟨again, hagain, hmap, -⟩ := scan_spaced h hfin
  rw [hspaced] at hagain
  exact ⟨h, hspaced, again, hagain, hmap⟩

end Abacus.Token
