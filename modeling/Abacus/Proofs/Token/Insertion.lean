import Abacus.Proofs.Token.Writing
import Mathlib.Data.List.Forall2

/-!
# A number written in the place of a name

Every spelling of a name in a text is replaced by the digits of a number, with a space on either
side (`replaceName`). The new text is made along the cuts of the old one, so a name inside a longer
name is left alone, as is the exponent mark of a numeral.

No character of the text then runs into the digits, and none runs into another that it stood
apart from: of what the new text holds up to its next blank character, nothing is new
(`prefix_of_replaceName`). How a text is cut depends on that much of it only.

Results:
* `munch_of_reads`: what is a token there is split off, the converse of `reads_of_munch`.
* `scan_replaceName`: the new text has the tokens of the old one, with the number for the name.
  The offsets differ, so the tokens are compared one by one (`Stands`).

The number is finite and carries no sign, for its digits stand where one token stood, and a minus
sign would be a second. What a number in the place of the variable means for the value of an
expression is `Proofs/Term/Insertion`.
-/

namespace Abacus.Token

/-- The text with other characters, between spaces, in the place of each spelling of a name. -/
def replaceName (name : String) (characters cs : List Char) : List Char :=
  match cs with
  | [] => []
  | c :: rest =>
    if isBlank c then c :: replaceName name characters rest
    else
      match _h : munch (c :: rest) with
      | none => c :: rest
      | some (spelling, behind) =>
        if read? spelling = some (.name name) then
          ' ' :: characters ++ ' ' :: replaceName name characters behind
        else spelling ++ replaceName name characters behind
termination_by cs.length
decreasing_by
  · simp
  · exact munch_shorter (by assumption)
  · exact munch_shorter (by assumption)

variable {name : String} {characters cs p l rest rest' : List Char} {t : Token}

/-! ## A cut depends on what is not blank -/

/-- No character of a numeral is blank. -/
theorem not_isBlank_of_spells {d : Decimal} (h : Spells l d) : ∀ c ∈ l, isBlank c = false :=
  fun _ hc => not_isBlank_of_numeralChar (h.numeralChar hc)

/-- A spelling stays a token in front of another text that brings nothing new before its next blank
character. -/
theorem Reads.of_prefix (h : Reads l rest t)
    (hp : ∀ p, p <+: l ++ rest' → (∀ c ∈ p, isBlank c = false) → p <+: l ++ rest) :
    Reads l rest' t := by
  cases h with
  | operator op => exact .operator op
  | openParen => exact .openParen
  | closeParen => exact .closeParen
  | comma => exact .comma
  | @name c cs _ hc hcs hend =>
    refine .name hc hcs fun d hd => ?_
    by_contra hpart
    have hpart := Bool.eq_true_of_not_eq_false hpart
    -- then the name would go on in front of the first text, too
    obtain ⟨r, rfl⟩ := List.head?_eq_some_iff.mp hd
    have hpre : c :: cs ++ [d] <+: c :: cs ++ d :: r :=
      (List.prefix_append_right_inj _).mpr ⟨r, rfl⟩
    have hparts : ∀ b ∈ c :: cs ++ [d], isNamePart b = true :=
      List.forall_mem_append.mpr
        ⟨List.forall_mem_cons.mpr ⟨isNamePart_of_isNameStart hc, hcs⟩,
          List.forall_mem_cons.mpr ⟨hpart, nofun⟩⟩
    have hold := hp _ hpre fun b hb => not_isBlank_of_isNamePart (hparts b hb)
    obtain ⟨r', rfl⟩ := (List.prefix_append_right_inj _).mp hold
    rw [hend d rfl] at hpart
    cases hpart
  | number hl hmax hx =>
    exact .number hl (fun p d hpre hs => hmax p d (hp p hpre (not_isBlank_of_spells hs)) hs) hx

/-- **What is a token at the front of a text is split off**. -/
theorem munch_of_reads (h : Reads l rest t) : munch (l ++ rest) = some (l, rest) := by
  cases h with
  | operator op => exact munch_sign (t := .operator op) (by cases op <;> rfl) rest
  | openParen => exact munch_sign (t := .openParen) rfl rest
  | closeParen => exact munch_sign (t := .closeParen) rfl rest
  | comma => exact munch_sign (t := .comma) rfl rest
  | name hc hcs hend => exact munch_name hc hcs hend
  | @number _ _ d _ hl hmax =>
    have hlong := Numeral.munch_longest hl (List.prefix_append l rest)
    obtain @⟨s, digits, e, places, x, hs, he⟩ := hl
    obtain ⟨c, cs, rfl, hc, hbegins⟩ := begins_significand hs (e ++ rest)
    rw [List.append_assoc] at hlong hmax ⊢
    have happ := Numeral.munch_append (c :: cs ++ (e ++ rest))
    obtain ⟨d', hd'⟩ := Numeral.exists_spells_munch hbegins
    have hshort := hmax _ d' ⟨_, happ⟩ hd'
    obtain ⟨hfirst, hrest⟩ := List.append_inj (happ.trans (List.append_assoc _ _ _).symm)
      (Nat.le_antisymm hshort hlong)
    rw [List.cons_append, munch, (numeral_head hc).1, Option.isSome_none,
      if_neg Bool.false_ne_true, if_pos hbegins]
    exact congrArg some (Prod.ext hfirst hrest)

/-! ## The new text -/

theorem replaceName_of_munch {c : Char} (hc : isBlank c = false)
    (hm : munch (c :: cs) = some (l, rest)) :
    replaceName name characters (c :: cs) =
      if read? l = some (.name name) then
        ' ' :: characters ++ ' ' :: replaceName name characters rest
      else l ++ replaceName name characters rest := by
  rw [replaceName, hc, if_neg Bool.false_ne_true]
  split
  · rename_i hnone
    rw [hm] at hnone
    cases hnone
  · rename_i l' rest' hsome
    rw [hm] at hsome
    cases hsome
    rfl

/-- Nothing stands in front of a blank character with which a text begins. -/
theorem eq_nil_of_prefix {c : Char} (hc : isBlank c = true) (hp : p <+: c :: cs)
    (hb : ∀ c ∈ p, isBlank c = false) : p = [] := by
  cases p with
  | nil => rfl
  | cons d p =>
    obtain rfl := (List.cons_prefix_cons.mp hp).1
    rw [hb d List.mem_cons_self] at hc
    cases hc

/-- **What the new text begins with, up to a blank character, the old text begins with.** -/
theorem prefix_of_replaceName (hp : p <+: replaceName name characters cs)
    (hb : ∀ c ∈ p, isBlank c = false) : p <+: cs := by
  fun_induction replaceName name characters cs generalizing p with
  | case1 => exact hp
  | case2 c rest hblank ih => exact eq_nil_of_prefix hblank hp hb ▸ List.nil_prefix
  | case3 c rest hblank hm => exact hp
  | case4 c rest hblank spelling behind hm hname ih =>
    -- the new text begins with the space in front of the digits
    exact eq_nil_of_prefix rfl hp hb ▸ List.nil_prefix
  | case5 c rest hblank spelling behind hm hname ih =>
    rw [← munch_append hm]
    rcases List.prefix_or_prefix_of_prefix hp (List.prefix_append spelling _) with hle | ⟨q, rfl⟩
    · exact hle.trans (List.prefix_append _ _)
    · rw [List.prefix_append_right_inj] at hp ⊢
      have hq : ∀ c ∈ q, isBlank c = false := fun c hc => hb c (List.mem_append_right _ hc)
      exact ih hp hq

theorem mem_replaceName {c : Char} (h : c ∈ replaceName name characters cs) :
    c ∈ cs ∨ c = ' ' ∨ c ∈ characters := by
  fun_induction replaceName name characters cs with
  | case1 => exact .inl h
  | case2 b rest hblank ih =>
    rcases List.mem_cons.mp h with rfl | h
    · exact .inl List.mem_cons_self
    · exact (ih h).imp_left (List.mem_cons_of_mem _)
  | case3 b rest hblank hm => exact .inl h
  | case4 b rest hblank spelling behind hm hname ih =>
    rw [← munch_append hm]
    rcases List.mem_append.mp h with h | h <;> rcases List.mem_cons.mp h with rfl | h
    · exact .inr (.inl rfl)
    · exact .inr (.inr h)
    · exact .inr (.inl rfl)
    · exact (ih h).imp_left (List.mem_append_right _)
  | case5 b rest hblank spelling behind hm hname ih =>
    rw [← munch_append hm]
    rcases List.mem_append.mp h with h | h
    · exact .inl (List.mem_append_left _ h)
    · exact (ih h).imp_left (List.mem_append_right _)

/-- The second lexeme holds the number where the first holds the name, and the same otherwise. -/
def Stands (name : String) (x : Float) (s s' : Lexeme) : Prop :=
  s'.token = if s.token = .name name then .number x else s.token

/-- Digits between spaces are scanned as the number. -/
theorem scanFrom_spaced {x : Float} (hfin : x.isFinite = true) (hx : Double.Unsigned x)
    {offset : Nat} {lexemes : List Lexeme}
    (h : scanFrom (offset + 1 + byteLength (plain.write x) + 1) cs = .ok lexemes) :
    scanFrom offset (' ' :: plain.write x ++ ' ' :: cs) =
      .ok (⟨.number x, offset + 1⟩ :: lexemes) := by
  have hnumber : Writable .scientific (.number x) := by
    refine ⟨hx, fun y hy => ?_⟩
    cases hy
    exact hfin
  exact (scanFrom_blank rfl _ _).trans
    (scanFrom_write hnumber (ends_cons ⟨rfl, by decide⟩ cs) ((scanFrom_blank rfl _ _).trans h))

/-- What is a token in the old text and not the name is scanned as the same token in the new. -/
theorem scanFrom_kept {c : Char} (hc : isBlank c = false) (hm : munch (c :: cs) = some (l, rest))
    (ht : read? l = some t) (hnew : replaceName name characters (c :: cs) =
      l ++ replaceName name characters rest) {offset : Nat} {lexemes : List Lexeme}
    (h : scanFrom (offset + byteLength l) (replaceName name characters rest) = .ok lexemes) :
    scanFrom offset (l ++ replaceName name characters rest) = .ok (⟨t, offset⟩ :: lexemes) := by
  obtain ⟨hne, hreads⟩ := reads_of_munch hm ht
  have happ := munch_append hm
  -- a longer token here would hold no blank character, and the old text would begin with it, too
  have hmunch : munch (l ++ replaceName name characters rest) =
      some (l, replaceName name characters rest) :=
    munch_of_reads (hreads.of_prefix fun p hp hb => happ ▸ prefix_of_replaceName (hnew ▸ hp) hb)
  obtain ⟨d, l, rfl⟩ := List.exists_cons_of_ne_nil hne
  obtain rfl := (List.cons.inj happ).1
  exact scanFrom_of_munch hmunch ht hc h

/-- From any offset the new text has the tokens of the old one, with the number for the name. -/
theorem scanFrom_replaceName {x : Float} (hfin : x.isFinite = true) (hx : Double.Unsigned x)
    {offset : Nat} {lexemes : List Lexeme} (h : scanFrom offset cs = .ok lexemes) (offset' : Nat) :
    ∃ lexemes', scanFrom offset' (replaceName name (plain.write x) cs) = .ok lexemes' ∧
      List.Forall₂ (Stands name x) lexemes lexemes' := by
  -- along the scan of the old text; the digits move what follows, so the offset is free
  fun_induction scanFrom offset cs generalizing lexemes offset' with
  | case1 offset =>
    cases h
    exact ⟨[], by rw [replaceName, scanFrom], .nil⟩
  | case2 offset c rest hblank ih =>
    obtain ⟨lexemes', hscan, hall⟩ := ih h (offset' + c.utf8Size)
    refine ⟨lexemes', ?_, hall⟩
    rw [replaceName, if_pos hblank, scanFrom_blank hblank]
    exact hscan
  | case3 => cases h
  | case4 => cases h
  | case5 offset c rest hblank l behind hm t ht ih =>
    obtain ⟨lexemes, hrest, h⟩ := Except.bind_eq_ok.mp h
    cases h
    have hblank := eq_false_of_ne_true hblank
    have hnew : replaceName name (plain.write x) (c :: rest) = _ := replaceName_of_munch hblank hm
    by_cases hname : t = .name name
    · subst hname
      rw [if_pos ht] at hnew
      obtain ⟨lexemes', hscan, hall⟩ := ih hrest (offset' + 1 + byteLength (plain.write x) + 1)
      have hnumber := scanFrom_spaced hfin hx hscan
      have hstands : Stands name x ⟨.name name, offset⟩ ⟨.number x, offset' + 1⟩ :=
        (if_pos rfl).symm
      exact ⟨_, hnew ▸ hnumber, .cons hstands hall⟩
    · have hkept : read? l ≠ some (.name name) := fun h => hname (Option.some.inj (ht.symm.trans h))
      rw [if_neg hkept] at hnew
      obtain ⟨lexemes', hscan, hall⟩ := ih hrest (offset' + byteLength l)
      have hstands : Stands name x ⟨t, offset⟩ ⟨t, offset'⟩ := (if_neg hname).symm
      exact ⟨_, hnew ▸ scanFrom_kept hblank hm ht hnew hscan, .cons hstands hall⟩

/-- **The new text has the tokens of the old one, with the number for the name.** -/
theorem scan_replaceName {a : Alphabet} {text : String} {lexemes : List Lexeme} {x : Float}
    (h : scan a text = .ok lexemes) (hfin : x.isFinite = true) (hx : Double.Unsigned x) :
    ∃ lexemes', scan a (String.ofList (replaceName name (plain.write x) text.toList)) =
        .ok lexemes' ∧ List.Forall₂ (Stands name x) lexemes lexemes' := by
  unfold scan at h ⊢
  split at h
  · rename_i hpermits
    have hnew : a.permits (replaceName name (plain.write x) text.toList) = true := by
      refine List.all_eq_true.mpr fun c hc => ?_
      rcases mem_replaceName hc with hc | rfl | hc
      · exact List.all_eq_true.mp hpermits c hc
      · exact admits_of_isBlank rfl
      · exact (Scans.number hfin hx).admitted c hc
    rw [String.toList_ofList, if_pos hnew]
    exact scanFrom_replaceName hfin hx h 0
  · cases h

end Abacus.Token
