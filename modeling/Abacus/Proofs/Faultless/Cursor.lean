import Abacus.Text.Offset

/-!
# A cursor on bytes

A text can be read with nothing but the number of bytes before the cursor. Characters take up to
four bytes, so not every number is a place in the text: the text behind the cursor is defined on a
boundary of characters that is not past the end, and nowhere else. Here every operation looks
whether the number is such a place, and has no result if it is not. Neither has a loop that takes
more turns than the text has characters.

* `fromByte?`: the text behind a cursor.
* `peek?`, `peekAt?`, `advance?`, `skipWhile?`: the operations of a scanner.
* `between?`: the text between two places.

To have a result is not to have failed on the bytes. A scanner that is made of these operations has
a result only if none of them fails, on any way it takes through the text.

Results:
* `isSome_fromByte?_iff`: the places where there is a text are the valid positions of strings.
* Each operation has a lemma that says where it leads from a place that has a text behind it.

Scanners made of these operations are `Proofs/Faultless/Scanner` and `Proofs/Faultless/Formulas`.
-/

namespace Abacus.Cursor

/-- The characters behind so many bytes; none inside a character and past the end. -/
def fromByte? : Nat → List Char → Option (List Char)
  | 0, cs => some cs
  | _ + 1, [] => none
  | n + 1, c :: cs => if c.utf8Size ≤ n + 1 then fromByte? (n + 1 - c.utf8Size) cs else none

/-- The character behind the cursor. -/
def peek? (cs : List Char) (p : Nat) : Option (Option Char) := (fromByte? p cs).map List.head?

/-- The character so many characters behind that one. -/
def peekAt? (cs : List Char) (p k : Nat) : Option (Option Char) := (fromByte? p cs).map (·[k]?)

/-- Behind the next character, if there is one. -/
def advance? (cs : List Char) (p : Nat) : Option Nat := do
  match ← peek? cs p with
  | some c => some (p + c.utf8Size)
  | none => some p

/-- Behind all characters that pass a test, in so many turns. -/
def skipWithin? (test : Char → Bool) (cs : List Char) : Nat → Nat → Option Nat
  | 0, _ => none
  | n + 1, p => do
    match ← peek? cs p with
    | some c =>
      if test c then
        let q ← advance? cs p
        skipWithin? test cs n q
      else some p
    | none => some p

/-- Behind all characters that pass a test. -/
def skipWhile? (test : Char → Bool) (cs : List Char) (p : Nat) : Option Nat :=
  skipWithin? test cs (cs.length + 1) p

/-- The characters between two places, the first not behind the second. -/
def between? (cs : List Char) (p q : Nat) : Option (List Char) := do
  let behind ← fromByte? p cs
  let rest ← fromByte? q cs
  if p ≤ q then some (behind.take (behind.length - rest.length)) else none

variable {c : Char} {cs rest mid : List Char} {p : Nat} {text : String} {test : Char → Bool}

/-! ## Places -/

theorem fromByte?_zero (cs : List Char) : fromByte? 0 cs = some cs := by
  rw [fromByte?]

theorem fromByte?_append (front rest : List Char) :
    fromByte? (byteLength front) (front ++ rest) = some rest := by
  induction front with
  | nil => exact fromByte?_zero rest
  | cons c front ih =>
    have hpos := c.utf8Size_pos
    obtain ⟨n, hn⟩ : ∃ n, byteLength (c :: front) = n + 1 :=
      Nat.exists_eq_add_one.mpr (by rw [byteLength_cons]; omega)
    have hle : c.utf8Size ≤ n + 1 := by
      rw [← hn, byteLength_cons]
      exact Nat.le_add_right _ _
    rw [hn, List.cons_append, fromByte?, if_pos hle, ← hn, byteLength_cons, Nat.add_sub_cancel_left]
    exact ih

/-- There is a text behind the cursor where so many bytes are whole characters. -/
theorem fromByte?_eq_some_iff :
    fromByte? p cs = some rest ↔ ∃ front, cs = front ++ rest ∧ p = byteLength front := by
  constructor
  · intro h
    fun_induction fromByte? p cs with
    | case1 cs =>
      cases h
      exact ⟨[], rfl, rfl⟩
    | case2 => cases h
    | case3 n c cs hle ih =>
      obtain ⟨front, rfl, hn⟩ := ih h
      refine ⟨c :: front, rfl, ?_⟩
      rw [byteLength_cons, ← hn]
      omega
    | case4 => cases h
  · rintro ⟨front, rfl, rfl⟩
    exact fromByte?_append front rest

theorem length_of_fromByte? (h : fromByte? p cs = some rest) : rest.length ≤ cs.length := by
  obtain ⟨front, rfl, -⟩ := fromByte?_eq_some_iff.mp h
  rw [List.length_append]
  exact Nat.le_add_left _ _

/-- The bytes of a text are those of its characters. -/
theorem utf8ByteSize_ofList (cs : List Char) : (String.ofList cs).utf8ByteSize = byteLength cs := by
  induction cs with
  | nil => rfl
  | cons c cs ih =>
    rw [String.ofList_cons, String.utf8ByteSize_append, String.utf8ByteSize_singleton, ih]
    rfl

/-- **The places of a text are the boundaries of its characters**, the end among them. -/
theorem isSome_fromByte?_iff :
    (fromByte? p text.toList).isSome ↔ String.Pos.Raw.IsValid text ⟨p⟩ := by
  rw [Option.isSome_iff_exists, String.Pos.Raw.isValid_iff_exists_append]
  constructor
  · rintro ⟨rest, h⟩
    obtain ⟨front, htext, rfl⟩ := fromByte?_eq_some_iff.mp h
    refine ⟨String.ofList front, String.ofList rest, ?_, ?_⟩
    · rw [← String.ofList_append, ← htext, String.ofList_toList]
    · rw [String.Pos.Raw.ext_iff, String.byteIdx_rawEndPos, utf8ByteSize_ofList]
  · rintro ⟨front, rest, rfl, h⟩
    refine ⟨rest.toList, fromByte?_eq_some_iff.mpr ⟨front.toList, String.toList_append, ?_⟩⟩
    rw [← utf8ByteSize_ofList, String.ofList_toList, ← String.byteIdx_rawEndPos, ← h]

/-- Behind whole characters is a place again. -/
theorem fromByte?_add (h : fromByte? p cs = some (mid ++ rest)) :
    fromByte? (p + byteLength mid) cs = some rest := by
  obtain ⟨front, rfl, rfl⟩ := fromByte?_eq_some_iff.mp h
  rw [← byteLength_append, ← List.append_assoc]
  exact fromByte?_append _ _

theorem fromByte?_next (h : fromByte? p cs = some (c :: rest)) :
    fromByte? (p + c.utf8Size) cs = some rest := by
  have hsplit : fromByte? p cs = some ([c] ++ rest) := h
  exact fromByte?_add hsplit

/-! ## Operations -/

theorem peek?_eq (h : fromByte? p cs = some rest) : peek? cs p = some rest.head? := by
  rw [peek?, h]
  rfl

theorem peekAt?_eq (h : fromByte? p cs = some rest) (k : Nat) : peekAt? cs p k = some rest[k]? := by
  rw [peekAt?, h]
  rfl

theorem advance?_eq (h : fromByte? p cs = some (c :: rest)) :
    advance? cs p = some (p + c.utf8Size) := by
  rw [advance?, peek?_eq h]
  rfl

theorem skipWithin?_eq (test : Char → Bool) {n : Nat} (h : fromByte? p cs = some rest)
    (hn : rest.length < n) :
    skipWithin? test cs n p = some (p + byteLength (rest.takeWhile test)) := by
  induction rest generalizing p n with
  | nil =>
    obtain ⟨n, rfl⟩ := Nat.exists_eq_add_one.mpr hn
    rw [skipWithin?, peek?_eq h]
    rfl
  | cons c rest ih =>
    obtain ⟨n, rfl⟩ := Nat.exists_eq_add_one.mpr (Nat.zero_lt_of_lt hn)
    rw [skipWithin?, peek?_eq h]
    show (if test c then _ else _) = _
    by_cases htest : test c = true
    · rw [if_pos htest, advance?_eq h, List.takeWhile_cons_of_pos htest, byteLength_cons,
        ← Nat.add_assoc]
      exact ih (fromByte?_next h) (Nat.lt_of_succ_lt_succ hn)
    · rw [if_neg htest, List.takeWhile_cons_of_neg htest]
      rfl

/-- Skipping goes from one place of the text to another. -/
theorem skipWhile?_eq (test : Char → Bool) (h : fromByte? p cs = some rest) :
    skipWhile? test cs p = some (p + byteLength (rest.takeWhile test)) :=
  skipWithin?_eq test h (Nat.lt_succ_of_le (length_of_fromByte? h))

theorem fromByte?_skip (test : Char → Bool) (h : fromByte? p cs = some rest) :
    fromByte? (p + byteLength (rest.takeWhile test)) cs = some (rest.dropWhile test) := by
  rw [← List.takeWhile_append_dropWhile (p := test) (l := rest)] at h
  exact fromByte?_add h

theorem between?_eq (h : fromByte? p cs = some (mid ++ rest)) :
    between? cs p (p + byteLength mid) = some mid := by
  rw [between?, h, fromByte?_add h]
  show (if _ then some ((mid ++ rest).take ((mid ++ rest).length - rest.length)) else none) = _
  rw [if_pos (Nat.le_add_right _ _), List.length_append, Nat.add_sub_cancel, List.take_left]

end Abacus.Cursor
