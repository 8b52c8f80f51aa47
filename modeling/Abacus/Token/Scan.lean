import Abacus.Term.Error
import Abacus.Token.Alphabet
import Abacus.Decimal.Numeral
import Abacus.Text.Offset

/-!
# From characters to tokens

A text is first checked against an alphabet, then cut into the longest spellings from the left, with
blank characters between them skipped. The work is split in two, so that what a token is can be
told from where it ends:

* `Token.munch` splits the longest spelling off a text that does not begin blank. A sign is one
  character; a name goes on as long as letters, digits and underscores do; and what begins with a
  digit, or with a point before a digit, is the longest numeral.
* `Token.read?` is the token with a spelling.
* `Token.scan` puts both together and keeps the offsets.

`scanFrom` recurses on what is left, which gets shorter because no spelling is empty. It can fail in
two ways. A character of the alphabet may begin no token, which is possible for the point alone. And
a spelling may have no meaning, which is provided for and never happens: that `munch` splits off
only what `read?` reads is `Proofs/Token/Failure`.

Results:
* `munch_append`: nothing is lost between a spelling and the rest.
* `munch_shorter`: the scanner always moves on.

What a scanned text looks like is `Proofs/Token/Splitting`. A scanner that works on bytes and an
offset, with every access checked, is `Proofs/Faultless/Scanner`; it finds the same tokens.
-/

namespace Abacus

/-- A letter or underscore, with which a name begins. -/
def isNameStart (c : Char) : Bool := c.isAlpha || c == '_'

/-- A letter, digit or underscore, with which a name goes on. -/
def isNamePart (c : Char) : Bool := c.isAlphanum || c == '_'

namespace Token

/-- The token that is a single sign. -/
def ofSign? (c : Char) : Option Token :=
  match c with
  | '(' => some .openParen
  | ')' => some .closeParen
  | ',' => some .comma
  | c => (Operator.ofSign? c).map .operator

/-- Splits the longest spelling of a token off the text, none if no token begins there. -/
def munch (cs : List Char) : Option (List Char × List Char) :=
  match cs with
  | [] => none
  | c :: rest =>
    if (ofSign? c).isSome then some ([c], rest)
    else if Numeral.begins (c :: rest) then some (Numeral.munch (c :: rest))
    else if isNameStart c then some (c :: rest.takeWhile isNamePart, rest.dropWhile isNamePart)
    else none

/-- The token with this spelling. -/
def read? (spelling : List Char) : Option Token :=
  match spelling with
  | [] => none
  | c :: cs =>
    if isNameStart c then
      if cs.all isNamePart then some (.name (String.ofList (c :: cs))) else none
    else if cs = [] ∧ (ofSign? c).isSome then ofSign? c
    else (Decimal.read? (c :: cs)).map fun d => .number d.toFloat

/-- Nothing is lost between the spelling and the rest. -/
theorem munch_append {cs spelling rest : List Char} (h : munch cs = some (spelling, rest)) :
    spelling ++ rest = cs := by
  unfold munch at h
  split at h
  · simp at h
  · rename_i c cs
    split at h
    · simp only [Option.some.injEq, Prod.mk.injEq] at h
      simp [← h.1, ← h.2]
    · split at h
      · have := Numeral.munch_append (c :: cs)
        rw [Option.some.injEq] at h
        rw [h] at this
        exact this
      · split at h
        · simp only [Option.some.injEq, Prod.mk.injEq] at h
          simp [← h.1, ← h.2, List.takeWhile_append_dropWhile]
        · simp at h

/-- A spelling holds at least one character, so the rest is shorter. -/
theorem munch_shorter {cs spelling rest : List Char} (h : munch cs = some (spelling, rest)) :
    rest.length < cs.length := by
  unfold munch at h
  split at h
  · simp at h
  · rename_i c cs
    split at h
    · simp only [Option.some.injEq, Prod.mk.injEq] at h
      simp [← h.2]
    · split at h
      · rename_i hb
        have := Numeral.munch_shorter hb
        rw [Option.some.injEq] at h
        rw [h] at this
        exact this
      · split at h
        · simp only [Option.some.injEq, Prod.mk.injEq] at h
          have := (List.dropWhile_sublist isNamePart (l := cs)).length_le
          simp only [← h.2, List.length_cons]
          omega
        · simp at h

/-- The tokens of a text that starts at an offset. -/
def scanFrom (offset : Nat) (cs : List Char) : Except Term.Error (List Lexeme) :=
  match cs with
  | [] => .ok []
  | c :: rest =>
    if isBlank c then scanFrom (offset + c.utf8Size) rest
    else
      match _h : munch (c :: rest) with
      | none => .error (.unexpectedCharacter c offset)
      | some (spelling, behind) =>
        match read? spelling with
        | none => .error (.invalidNumber (String.ofList spelling) offset)
        | some token => do
          let lexemes ← scanFrom (offset + byteLength spelling) behind
          .ok (⟨token, offset⟩ :: lexemes)
termination_by cs.length
decreasing_by
  · simp
  · exact munch_shorter (by assumption)

/-- The tokens of a text written in an alphabet. -/
def scan (alphabet : Alphabet) (text : String) : Except Term.Error (List Lexeme) :=
  if alphabet.permits text.toList then scanFrom 0 text.toList else .error .unsupportedCharacters

end Token

end Abacus
