import Abacus.Decimal.Numeral
import Abacus.Text.Blank
import Abacus.Text.Offset

/-!
# The pieces of a formula

A formula is cut from the left into element symbols with their counts, parentheses with the
multiplier of the group they close, and whatever else it holds. Reading a formula is split at this
point: pieces know nothing of groups, modes or bounds, and whoever counts them sees no characters.

* A symbol is a capital letter and a small letter behind it, if there is one. A third letter is none
  of its own, so `Hel` is a symbol and a character of no formula.
* A count or a multiplier may be missing and is one then. Blank characters may stand before it.
  Where there are blank characters and no count behind them they belong to the piece all the same,
  to no effect.
* Digits behind neither a symbol nor a closing parenthesis are a count of nothing.
* The letters and digits are those of ASCII. Any other character, of whatever length, is noise.

Counts are natural numbers without a bound. That they are refused above `maxCount` is the affair of
`Matter/Formula`.

* `Piece.munch` splits a piece off a text that does not begin blank; `munch_append` says that it
  loses nothing, and `munch_shorter` that it moves on.
* `Piece.scan` cuts a whole text. It never fails, since what belongs to no element or group is a
  piece too. An offset is the number of bytes before the piece.
-/

namespace Abacus.Matter

/-- What a formula is made of. -/
inductive Piece where
  /-- an element and how many atoms of it -/
  | atoms (symbol : String) (count : Nat)
  | openParen
  /-- the end of a group and how many times the group is taken -/
  | closeParen (multiplier : Nat)
  /-- a count of nothing: digits after neither an element nor a group -/
  | strayCount (value : Nat)
  /-- a character that belongs to no formula -/
  | noise (char : Char)
deriving DecidableEq, Repr

/-- A piece and the offset at which it begins. -/
structure Placed where
  piece : Piece
  offset : Nat
deriving DecidableEq, Repr

namespace Piece

/-- The letters of the symbol that begins with a capital: one small letter belongs to it. -/
def munchSymbol (capital : Char) : List Char → List Char × List Char
  | [] => ([capital], [])
  | c :: rest => if c.isLower then ([capital, c], rest) else ([capital], c :: rest)

/-- Splits a count off, with the blank characters before it. -/
def munchCount (cs : List Char) : List Char × List Char :=
  let digits := cs.dropWhile isBlank
  (cs.takeWhile isBlank ++ digits.takeWhile Char.isDigit, digits.dropWhile Char.isDigit)

/-- The value of a count; without digits it is one. -/
def countOf (spelling : List Char) : Nat := (readDigits? (spelling.dropWhile isBlank)).getD 1

/-- Splits off the piece that begins with a character: the piece, its spelling, and the rest. -/
def munch (c : Char) (cs : List Char) : Piece × List Char × List Char :=
  if c.isUpper then
    let (symbol, behind) := munchSymbol c cs
    let (count, rest) := munchCount behind
    (.atoms (String.ofList symbol) (countOf count), symbol ++ count, rest)
  else if c = '(' then (.openParen, [c], cs)
  else if c = ')' then
    let (count, rest) := munchCount cs
    (.closeParen (countOf count), c :: count, rest)
  else if c.isDigit then
    let digits := c :: cs.takeWhile Char.isDigit
    (.strayCount (countOf digits), digits, cs.dropWhile Char.isDigit)
  else (.noise c, [c], cs)

theorem munchSymbol_append (c : Char) (cs : List Char) :
    (munchSymbol c cs).1 ++ (munchSymbol c cs).2 = c :: cs := by
  unfold munchSymbol
  split
  · rfl
  · split <;> rfl

theorem munchCount_append (cs : List Char) : (munchCount cs).1 ++ (munchCount cs).2 = cs := by
  simp [munchCount, List.append_assoc, List.takeWhile_append_dropWhile]

/-- Nothing is lost between the spelling and the rest. -/
theorem munch_append (c : Char) (cs : List Char) :
    (munch c cs).2.1 ++ (munch c cs).2.2 = c :: cs := by
  unfold munch
  split
  · simp only [List.append_assoc, munchCount_append, munchSymbol_append]
  · split
    · rfl
    · split
      · simp only [List.cons_append, munchCount_append]
      · split
        · simp only [List.cons_append, List.takeWhile_append_dropWhile]
        · rfl

/-- A spelling holds at least one character, so the rest is not longer. -/
theorem munch_shorter (c : Char) (cs : List Char) :
    (munch c cs).2.2.length < (c :: cs).length := by
  have hne : (munch c cs).2.1 ≠ [] := by
    unfold munch
    split
    · simp only [ne_eq, List.append_eq_nil_iff, not_and]
      intro h
      have := congrArg List.length h
      unfold munchSymbol at this
      split at this
      · simp at this
      · split at this <;> simp at this
    · split
      · simp
      · split
        · simp
        · split <;> simp
  have hl := congrArg List.length (munch_append c cs)
  have := List.length_pos_iff.mpr hne
  simp only [List.length_append] at hl
  omega

/-- The pieces of a text that starts at an offset. -/
def scanFrom (offset : Nat) (cs : List Char) : List Placed :=
  match cs with
  | [] => []
  | c :: rest =>
    if isBlank c then scanFrom (offset + c.utf8Size) rest
    else
      ⟨(munch c rest).1, offset⟩ ::
        scanFrom (offset + byteLength (munch c rest).2.1) (munch c rest).2.2
termination_by cs.length
decreasing_by
  · simp
  · exact munch_shorter c rest

/-- The pieces of a text. -/
def scan (text : String) : List Placed := scanFrom 0 text.toList

end Piece

end Abacus.Matter
