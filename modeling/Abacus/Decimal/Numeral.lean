import Abacus.Decimal.Basic
import Abacus.Double.Exact

/-!
# Numerals

A numeral is `digits`, `digits.`, `digits.digits` or `.digits`, with an exponent `e` or `E`, a
sign and digits behind it if there is one. Expressions have numerals in them, and the command line
takes signed ones for the bounds of a curve and for a value of `x`.

* `Decimal.read?` reads a whole text as a numeral and says which decimal it is. No numeral is too
  long or has too large an exponent.
* `Numeral.munch` splits the longest numeral off a text that begins with one. An exponent needs a
  digit, so of `2e` only `2` is a numeral, and of `2.e3` all is. It does not ask what the numeral
  means.
* `Double.read?` reads a signed number, and the names of NaN and the infinities in any case. In an
  expression there are no such names, and no sign that belongs to a number.
* `readDigits?` reads a count. Digits are those of ASCII.

Results:
* `munch_append`: nothing is lost between a numeral and the rest.
* `munch_shorter`: where a numeral begins, it is not empty.

The grammar of numerals, without a reader, is in `Proofs/Token/Numeral`, where both functions are
proved to keep to it.
-/

namespace Abacus

/-- The value of a text of digits, none for any other text. -/
def readDigits? (cs : List Char) : Option Nat :=
  if cs ≠ [] ∧ cs.all Char.isDigit = true then some (Nat.ofDigitChars 10 cs 0) else none

/-- The letter in front of an exponent. -/
def isExponentMark (c : Char) : Bool := c == 'e' || c == 'E'

/-- A sign in front of digits: whether it is a minus, and what follows it. -/
def splitSign : List Char → Bool × List Char
  | '-' :: cs => (true, cs)
  | '+' :: cs => (false, cs)
  | cs => (false, cs)

/-- The value of an exponent part; zero if there is none. -/
def readExponent? : List Char → Option Int
  | [] => some 0
  | c :: cs =>
    if isExponentMark c then
      let (minus, digits) := splitSign cs
      (readDigits? digits).map fun n => if minus then -(n : Int) else n
    else none

/-- Reads a whole text as a numeral. -/
def Decimal.read? (cs : List Char) : Option Decimal :=
  let whole := cs.takeWhile Char.isDigit
  let (places, rest) := match cs.dropWhile Char.isDigit with
    | '.' :: cs => (cs.takeWhile Char.isDigit, cs.dropWhile Char.isDigit)
    | cs => ([], cs)
  if whole ++ places = [] then none
  else (readExponent? rest).map fun e =>
    ⟨Nat.ofDigitChars 10 (whole ++ places) 0, e - places.length⟩

namespace Numeral

/-- A numeral begins here: a digit, or a point with a digit behind it. -/
def begins : List Char → Bool
  | '.' :: c :: _ => c.isDigit
  | c :: _ => c.isDigit
  | [] => false

/-- Splits off a point and the digits behind it, if there is a point. -/
def munchPlaces : List Char → List Char × List Char
  | '.' :: cs => ('.' :: cs.takeWhile Char.isDigit, cs.dropWhile Char.isDigit)
  | cs => ([], cs)

/-- Splits off a sign, if there is one. -/
def munchSign : List Char → List Char × List Char
  | '-' :: cs => (['-'], cs)
  | '+' :: cs => (['+'], cs)
  | cs => ([], cs)

/-- Splits off an exponent; without a digit in it the letter belongs to what follows. -/
def munchExponent : List Char → List Char × List Char
  | [] => ([], [])
  | c :: cs =>
    let (sign, behind) := munchSign cs
    let digits := behind.takeWhile Char.isDigit
    if isExponentMark c && !digits.isEmpty then
      (c :: sign ++ digits, behind.dropWhile Char.isDigit)
    else ([], c :: cs)

/-- Splits the longest numeral off a text that begins with one. -/
def munch (cs : List Char) : List Char × List Char :=
  let whole := cs.takeWhile Char.isDigit
  let (places, rest) := munchPlaces (cs.dropWhile Char.isDigit)
  let (exponent, rest) := munchExponent rest
  (whole ++ places ++ exponent, rest)

theorem munchPlaces_append (cs : List Char) :
    (munchPlaces cs).1 ++ (munchPlaces cs).2 = cs := by
  unfold munchPlaces
  split <;> simp [List.takeWhile_append_dropWhile]

theorem munchSign_append (cs : List Char) : (munchSign cs).1 ++ (munchSign cs).2 = cs := by
  unfold munchSign
  split <;> simp

theorem munchExponent_append (cs : List Char) :
    (munchExponent cs).1 ++ (munchExponent cs).2 = cs := by
  cases cs with
  | nil => rfl
  | cons c cs =>
    have h := munchSign_append cs
    simp only [munchExponent]
    split
    · simp only [List.cons_append, List.append_assoc, List.takeWhile_append_dropWhile, h]
    · rfl

/-- Nothing is lost between the numeral and the rest. -/
theorem munch_append (cs : List Char) : (munch cs).1 ++ (munch cs).2 = cs := by
  simp only [munch, List.append_assoc, munchExponent_append, munchPlaces_append,
    List.takeWhile_append_dropWhile]

/-- Where a numeral begins, the rest is shorter. -/
theorem munch_shorter {cs : List Char} (h : begins cs = true) :
    (munch cs).2.length < cs.length := by
  have hne : (munch cs).1 ≠ [] := by
    unfold begins at h
    split at h
    · simp [munch, munchPlaces, Char.isDigit]
    · simp [munch, h]
    · simp at h
  have hl := congrArg List.length (munch_append cs)
  have := List.length_pos_iff.mpr hne
  simp only [List.length_append] at hl
  omega

end Numeral

/-- Reads a signed number; NaN and the infinities by name, in any case. -/
def Double.read? (s : String) : Option Float :=
  let (minus, body) := splitSign s.toList
  let value? : Option Float := match String.ofList (body.map Char.toLower) with
    | "inf" | "infinity" => some Double.infinity
    | "nan" => some Double.nan
    | _ => (Decimal.read? body).map Decimal.toFloat
  value?.map fun x => if minus then -x else x

end Abacus
