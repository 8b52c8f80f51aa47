import Abacus.Decimal.Layout

/-!
# Indented JSON

The values the command line writes as JSON, and their written form: one item or field a line, two
blanks for each level, nothing between the brackets of an empty list. A number that is not finite
is `null`, which for a curve means a gap.

* `Json` has the values that are written: doubles, counts, texts, lists, and records with their
  fields in order. There is no value for true and false, and `null` is written and has no value of
  its own.
* `numberLayout` is how a double is written: positional from `1e-5` up to `1e16`, with an exponent
  beyond, with the fewest digits that read back, and with `.0` on integers, so that a double never
  looks like a count.
* `quote` escapes quotes, backslashes and control characters; all other characters stand for
  themselves, also those outside ASCII.
* `document` is the written form of a whole value, without a line end behind it.

Values are trees, so `write` goes with a function for lists and one for fields, and an induction on
values does too. That every document reads back is `Proofs/Console/Document`, with a reader of JSON
of its own in `Proofs/Console/Reader`.
-/

namespace Abacus.Console

/-- A JSON value. -/
inductive Json where
  | number (x : Float)
  | count (n : Nat)
  | text (s : String)
  | list (items : List Json)
  | record (fields : List (String × Json))

namespace Json

/-- Numbers are positional from `1e-5` up to `1e16`, integers with `.0`; a tie goes to the even
digit. -/
def numberLayout : Layout := ⟨some (-5, 15), true, .toEven⟩

/-- A number, or `null` where it is not finite. -/
def writeNumber (x : Float) : List Char :=
  if x.isFinite then numberLayout.write x else ['n', 'u', 'l', 'l']

/-- A character inside quotes: quotes, backslashes and control characters are escaped. -/
def escape (c : Char) : List Char :=
  match c with
  | '"' => ['\\', '"']
  | '\\' => ['\\', '\\']
  | '\n' => ['\\', 'n']
  | '\r' => ['\\', 'r']
  | '\t' => ['\\', 't']
  | '\x08' => ['\\', 'b']
  | '\x0c' => ['\\', 'f']
  | c =>
    if c.toNat < 0x20 then
      ['\\', 'u', '0', '0', Nat.digitChar (c.toNat / 16), Nat.digitChar (c.toNat % 16)]
    else [c]

/-- A text in quotes. -/
def quote (s : String) : List Char := '"' :: s.toList.flatMap escape ++ ['"']

/-- A line end and the blanks of a level. -/
def newline (level : Nat) : List Char := '\n' :: List.replicate (2 * level) ' '

/-- Written items between brackets, each on a line of the next level. -/
def enclose (opening closing : Char) (level : Nat) (items : List (List Char)) : List Char :=
  match items with
  | [] => [opening, closing]
  | first :: rest =>
    opening :: newline (level + 1) ++ first ++
      rest.flatMap (fun item => ',' :: newline (level + 1) ++ item) ++ newline level ++ [closing]

mutual

/-- The written form of a value that stands on a level. -/
def write (level : Nat) : Json → List Char
  | .number x => writeNumber x
  | .count n => Nat.toDigits 10 n
  | .text s => quote s
  | .list items => enclose '[' ']' level (writeItems (level + 1) items)
  | .record fields => enclose '\x7b' '\x7d' level (writeFields (level + 1) fields)

/-- The written forms of the items of a list. -/
def writeItems (level : Nat) : List Json → List (List Char)
  | [] => []
  | item :: items => write level item :: writeItems level items

/-- The written forms of the fields of a record. -/
def writeFields (level : Nat) : List (String × Json) → List (List Char)
  | [] => []
  | (name, value) :: fields =>
    (quote name ++ [':', ' '] ++ write level value) :: writeFields level fields

end

/-- The written form of a whole document. -/
def document (j : Json) : String := String.ofList (j.write 0)

end Json

end Abacus.Console
