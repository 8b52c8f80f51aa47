import Abacus.Decimal.Fixed
import Abacus.Entry

/-!
# The keypad display

What a pocket calculator shows for the keys that were pressed: a number with at most ten decimals,
or one of two fixed texts. This is the only place where the cause of a failure is given up. Who
needs the cause reads an `Entry` and evaluates it.

* `display` is the whole of it and never fails. Blank keys show zero without being read. Keys with a
  character that is not on the keypad show `invalidInput`. Whatever else goes wrong while the keys
  are cut into tokens, read or evaluated shows `mathError`, and so does a value that is not finite.
* `shown?` is the text of a number, none if it is not finite. The exact value of the double is
  rounded to ten decimals, halves to even; the decimal is read as a double again (`rounded`), and
  that double is written with the fewest digits that read back. A zero is written without its sign,
  and no text has an exponent, so what is shown can be entered again.

The rounding to decimals is done on the exact value and not on the double times a power of ten, so
no error enters before the one rounding.

Proved elsewhere:
* `Proofs/Display`: the display says what the evaluator says, as far as two fixed texts can.
* `Proofs/Shown`: the form of a text that is shown, and which values are shown as zero.
* `Proofs/Keypad`: a text that was shown shows itself.
-/

namespace Abacus.Keypad

/-- Shown for characters that are not on the keypad. -/
def invalidInput : String := "Invalid input"

/-- Shown for what cannot be read or has no finite value. -/
def mathError : String := "Math Error"

/-- The decimals of a displayed number. -/
def places : Nat := 10

/-- The double nearest to the value rounded to the decimals of the display. -/
def rounded (v : Exact) : Float :=
  let magnitude := (Decimal.rounded places v).toFloat
  if v.negative then -magnitude else magnitude

/-- The text of a number, none if it is not finite. There is one zero, and no exponent. -/
def shown? (x : Float) : Option String :=
  (Exact.of? x).map fun v =>
    let y := rounded v
    if y == 0 then "0" else plain.text y

/-- The display for an entry of keys; blank keys show zero. -/
def display (keys : String) : String :=
  if isBlankText keys.toList then "0"
  else
    match Entry.read .keypad keys with
    | .error .unsupportedCharacters => invalidInput
    | .error _ => mathError
    | .ok e =>
      match e.evaluate with
      | .ok x => (shown? x).getD mathError
      | .error _ => mathError

end Abacus.Keypad
