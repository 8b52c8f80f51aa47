import Abacus.Term.Evaluation
import Abacus.Term.Parser

/-!
# Entries

What a text is once it has been read. An entry is an expression kept with its text and with the
variable it was read in, so that it can be evaluated at one number after another without being read
again. A curve holds its expression in this form, and so does the keypad.

* `Entry.read` reads a text in a dialect: an alphabet, and a free variable or none. It fails for
  the causes of `Term.parse` and for no other.
* `Entry.evaluate` binds nothing. It fails on an entry in which the variable occurs, also where the
  entry was read in that variable.
* `Entry.evaluateAt` binds the variable the entry was read in. On an entry without a variable it
  makes no use of the number.
* `evaluate` and `evaluateAt` read a text and evaluate it in one go, in the scientific alphabet and
  with `x` for the variable. These are the command `eval` without and with a number for `x`.

An entry holds a term and never a value, so evaluating it twice is doing the same twice. Its three
fields belong together only because `read` is what makes it. What is known of entries that were
read is in `Proofs/Term/Faults` (`Entry.evaluate_of_read`): they have a value at every number.

Left out are the tracing of what is read, and the comparison of two entries, of which nothing here
makes use.
-/

namespace Abacus

/-- A text, the term it was read as, and the free variable it was read in. -/
structure Entry where
  source : String
  term : Term
  free : Option String

namespace Entry

/-- Reads a text in a dialect. -/
def read (d : Dialect) (source : String) : Except Term.Error Entry := do
  let term ← Term.parse d source
  .ok ⟨source, term, d.free⟩

/-- The value with nothing bound. -/
def evaluate (e : Entry) : Except Term.Error Float := e.term.evaluate none

/-- The value with the free variable, if there is one, bound to a number. -/
def evaluateAt (e : Entry) (x : Float) : Except Term.Error Float :=
  e.term.evaluate (e.free.map fun name => (name, x))

end Entry

/-- The value of a text without a variable. -/
def evaluate (source : String) : Except Term.Error Float := do
  let t ← Term.parse .scientific source
  t.evaluate none

/-- The name of the variable of curves and of values at a point. -/
def abscissa : String := "x"

/-- The value of a text in the variable `x` at a number. -/
def evaluateAt (source : String) (x : Float) : Except Term.Error Float := do
  let t ← Term.parse (.inVariable abscissa) source
  t.evaluate (some (abscissa, x))

end Abacus
