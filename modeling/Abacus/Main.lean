import Abacus.Console.Outcome

/-!
# The command line

The program itself: the only module that reads arguments and writes output. `Console.run` says what
is written, and here it is written.
-/

/-- Runs the arguments, writes both outputs and ends with the exit code. -/
def main (arguments : List String) : IO UInt32 := do
  let outcome := Abacus.Console.run arguments
  IO.print outcome.stdout
  IO.eprint outcome.stderr
  return UInt32.ofNat outcome.code
