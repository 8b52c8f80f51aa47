import Abacus.Console.Command
import Abacus.Console.Report
import Abacus.Keypad

/-!
# What a run leaves behind

A run of the command line prints a result, or fails with a message that names what was tried and
why it failed, or is refused because its arguments make no command. The exit codes are 0, 1 and 2,
and a run that fails prints no result.

* `Outcome` is all that is seen of a run: the exit code and what was written to the two outputs.
* `run` is the whole command line as a function of its arguments. It has a value for every list of
  arguments, so there is no way to end it but these three.
* `runEval`, `runPlot`, `runMolar` are the commands that can fail. The display of the keypad cannot,
  and an entry of keys that makes no sense is a result like any other.
* A failure names the text as it was given, and for a curve the bounds; behind it stands the wording
  of the cause, from `Term.Error.message`, `Curve.Error.message` or `Formula.Error.message`.

A result is written at once, when all of it is known. Output that cannot be written, and the
messages that are logged on request, are left out. The texts of the help and of a refusal are not
those of the program word for word: they are a summary of the commands, and one line.
-/

namespace Abacus.Console

/-- An exit code and what was written to the two outputs. -/
structure Outcome where
  code : Nat
  stdout : String
  stderr : String
deriving DecidableEq, Repr

namespace Outcome

/-- A result was printed. -/
def printed (text : String) : Outcome := ⟨0, text, ""⟩

/-- A result was printed as a line. -/
def line (text : String) : Outcome := printed (text ++ "\n")

/-- What was tried, and why it failed. -/
def failed (attempt cause : String) : Outcome :=
  ⟨1, "", s!"Error: {attempt}\n\nCaused by:\n    {cause}\n"⟩

/-- The arguments make no command. -/
def refused : Outcome := ⟨2, "", "error: unusable arguments, see 'reckon --help'\n"⟩

end Outcome

/-- The version that is printed. -/
def versionText : String := "reckon 0.1.0"

/-- The summary of the commands. -/
def summary : String :=
  "Usage: reckon basic EXPRESSION\n" ++
  "       reckon eval EXPRESSION [--x NUMBER]\n" ++
  "       reckon plot EXPRESSION [--min NUMBER] [--max NUMBER] [-p, --points COUNT] [--json]\n" ++
  "       reckon molar FORMULA [--strict] [--json]\n"

/-- Prints the value of an expression. -/
def runEval (source : String) (x : Option Float) : Outcome :=
  let value := match x with
    | some x => evaluateAt source x
    | none => evaluate source
  match value with
  | .ok y => .line (plain.text y)
  | .error e => .failed s!"Failed to evaluate '{source}'" e.message

/-- Prints a curve. -/
def runPlot (source : String) (span : Span) (json : Bool) : Outcome :=
  match curve source span with
  | .ok samples =>
    if json then .line (curveJson samples).document else .printed (curveText samples)
  | .error e =>
    .failed s!"Failed to sample '{source}' over [{plain.text span.min}, {plain.text span.max}]"
      e.message

/-- Prints a molar mass. -/
def runMolar (formula : String) (mode : Matter.Mode) (json : Bool) : Outcome :=
  match Matter.MolarMass.read mode formula with
  | .ok m => if json then .line (massJson m).document else .printed (massText m)
  | .error e => .failed s!"Failed to compute molar mass of '{formula}'" e.message

/-- Runs a command. -/
def Command.run : Command → Outcome
  | .version => .line versionText
  | .help => .printed summary
  | .basic keys => .line (Keypad.display keys)
  | .eval source x => runEval source x
  | .plot source span json => runPlot source span json
  | .molar formula mode json => runMolar formula mode json

/-- Runs the command a list of arguments describes. -/
def run (arguments : List String) : Outcome :=
  match Command.read arguments with
  | some command => command.run
  | none => .refused

end Abacus.Console
