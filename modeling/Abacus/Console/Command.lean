import Abacus.Console.Arguments
import Abacus.Curve
import Abacus.Matter.Formula

/-!
# Commands

What the command line can be asked to do: show keys on the keypad display, evaluate an expression,
draw a curve, compute a molar mass, or say what its version and its commands are.

* The first argument names a command, or asks for the version or for help. A name is not
  abbreviated, and no switch stands before it.
* The other arguments are sorted by the synopsis of the command. The operand of every command but
  `molar` is an expression and may begin with a hyphen, so `-2+3` needs no separator.
* `named?` makes the command. Bounds and a number of points that are not given are -10, 10 and 250;
  the mode is permissive and the output no JSON unless a flag says so.
* After `help` there may be the name of one command, and nothing else. Every command has a switch
  for help as well.
* `Command.read` is none for arguments that make no command.

Values are numbers by the time a command is made: a switch with a text that is no number makes no
command. Whether the numbers make a span, and the text an expression, is asked when it is run.
-/

namespace Abacus.Console

/-- What the command line can be asked to do. -/
inductive Command where
  | version
  | help
  /-- show an entry on the keypad display -/
  | basic (keys : String)
  /-- evaluate, in the variable `x` if there is a number for it -/
  | eval (source : String) (x : Option Float)
  /-- draw a curve, as JSON or as text -/
  | plot (source : String) (span : Span) (json : Bool)
  /-- compute a molar mass, as JSON or as a table -/
  | molar (formula : String) (mode : Matter.Mode) (json : Bool)

namespace Command

/-- The synopsis of `basic`. -/
def basicSynopsis : Synopsis := ⟨true, []⟩

/-- The synopsis of `eval`. -/
def evalSynopsis : Synopsis := ⟨true, [.valued "x" none .number true]⟩

/-- The synopsis of `plot`. -/
def plotSynopsis : Synopsis :=
  ⟨true, [.valued "min" none .number true, .valued "max" none .number true,
    .valued "points" (some 'p') .count false, .flag "json"]⟩

/-- The synopsis of `molar`. -/
def molarSynopsis : Synopsis := ⟨false, [.flag "strict", .flag "json"]⟩

/-- The bounds of a curve if none are given. -/
def defaultBounds : Float × Float := (-10, 10)

/-- The command made of an operand and switches. -/
def make? (synopsis : Synopsis) (arguments : List String) (f : Given → String → Command) :
    Option Command :=
  match synopsis.read arguments with
  | some .help => some .help
  | some (.work given) => given.operand.map (f given)
  | none => none

/-- The names a first argument may be. -/
def names : List String := ["basic", "eval", "plot", "molar", "help"]

/-- Help is asked for in general or for one command. -/
def helpOn? : List String → Option Command
  | [] => some .help
  | [name] => if names.contains name then some .help else none
  | _ => none

/-- The command that the arguments after its name describe. -/
def named? (name : String) (arguments : List String) : Option Command :=
  match name with
  | "basic" => make? basicSynopsis arguments fun _ keys => .basic keys
  | "eval" => make? evalSynopsis arguments fun given source => .eval source (given.number? "x")
  | "plot" => make? plotSynopsis arguments fun given source =>
      .plot source
        ⟨(given.number? "min").getD defaultBounds.1, (given.number? "max").getD defaultBounds.2,
          (given.count? "points").getD defaultPoints⟩
        (given.isSet "json")
  | "molar" => make? molarSynopsis arguments fun given formula =>
      .molar formula (if given.isSet "strict" then .strict else .permissive) (given.isSet "json")
  | "help" => helpOn? arguments
  | _ => none

/-- The command a whole list of arguments describes. -/
def read : List String → Option Command
  | [] => none
  | first :: rest =>
    match Form.of first with
    | .long "version" none => some .version
    | .long "help" none => some .help
    | .short 'V' _ => some .version
    | .short 'h' _ => some .help
    | .plain => named? first rest
    | _ => none

end Command

end Abacus.Console
