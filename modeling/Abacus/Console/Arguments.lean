import Abacus.Decimal.Numeral

/-!
# Arguments of a command

A command takes one operand and some switches, in any order. `Synopsis` says which, and
`Synopsis.read` sorts a list of arguments by it. This is the part of an argument parser that the
commands of the program make use of, and every command is sorted by the same rules.

* `--name` is a flag or waits for a value; `--name=value` brings the value along. A letter works
  likewise: `-n value`, `-nvalue`, `-n=value`.
* After `--` everything is an operand. A single hyphen is an operand too.
* Where the operand may begin with a hyphen and has not been given yet, anything that begins with
  one and names no switch is the operand.
* A waiting switch takes no argument that begins with a hyphen, unless it is a negative number and
  the switch allows those, or it would otherwise have been the operand.
* A switch is given once at most.

An argument is looked at in three steps: `Form` is what it looks like, `Role` what part it plays for
a command that may or may not have its operand already, and `Given` what has been given so far.

Left out are abbreviated names, several letters of flags behind one hyphen, and whatever else no
command has a use for; and why arguments do not fit, since only that they do not is reported.
-/

namespace Abacus.Console

/-- The kind of value a switch takes. -/
inductive Kind where
  /-- a double -/
  | number
  /-- a natural number below `2 ^ 64` -/
  | count
deriving DecidableEq, Repr

/-- What a switch was set to. -/
inductive Value where
  /-- the flag was given -/
  | present
  | number (x : Float)
  | count (n : Nat)

/-- A natural number below `2 ^ 64`, with a plus sign in front or without. -/
def readCount? (s : String) : Option Nat :=
  let digits := match s.toList with
    | '+' :: cs => cs
    | cs => cs
  (readDigits? digits).filter fun n => n < UInt64.size

/-- The value of a text. -/
def Kind.read? : Kind → String → Option Value
  | .number, s => (Double.read? s).map .number
  | .count, s => (readCount? s).map .count

/-- A switch of a command. -/
inductive Switch where
  /-- it is given or not -/
  | flag (name : String)
  /-- it takes a value; `letter` is its short form, and `negative` says that a negative number may
  follow as an argument of its own -/
  | valued (name : String) (letter : Option Char) (kind : Kind) (negative : Bool)

/-- The name behind two hyphens. -/
def Switch.name : Switch → String
  | .flag name => name
  | .valued name _ _ _ => name

/-- The letter behind one hyphen. -/
def Switch.letter? : Switch → Option Char
  | .flag _ => none
  | .valued _ letter _ _ => letter

/-- What a command takes beside its operand, and whether the operand may begin with a hyphen. -/
structure Synopsis where
  hyphens : Bool
  switches : List Switch

/-- The operand and the switches given so far. -/
structure Given where
  operand : Option String
  settings : List (String × Value)

/-- What is asked for: the work of the command, or its help. -/
inductive Request where
  | help
  | work (given : Given)

namespace Given

/-- Nothing given yet. -/
def nothing : Given := ⟨none, []⟩

/-- Gives the operand; there is one only. -/
def setOperand? (g : Given) (s : String) : Option Given :=
  if g.operand.isNone then some { g with operand := some s } else none

/-- Sets a switch, once only. -/
def set? (g : Given) (name : String) (value : Value) : Option Given :=
  if g.settings.any fun s => s.1 == name then none
  else some { g with settings := (name, value) :: g.settings }

/-- Sets a switch to the value of a text. -/
def read? (g : Given) (name : String) (kind : Kind) (text : String) : Option Given :=
  (kind.read? text).bind (g.set? name)

/-- The value of a switch. -/
def value? (g : Given) (name : String) : Option Value :=
  (g.settings.find? fun s => s.1 == name).map Prod.snd

/-- The flag was given. -/
def isSet (g : Given) (name : String) : Bool := (g.value? name).isSome

/-- The number a switch was set to. -/
def number? (g : Given) (name : String) : Option Float :=
  match g.value? name with
  | some (.number x) => some x
  | _ => none

/-- The count a switch was set to. -/
def count? (g : Given) (name : String) : Option Nat :=
  match g.value? name with
  | some (.count n) => some n
  | _ => none

end Given

/-- Digits that may hold one point behind the first of them, and behind that an exponent without
sign. -/
def isUnsignedNumber (cs : List Char) : Bool :=
  let whole := cs.takeWhile Char.isDigit
  let behind := cs.dropWhile Char.isDigit
  let behind := match behind with
    | '.' :: rest => if whole.isEmpty then behind else rest.dropWhile Char.isDigit
    | _ => behind
  match behind with
  | [] => true
  | c :: rest => isExponentMark c && !whole.isEmpty && !rest.isEmpty && rest.all Char.isDigit

/-- The form of an argument. -/
inductive Form where
  /-- two hyphens, a name, and what stands behind a sign of equality -/
  | long (name : String) (attached : Option String)
  /-- a hyphen and at least one letter -/
  | short (letter : Char) (behind : List Char)
  /-- two hyphens alone -/
  | separator
  | plain

/-- Splits at the first sign of equality. -/
def splitEquals (cs : List Char) : String × Option String :=
  (String.ofList (cs.takeWhile (· != '=')),
    match cs.dropWhile (· != '=') with
    | [] => none
    | _ :: value => some (String.ofList value))

/-- The form of an argument. -/
def Form.of (argument : String) : Form :=
  match argument.toList with
  | ['-', '-'] => .separator
  | '-' :: '-' :: cs => let (name, attached) := splitEquals cs; .long name attached
  | '-' :: c :: cs => .short c cs
  | _ => .plain

/-- The part an argument plays. -/
inductive Role where
  | operand
  | help
  | flag (name : String)
  | setting (name : String) (kind : Kind) (text : String)
  | awaiting (name : String) (kind : Kind) (negative : Bool)
  | separator
  | unknown

namespace Synopsis

/-- The name of the switch that asks for help. -/
def helpName : String := "help"

/-- Its letter. -/
def helpLetter : Char := 'h'

/-- A switch has this letter. -/
def hasLetter (s : Synopsis) (c : Char) : Bool :=
  c == helpLetter || s.switches.any fun w => w.letter? == some c

/-- Letters that may be the operand: it is still open, and one of them is of no switch. -/
def mayBeOperand (s : Synopsis) (isOpen : Bool) (letters : List Char) : Bool :=
  isOpen && s.hyphens && letters.any fun c => !s.hasLetter c

/-- The role of a name behind two hyphens. -/
def longRole (s : Synopsis) (isOpen : Bool) (name : String) (attached : Option String) : Role :=
  if name = helpName then if attached.isNone then .help else .unknown
  else
    match s.switches.find? fun w => w.name == name with
    | some (.flag name) => if attached.isNone then .flag name else .unknown
    | some (.valued name _ kind negative) =>
      match attached with
      | some text => .setting name kind text
      | none => .awaiting name kind negative
    | none => if isOpen && s.hyphens then .operand else .unknown

/-- The role of a letter behind one hyphen; `behind` is what follows it in the argument. -/
def shortRole (s : Synopsis) (isOpen : Bool) (letter : Char) (behind : List Char) : Role :=
  if s.mayBeOperand isOpen (letter :: behind) then .operand
  else if letter = helpLetter then .help
  else
    match s.switches.find? fun w => w.letter? == some letter with
    | some (.valued name _ kind negative) =>
      match behind with
      | [] => .awaiting name kind negative
      | '=' :: text => .setting name kind (String.ofList text)
      | text => .setting name kind (String.ofList text)
    | _ => .unknown

/-- The role of an argument, as long as the operand is open or when it is not. -/
def role (s : Synopsis) (isOpen : Bool) (argument : String) : Role :=
  match Form.of argument with
  | .long name attached => s.longRole isOpen name attached
  | .short letter behind => s.shortRole isOpen letter behind
  | .separator => .separator
  | .plain => .operand

/-- A switch that waits for a value takes the argument. -/
def takes (s : Synopsis) (isOpen negative : Bool) (argument : String) : Bool :=
  match Form.of argument with
  | .long _ _ => false
  | .short letter behind =>
    (negative && isUnsignedNumber (letter :: behind)) || s.mayBeOperand isOpen (letter :: behind)
  | .separator => false
  | .plain => true

/-- Sorts the arguments that follow what was given; none if they do not fit. -/
def readFrom (s : Synopsis) (g : Given) : List String → Option Request
  | [] => some (.work g)
  | argument :: rest =>
    match s.role g.operand.isNone argument with
    | .operand => do s.readFrom (← g.setOperand? argument) rest
    | .help => some .help
    | .flag name => do s.readFrom (← g.set? name .present) rest
    | .setting name kind text => do s.readFrom (← g.read? name kind text) rest
    | .awaiting name kind negative =>
      match rest with
      | [] => none
      | text :: rest =>
        if s.takes g.operand.isNone negative text then do
          s.readFrom (← g.read? name kind text) rest
        else none
    | .separator => (rest.foldlM Given.setOperand? g).map .work
    | .unknown => none

/-- Sorts the arguments of a command; none if they do not fit. -/
def read (s : Synopsis) (arguments : List String) : Option Request :=
  s.readFrom .nothing arguments

end Synopsis

end Abacus.Console
