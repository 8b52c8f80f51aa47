import Abacus.Double.Integral

/-!
# The catalogue of functions and constants

The only place where a name gets a meaning, beside the free variable of an expression. The
catalogue is fixed: seventeen functions of one or two arguments, and the constants `E` and `PI`.
It decides what the reader takes for a call (`ofName?`, `arity`), what it replaces by a literal
(`constant?`), and what a call comes to when a term is evaluated (`value?`).

* A function is a value of `Function`; a name finds it in the list `all`, and upper and lower case
  differ. In what kind of table the catalogue is kept makes no difference and is left out.
* `Function.action` is what a function computes. Outside their domain the functions give NaN or an
  infinity and never fail, so an action is total on doubles. The number of arguments follows from
  the action and is not written down a second time.
* `larger`, `smaller`, `power` and the rounding functions are spelled out, here and in
  `Double/Integral`, since they are not what the operations at hand give: NaN wins over a number,
  a NaN exponent wins over the base one, and `round` takes a half upward.
* All others are operations of `Float`. Nothing is said of their values: how near the sine of a
  double comes to its sine is a matter of the mathematical library underneath.

Results:
* `ofName?_name`, `name_of_ofName?`: a name finds the function that bears it, and no other.
* `value?_isSome_iff`: a function has a value exactly at as many arguments as its arity.
-/

namespace Abacus

/-- Exponentiation; a NaN exponent gives NaN, also for the base one. -/
def power (base exponent : Float) : Float :=
  if exponent.isNaN then Double.nan else base.pow exponent

/-- The larger of two doubles, the second of two equal ones; NaN if either is NaN. Zeros of
different signs are equal. -/
def larger (a b : Float) : Float :=
  if a.isNaN || b.isNaN then Double.nan else if b < a then a else b

/-- The smaller of two doubles, the second of two equal ones; NaN if either is NaN. Zeros of
different signs are equal. -/
def smaller (a b : Float) : Float :=
  if a.isNaN || b.isNaN then Double.nan else if a < b then a else b

/-- The functions of the catalogue; `log` is the natural logarithm. -/
inductive Function where
  | abs | acos | asin | atan | ceil | cos | exp | floor | log | log10 | max | min | pow | round
  | sin | sqrt | tan
deriving DecidableEq, Repr

/-- What a function computes from one or from two arguments. -/
inductive Function.Action where
  | unary (f : Float → Float)
  | binary (f : Float → Float → Float)

namespace Function

/-- The catalogue in the order of the names. -/
def all : List Function :=
  [.abs, .acos, .asin, .atan, .ceil, .cos, .exp, .floor, .log, .log10, .max, .min, .pow, .round,
   .sin, .sqrt, .tan]

/-- The name an expression calls the function by. -/
def name : Function → String
  | .abs => "abs"
  | .acos => "acos"
  | .asin => "asin"
  | .atan => "atan"
  | .ceil => "ceil"
  | .cos => "cos"
  | .exp => "exp"
  | .floor => "floor"
  | .log => "log"
  | .log10 => "log10"
  | .max => "max"
  | .min => "min"
  | .pow => "pow"
  | .round => "round"
  | .sin => "sin"
  | .sqrt => "sqrt"
  | .tan => "tan"

/-- What the function computes. -/
def action : Function → Action
  | .abs => .unary Float.abs
  | .acos => .unary Float.acos
  | .asin => .unary Float.asin
  | .atan => .unary Float.atan
  | .ceil => .unary Double.ceil
  | .cos => .unary Float.cos
  | .exp => .unary Float.exp
  | .floor => .unary Double.floor
  | .log => .unary Float.log
  | .log10 => .unary Float.log10
  | .max => .binary larger
  | .min => .binary smaller
  | .pow => .binary power
  | .round => .unary Double.halfUp
  | .sin => .unary Float.sin
  | .sqrt => .unary Float.sqrt
  | .tan => .unary Float.tan

/-- The number of arguments. -/
def arity (f : Function) : Nat :=
  match f.action with
  | .unary _ => 1
  | .binary _ => 2

/-- The function with this name; upper and lower case differ. -/
def ofName? (name : String) : Option Function := all.find? (·.name == name)

/-- The value at the arguments, none if their number is not the arity. -/
def value? (f : Function) (args : List Float) : Option Float :=
  match f.action, args with
  | .unary g, [a] => some (g a)
  | .binary g, [a, b] => some (g a b)
  | _, _ => none

/-- Every function is in the catalogue. -/
theorem mem_all (f : Function) : f ∈ all := by cases f <;> decide

/-- A name finds the function that bears it. -/
@[simp] theorem ofName?_name (f : Function) : ofName? f.name = some f := by cases f <;> decide

/-- A function that is found bears the name. -/
theorem name_of_ofName? {s : String} {f : Function} (h : ofName? s = some f) : f.name = s := by
  simpa using List.find?_some h

/-- Every function takes an argument. -/
theorem arity_pos (f : Function) : 0 < f.arity := by
  unfold arity
  split <;> decide

/-- A function has a value exactly at as many arguments as its arity. -/
theorem value?_isSome_iff (f : Function) (args : List Float) :
    (f.value? args).isSome ↔ args.length = f.arity := by
  unfold value? arity
  cases f.action with
  | unary g => match args with
    | [] => simp
    | [a] => simp
    | a :: b :: r => simp
  | binary g => match args with
    | [] => simp
    | [a] => simp
    | [a, b] => simp
    | a :: b :: c :: r => simp

end Function

/-- The constants of the catalogue, in the order of the names. -/
def constants : List (String × Float) :=
  [("E", 2.718281828459045), ("PI", 3.141592653589793)]

/-- The constant with this name; upper and lower case differ. -/
def constant? (name : String) : Option Float := constants.lookup name

end Abacus
