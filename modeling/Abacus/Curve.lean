import Abacus.Entry

/-!
# Curves

A curve is an expression in one variable, sampled at evenly spaced points of a closed interval.
Both ends of the interval are met exactly. A point where the expression has no finite value is a
gap in the curve and never fails the whole.

* `Span` is what a curve is drawn over: two bounds and a number of points. `Span.check` refuses an
  interval with a bound that is not finite or without width, then fewer than two points, then more
  than `maxPoints`, in this order and before the expression is looked at.
* `Span.point` is the abscissa with an index. The first and the last one are the bounds themselves.
  Those between are the lower bound and so many steps, with the rounding errors that this brings;
  where the width is too large for a double the step is infinite, and the point is mixed from the
  two bounds.
* `Entry.sampleAt` is one point. Points do not depend on one another.
* `Entry.curve` draws an expression that was read. `curve` checks the span, reads a text in the
  variable `x`, and draws it; the span is checked a second time then, to no effect.
* `Curve.Error.message` words what is wrong with a span, and passes on what is wrong with a text.

Proved elsewhere:
* `Proofs/Curve`: when a curve is refused and for what, how many points it has, and what each shows.
* `Proofs/Abscissas`: where the points stand, and when they keep inside the interval and in order.
  They do not for an interval so narrow that a step has lost some of its bits.

Left out is the message that is logged for a curve with gaps.
-/

namespace Abacus

/-- A point of a curve; `y` is NaN at a gap. -/
structure Sample where
  x : Float
  y : Float

/-- There is no finite value at this point. -/
def Sample.isGap (s : Sample) : Bool := s.y.isNaN

/-- The interval a curve is drawn over, and the number of points on it. -/
structure Span where
  min : Float
  max : Float
  points : Nat

/-- The number of points of a curve if none is asked for. -/
def defaultPoints : Nat := 250

/-- The most points of a curve. -/
def maxPoints : Nat := 1000000

/-- Why a curve cannot be drawn. -/
inductive Curve.Error where
  /-- a bound that is not finite, or an interval without width -/
  | invalidDomain (min max : Float)
  /-- a single point, or none -/
  | tooFewPoints (points : Nat)
  /-- more points than a curve may have -/
  | tooManyPoints (points limit : Nat)
  /-- an expression that cannot be read -/
  | expression (cause : Term.Error)

/-- The wording of the error. -/
def Curve.Error.message : Curve.Error → String
  | .invalidDomain min max =>
    s!"Invalid domain [{plain.text min}, {plain.text max}]: x-max must be greater than x-min"
  | .tooFewPoints points => s!"At least 2 sample points are required, got {points}"
  | .tooManyPoints points limit =>
    s!"At most {limit} sample points are supported, got {points}"
  | .expression cause => cause.message

namespace Span

/-- The span can carry a curve. -/
def check (s : Span) : Except Curve.Error Unit :=
  if !s.min.isFinite || !s.max.isFinite || s.max ≤ s.min then
    .error (.invalidDomain s.min s.max)
  else if s.points < 2 then .error (.tooFewPoints s.points)
  else if maxPoints < s.points then .error (.tooManyPoints s.points maxPoints)
  else .ok ()

/-- The index of the last point. -/
def last (s : Span) : Nat := s.points - 1

/-- The distance between neighbours. -/
def step (s : Span) : Float := (s.max - s.min) / Float.ofNat s.last

/-- The abscissa of the point with an index. Where the width is too large for a double the step
is infinite, and the point is mixed from the two bounds. -/
def point (s : Span) (i : Nat) : Float :=
  if i = 0 then s.min
  else if i = s.last then s.max
  else if s.step.isFinite then s.min + s.step * Float.ofNat i
  else
    let t := Float.ofNat i / Float.ofNat s.last
    s.min * (1 - t) + s.max * t

/-- The abscissas from left to right. -/
def abscissas (s : Span) : List Float := (List.range s.points).map s.point

end Span

namespace Entry

/-- The point of the curve above a number; anything but a finite value is a gap. -/
def sampleAt (e : Entry) (x : Float) : Sample :=
  match e.evaluateAt x with
  | .ok y => ⟨x, if y.isFinite then y else Double.nan⟩
  | .error _ => ⟨x, Double.nan⟩

/-- The curve of an entry. -/
def curve (e : Entry) (s : Span) : Except Curve.Error (List Sample) := do
  s.check
  .ok (s.abscissas.map e.sampleAt)

end Entry

/-- The curve of a text in the variable `x`. -/
def curve (source : String) (s : Span) : Except Curve.Error (List Sample) := do
  s.check
  match Entry.read (.inVariable abscissa) source with
  | .ok e => e.curve s
  | .error cause => .error (.expression cause)

end Abacus
