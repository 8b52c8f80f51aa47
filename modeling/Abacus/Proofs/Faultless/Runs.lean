import Abacus.Curve
import Abacus.Proofs.Faultless.Depth
import Abacus.Proofs.Faultless.Formulas
import Abacus.Proofs.Faultless.Scanner
import Abacus.Proofs.Term.Faults

/-!
# Runs without a fault

Besides the places of a text and the depth of a reader there are two operations that can fail to
have a result: a function finds its arguments by their indices, and the last point of a curve is the
one before so many points. Here a function is called only with as many arguments as it has indices,
and a last point is named only where there are two. Every term can be evaluated so, also one that no
text stands for, and every curve can be drawn.

* `registered?`: the function of a name, with the number of arguments it is registered for. The
  number stands beside the function and is not taken from it.
* `Action.call?`: a call that takes its arguments by index, with no result past the end.
* `Term.evaluate?`, `Term.parse?`, `Entry.curve?`: evaluating, reading and drawing by such calls, by
  a cursor on bytes and by a counter for the depth.
* `Span.last?`: the index of the last point, none where there are fewer than two.

Results:
* `Function.registered?_eq`: a function is registered for as many arguments as it looks up.
* `Term.evaluate?_eq`: every term has its value, or its error, without a wrong call.
* `Entry.curve?_eq`: a curve is drawn where there are two points.
* `runs_without_fault`: no text, no term and no span leads to an operation without a result.

Arithmetic on doubles has a result for all arguments, so nothing is said of it here.
-/

namespace Abacus

/-! ## Calls by index -/

namespace Function

/-- The functions with the numbers of arguments they are registered for. -/
def registered : List (Function × Nat) :=
  [(.sin, 1), (.cos, 1), (.tan, 1), (.asin, 1), (.acos, 1), (.atan, 1), (.log, 1), (.log10, 1),
   (.sqrt, 1), (.exp, 1), (.pow, 2), (.abs, 1), (.floor, 1), (.ceil, 1), (.round, 1), (.max, 2),
   (.min, 2)]

/-- The function registered under a name, and its number of arguments. -/
def registered? (name : String) : Option (Function × Nat) :=
  registered.find? fun entry => entry.1.name == name

/-- The value at arguments that are found by index; none unless each argument has an index and each
index an argument. -/
def Action.call? : Action → List Float → Option Float
  | .unary f, args => do
    let a ← args[0]?
    if args.length = 1 then some (f a) else none
  | .binary f, args => do
    let a ← args[0]?
    let b ← args[1]?
    if args.length = 2 then some (f a b) else none

theorem mem_registered (f : Function) : (f, f.arity) ∈ registered := by
  cases f <;> decide

theorem arity_of_mem_registered {f : Function} {n : Nat} (h : (f, n) ∈ registered) :
    n = f.arity := by
  have hall : ∀ entry ∈ registered, entry.2 = entry.1.arity := by decide
  exact hall _ h

/-- **A function is registered under its name, for as many arguments as it looks up.** -/
theorem registered?_eq (name : String) :
    registered? name = (ofName? name).map fun f => (f, f.arity) := by
  cases hname : ofName? name with
  | none =>
    refine List.find?_eq_none.mpr fun entry _ hentry => ?_
    rw [← eq_of_beq hentry, ofName?_name] at hname
    cases hname
  | some f =>
    obtain ⟨entry, hentry⟩ : ∃ entry, registered? name = some entry := by
      refine Option.isSome_iff_exists.mp (List.find?_isSome.mpr ⟨_, mem_registered f, ?_⟩)
      exact beq_iff_eq.mpr (name_of_ofName? hname)
    obtain ⟨g, n⟩ := entry
    have hg : g = f := by
      have hbears := List.find?_some (show registered.find? _ = some (g, n) from hentry)
      rw [← eq_of_beq hbears, ofName?_name] at hname
      exact Option.some.inj hname
    have hn := arity_of_mem_registered (List.mem_of_find?_eq_some hentry)
    rw [hentry, hn, hg]
    rfl

/-- Arguments found by index are those that are matched. -/
theorem call?_eq (f : Function) (args : List Float) : f.action.call? args = f.value? args := by
  unfold value?
  cases f.action with
  | unary g =>
    match args with
    | [] | [_] | _ :: _ :: _ => rfl
  | binary g =>
    match args with
    | [] | [_] | [_, _] | _ :: _ :: _ :: _ => rfl

end Function

/-! ## Terms -/

namespace Term

mutual

/-- The value of a term; no result where a function is called with a wrong number of arguments. -/
def evaluate? (b : Binding) : Term → Option (Except Error Float)
  | .literal x => some (.ok x)
  | .variable name =>
    match b.value? name with
    | some x => some (.ok x)
    | none => some (.error (.unboundVariable name))
  | .unary op a => do
    match ← a.evaluate? b with
    | .error e => some (.error e)
    | .ok x => some (.ok (op.apply x))
  | .binary op a c => do
    match ← a.evaluate? b with
    | .error e => some (.error e)
    | .ok x =>
      match ← c.evaluate? b with
      | .error e => some (.error e)
      | .ok y => some (.ok (op.apply x y))
  | .call name args =>
    match Function.registered? name with
    | none => some (.error (.unknownName name))
    | some (f, n) =>
      if args.length = n then do
        match ← evaluateArgs? b args with
        | .error e => some (.error e)
        | .ok xs =>
          let y ← f.action.call? xs
          some (.ok y)
      else some (.error (.argumentCount name n args.length))

/-- The values of the arguments of a call. -/
def evaluateArgs? (b : Binding) : List Term → Option (Except Error (List Float))
  | [] => some (.ok [])
  | t :: ts => do
    match ← t.evaluate? b with
    | .error e => some (.error e)
    | .ok x =>
      match ← evaluateArgs? b ts with
      | .error e => some (.error e)
      | .ok xs => some (.ok (x :: xs))

end

variable {b : Binding}

/-- A function has a value at as many evaluated arguments as it is registered for. -/
theorem exists_value? {ts : List Term} {xs : List Float} {f : Function}
    (hlength : ts.length = f.arity) (hargs : evaluateArgs b ts = .ok xs) :
    ∃ y, f.value? xs = some y := by
  rw [← length_of_evaluateArgs hargs] at hlength
  exact Option.isSome_iff_exists.mp ((f.value?_isSome_iff xs).mpr hlength)

mutual

/-- **Every term is evaluated without a wrong call.** -/
theorem evaluate?_eq (b : Binding) (t : Term) : t.evaluate? b = some (t.evaluate b) := by
  cases t with
  | literal x => rfl
  | «variable» name =>
    rw [evaluate?, evaluate]
    cases b.value? name <;> rfl
  | unary op a =>
    rw [evaluate?, evaluate, evaluate?_eq b a]
    cases a.evaluate b <;> rfl
  | binary op a c =>
    rw [evaluate?, evaluate, evaluate?_eq b a]
    cases a.evaluate b with
    | error e => rfl
    | ok x =>
      show (c.evaluate? b >>= _) = some (c.evaluate b >>= _)
      rw [evaluate?_eq b c]
      cases c.evaluate b <;> rfl
  | call name args =>
    rw [evaluate?, evaluate, Function.registered?_eq, callee]
    cases Function.ofName? name with
    | none => rfl
    | some f =>
      show (if args.length = f.arity then _ else _) = _
      by_cases hlength : args.length = f.arity
      · rw [if_pos hlength, evaluateArgs?_eq b args]
        dsimp only
        rw [if_pos hlength]
        cases hargs : evaluateArgs b args with
        | error e => rfl
        | ok xs =>
          obtain ⟨y, hy⟩ := exists_value? hlength hargs
          show (f.action.call? xs >>= _) = some (match f.value? xs with | some y => _ | none => _)
          rw [Function.call?_eq, hy]
          rfl
      · rw [if_neg hlength]
        dsimp only
        rw [if_neg hlength]
        rfl

theorem evaluateArgs?_eq (b : Binding) (ts : List Term) :
    evaluateArgs? b ts = some (evaluateArgs b ts) := by
  match ts with
  | [] => rfl
  | t :: ts =>
    rw [evaluateArgs?, evaluateArgs, evaluate?_eq b t]
    cases t.evaluate b with
    | error e => rfl
    | ok x =>
      show (evaluateArgs? b ts >>= _) = some (evaluateArgs b ts >>= _)
      rw [evaluateArgs?_eq b ts]
      cases evaluateArgs b ts <;> rfl

end

/-- Reads a text as an expression, with a cursor on bytes and a counter for the depth. -/
def parse? (d : Dialect) (text : String) : Option (Except Error Term) := do
  match ← Cursor.scan? d.alphabet text with
  | .error e => some (.error e)
  | .ok ts => Machine.expression? d.free ts

theorem parse?_eq (d : Dialect) (text : String) : parse? d text = some (parse d text) := by
  rw [parse?, parse, Cursor.scan?_eq]
  cases Token.scan d.alphabet text with
  | error e => rfl
  | ok ts => exact Machine.expression?_eq d.free ts

end Term

/-! ## Curves -/

/-- The index of the last point; none where there are fewer than two. -/
def Span.last? (s : Span) : Option Nat := if 2 ≤ s.points then some (s.points - 1) else none

/-- The abscissa with an index, given the index of the last one and the distance of neighbours. -/
def Span.pointAt (s : Span) (last : Nat) (step : Float) (i : Nat) : Float :=
  if i = 0 then s.min
  else if i = last then s.max
  else if step.isFinite then s.min + step * Float.ofNat i
  else
    let t := Float.ofNat i / Float.ofNat last
    s.min * (1 - t) + s.max * t

theorem Span.points_of_check {s : Span} (h : s.check = .ok ()) : 2 ≤ s.points := by
  unfold Span.check at h
  split at h
  · cases h
  · split at h
    · cases h
    · exact Nat.le_of_not_lt ‹_›

namespace Entry

/-- The point of the curve above a number. -/
def sample? (e : Entry) (x : Float) : Option Sample := do
  match ← e.term.evaluate? (e.free.map fun name => (name, x)) with
  | .ok y => some ⟨x, if y.isFinite then y else Double.nan⟩
  | .error _ => some ⟨x, Double.nan⟩

/-- The curve of an entry; no result where the last point is asked for and there are not two. -/
def curve? (e : Entry) (s : Span) : Option (Except Curve.Error (List Sample)) :=
  match s.check with
  | .error cause => some (.error cause)
  | .ok () => do
    let last ← s.last?
    let step := (s.max - s.min) / Float.ofNat last
    let samples ← (List.range s.points).mapM fun i => e.sample? (s.pointAt last step i)
    some (.ok samples)

theorem sample?_eq (e : Entry) (x : Float) : e.sample? x = some (e.sampleAt x) := by
  rw [sample?, Term.evaluate?_eq, sampleAt, evaluateAt]
  cases e.term.evaluate (e.free.map fun name => (name, x)) <;> rfl

/-- **The last point is asked for only where there are two.** -/
theorem curve?_eq (e : Entry) (s : Span) : e.curve? s = some (e.curve s) := by
  unfold curve? curve
  cases hcheck : s.check with
  | error cause => rfl
  | ok =>
    have hlast : s.last? = some s.last := if_pos (Span.points_of_check hcheck)
    show (s.last? >>= _) = _
    rw [hlast]
    show ((List.range s.points).mapM (fun i => e.sample? (s.point i)) >>= _) = _
    have hsamples : (fun i => e.sample? (s.point i)) = fun i => pure (e.sampleAt (s.point i)) :=
      funext fun i => e.sample?_eq (s.point i)
    rw [hsamples, List.mapM_pure, Span.abscissas, List.map_map]
    rfl

end Entry

/-- **No text, no term and no span leads to an operation without a result.** The texts behind a
cursor are those behind the boundaries of characters; scanning and reading formulas ask for no
others. A function is called with as many arguments as it looks up, the depth of the reader does not
go below zero, and the last of fewer than two points is not asked for. -/
theorem runs_without_fault :
    (∀ (text : String) (p : Nat),
      (Cursor.fromByte? p text.toList).isSome ↔ String.Pos.Raw.IsValid text ⟨p⟩) ∧
    (∀ (a : Alphabet) (text : String), Cursor.scan? a text = some (Token.scan a text)) ∧
    (∀ (mode : Matter.Mode) (text : String),
      Cursor.formula? mode text = some (Matter.Formula.read mode text)) ∧
    (∀ (b : Binding) (t : Term), t.evaluate? b = some (t.evaluate b)) ∧
    (∀ (d : Dialect) (text : String), Term.parse? d text = some (Term.parse d text)) ∧
    (∀ (e : Entry) (s : Span), e.curve? s = some (e.curve s)) :=
  ⟨fun _ _ => Cursor.isSome_fromByte?_iff, Cursor.scan?_eq, Cursor.formula?_eq, Term.evaluate?_eq,
    Term.parse?_eq, Entry.curve?_eq⟩

end Abacus
