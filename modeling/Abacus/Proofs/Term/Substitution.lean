import Abacus.Proofs.Except
import Abacus.Term.Evaluation

/-!
# A number in the place of a variable

Binding a variable to a number and writing the number in the place of the variable come to the
same: the value is the same, and so is what can go wrong. Other variables are not touched by either,
and have no value in both.

* `assign`: the term with the number as a literal in the place of the variable. It goes with
  `assignIn` for the arguments of a call, whose number stays the same.
* `evaluate_assign`: a term with the number in the place of the variable, evaluated with nothing
  bound, is the term evaluated with the variable bound to the number.

This is the last step of `Proofs/Term/Insertion`, where the number is written into the text.
-/

namespace Abacus.Term

mutual

/-- The term with a number in every place of a variable. -/
def assign (name : String) (x : Float) : Term → Term
  | .literal y => .literal y
  | .variable s => if s = name then .literal x else .variable s
  | .unary op a => .unary op (a.assign name x)
  | .binary op a b => .binary op (a.assign name x) (b.assign name x)
  | .call f args => .call f (assignIn name x args)

/-- The terms with a number in every place of a variable. -/
def assignIn (name : String) (x : Float) : List Term → List Term
  | [] => []
  | t :: ts => t.assign name x :: assignIn name x ts

end

variable (name : String) (x : Float)

theorem length_assignIn (ts : List Term) : (assignIn name x ts).length = ts.length := by
  induction ts with
  | nil => rfl
  | cons t ts ih => rw [assignIn, List.length_cons, List.length_cons, ih]

mutual

/-- **The number written into the term is the number bound to the variable.** -/
theorem evaluate_assign (t : Term) :
    (t.assign name x).evaluate none = t.evaluate (some (name, x)) := by
  match t with
  | .literal y => rfl
  | .variable s =>
    rw [assign, evaluate, Binding.value?]
    by_cases h : s = name
    · rw [if_pos h, if_pos h.symm, evaluate]
    · rw [if_neg h, if_neg fun h' => h h'.symm, evaluate]
      rfl
  | .unary op a => rw [assign, evaluate, evaluate, evaluate_assign a]
  | .binary op a b => rw [assign, evaluate, evaluate, evaluate_assign a, evaluate_assign b]
  | .call f args =>
    rw [assign, evaluate, evaluate, length_assignIn, evaluateArgs_assignIn args]

theorem evaluateArgs_assignIn (ts : List Term) :
    evaluateArgs none (assignIn name x ts) = evaluateArgs (some (name, x)) ts := by
  match ts with
  | [] => rfl
  | t :: ts =>
    rw [assignIn, evaluateArgs, evaluateArgs, evaluate_assign t, evaluateArgs_assignIn ts]

end

end Abacus.Term
