/-!
# Runs that may fail

The readers of expressions and of formulas, the evaluator, and curves are all written as runs in
sequence: a first part that may fail, and a second part that begins with what the first has found.
A proof about such a run takes it apart at this point. These lemmas say how, so that no later proof
looks at the sequence itself.

* `bind_eq_ok`: from a run that succeeded, what its first part found, and that the second part went
  on from there.
* `bind_eq_error`: from a run that failed, which part has failed. The first fault is the only one,
  since nothing is done behind it.
* `bind_of_ok`: the other way round, from a first part that is known to succeed to the whole.

Nothing here belongs to one kind of error. Runs that change a state on the way are not of this form;
the machine in `Proofs/Faultless/Depth` and the additions in `Proofs/Matter/Additions` have lemmas
of their own.
-/

namespace Except

variable {ε α β : Type}

/-- A run in sequence succeeds iff both of its parts do. -/
theorem bind_eq_ok {x : Except ε α} {f : α → Except ε β} {b : β} :
    x >>= f = .ok b ↔ ∃ a, x = .ok a ∧ f a = .ok b := by
  cases x with
  | error e =>
    constructor
    · intro h
      cases h
    · rintro ⟨a, h, -⟩
      cases h
  | ok a =>
    constructor
    · exact fun h => ⟨a, rfl, h⟩
    · rintro ⟨a', h, hf⟩
      cases h
      exact hf

/-- A run in sequence fails iff its first part does, or the second part where the first does not. -/
theorem bind_eq_error {x : Except ε α} {f : α → Except ε β} {e : ε} :
    x >>= f = .error e ↔ x = .error e ∨ ∃ a, x = .ok a ∧ f a = .error e := by
  cases x with
  | error e' =>
    constructor
    · intro h
      cases h
      exact .inl rfl
    · rintro (h | ⟨a, h, -⟩)
      · cases h
        rfl
      · cases h
  | ok a =>
    constructor
    · exact fun h => .inr ⟨a, rfl, h⟩
    · rintro (h | ⟨a', h, hf⟩)
      · cases h
      · cases h
        exact hf

theorem bind_of_ok {x : Except ε α} {a : α} (h : x = .ok a) (f : α → Except ε β) :
    x >>= f = f a := by
  rw [h]
  rfl

end Except
