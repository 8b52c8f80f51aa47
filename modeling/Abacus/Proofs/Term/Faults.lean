import Abacus.Entry
import Abacus.Proofs.Term.RoundTrip

/-!
# What can go wrong in evaluating a term

Arithmetic never fails, so a term has a value unless one of its nodes has none in itself: a
variable that is not bound, a call of an unknown name, a call with the wrong number of arguments.
Evaluation goes from left to right and looks at a call before it looks at the arguments, so it
reports the first such node in pre-order.

This holds of every term, also of one that no text stands for. A term that was read has no such node
as long as the variable it was read in is bound.

* `nodes`: the nodes of a term in pre-order. `fault?`: what is wrong with a node, if anything;
  `Offends` says the same as a relation and without the evaluator's own lookups.
* `evaluate_reports`: evaluation fails with the first fault, and with nothing else.
* `evaluate_first_offence`: the same said of the nodes themselves.
* `Entry.evaluate_of_read`: an entry has a value at every number, and without a number exactly if
  no variable occurs in it. Its calls and its variables are what the reader let pass.

Nothing is said of the value itself: what the operations come to is `Float` arithmetic.
-/

namespace Abacus.Term

mutual

/-- The term and the terms inside it, each before what is inside it, from left to right. -/
def nodes : Term → List Term
  | .literal x => [.literal x]
  | .variable name => [.variable name]
  | .unary op a => .unary op a :: a.nodes
  | .binary op a b => .binary op a b :: (a.nodes ++ b.nodes)
  | .call name args => .call name args :: nodesIn args

/-- The nodes of the terms. -/
def nodesIn : List Term → List Term
  | [] => []
  | t :: ts => t.nodes ++ nodesIn ts

end

/-- What is wrong with a node, whatever is inside it. -/
def fault? (b : Binding) : Term → Option Error
  | .variable name => if (b.value? name).isSome then none else some (.unboundVariable name)
  | .call name args =>
    match Function.ofName? name with
    | none => some (.unknownName name)
    | some f =>
      if args.length = f.arity then none else some (.argumentCount name f.arity args.length)
  | .literal _ | .unary .. | .binary .. => none

/-- The run fails with the fault, and succeeds if there is none. -/
def Reports {α : Type} (run : Except Error α) (fault : Option Error) : Prop :=
  match fault with
  | none => ∃ a, run = .ok a
  | some e => run = .error e

variable {b : Binding} {d : Dialect} {t u : Term}

/-! ## Faults are reported in order -/

theorem Reports.exists_ok_iff {α : Type} {run : Except Error α} {fault : Option Error}
    (h : Reports run fault) : (∃ a, run = .ok a) ↔ fault = none := by
  cases fault with
  | none => exact iff_of_true h rfl
  | some e =>
    have he : run = .error e := h
    simp [he]

theorem Reports.eq_error_iff {α : Type} {run : Except Error α} {fault : Option Error} {e : Error}
    (h : Reports run fault) : run = .error e ↔ fault = some e := by
  cases fault with
  | none =>
    obtain ⟨a, ha⟩ := h
    simp [ha]
  | some e' =>
    have he : run = .error e' := h
    simp [he]

/-- The fault of the first part wins. -/
theorem Reports.bind {α β : Type} {run : Except Error α} {next : α → Except Error β}
    {fault fault' : Option Error} (h : Reports run fault)
    (h' : ∀ a, run = .ok a → Reports (next a) fault') :
    Reports (run >>= next) (fault.or fault') := by
  cases fault with
  | none =>
    obtain ⟨a, ha⟩ := h
    rw [Except.bind_of_ok ha]
    exact h' a ha
  | some e =>
    have he : run = .error e := h
    rw [he]
    rfl

/-- What follows and cannot fail adds no fault. -/
theorem Reports.bind_total {α β : Type} {run : Except Error α} {next : α → Except Error β}
    {fault : Option Error} (h : Reports run fault)
    (h' : ∀ a, run = .ok a → ∃ c, next a = .ok c) : Reports (run >>= next) fault := by
  have hnone : ∀ a, run = .ok a → Reports (next a) none := h'
  have := h.bind hnone
  rwa [Option.or_none] at this

theorem Reports.map {α β : Type} {run : Except Error α} {fault : Option Error}
    (h : Reports run fault) (f : α → β) : Reports (run >>= fun a => .ok (f a)) fault :=
  h.bind_total fun a _ => ⟨f a, rfl⟩

theorem callee_reports (name : String) (args : List Term) :
    Reports (callee name args.length) (fault? b (.call name args)) := by
  rw [callee, fault?]
  cases Function.ofName? name with
  | none => rfl
  | some f =>
    dsimp only
    split
    · exact ⟨f, rfl⟩
    · rfl

theorem arity_of_callee {name : String} {n : Nat} {f : Function} (h : callee name n = .ok f) :
    n = f.arity := by
  unfold callee at h
  split at h
  · cases h
  · split at h
    · cases h
      assumption
    · cases h

theorem length_of_evaluateArgs {ts : List Term} {xs : List Float}
    (h : evaluateArgs b ts = .ok xs) : xs.length = ts.length := by
  induction ts generalizing xs with
  | nil =>
    cases h
    rfl
  | cons t ts ih =>
    obtain ⟨x, -, h⟩ := Except.bind_eq_ok.mp h
    obtain ⟨xs, hxs, h⟩ := Except.bind_eq_ok.mp h
    cases h
    rw [List.length_cons, List.length_cons, ih hxs]

mutual

/-- **Evaluation fails with the first fault in pre-order**, and has a value if there is none. -/
theorem evaluate_reports (b : Binding) (t : Term) :
    Reports (t.evaluate b) (t.nodes.findSome? (fault? b)) := by
  match t with
  | .literal x => exact ⟨x, rfl⟩
  | .variable name =>
    rw [evaluate, nodes, List.findSome?_singleton, fault?]
    cases b.value? name with
    | none => rfl
    | some x => exact ⟨x, rfl⟩
  | .unary op a => exact (evaluate_reports b a).map op.apply
  | .binary op a c =>
    rw [nodes, List.findSome?_cons_of_isNone rfl, List.findSome?_append]
    exact (evaluate_reports b a).bind fun x _ => (evaluate_reports b c).map (op.apply x)
  | .call name args =>
    rw [nodes, ← List.singleton_append, List.findSome?_append, List.findSome?_singleton]
    refine (callee_reports name args).bind fun f hf => ?_
    refine (evaluateArgs_reports b args).bind_total fun xs hxs => ?_
    -- the arguments are as many as the callee was asked for
    have hlen : xs.length = f.arity :=
      (length_of_evaluateArgs hxs).trans (arity_of_callee hf)
    obtain ⟨y, hy⟩ := Option.isSome_iff_exists.mp ((f.value?_isSome_iff xs).mpr hlen)
    rw [hy]
    exact ⟨y, rfl⟩

theorem evaluateArgs_reports (b : Binding) (ts : List Term) :
    Reports (evaluateArgs b ts) ((nodesIn ts).findSome? (fault? b)) := by
  match ts with
  | [] => exact ⟨[], rfl⟩
  | t :: ts =>
    rw [nodesIn, List.findSome?_append]
    exact (evaluate_reports b t).bind fun x _ => (evaluateArgs_reports b ts).map (x :: ·)

end

/-! ## The first fault -/

/-- A node that has no value in itself, and what is wrong with it: a variable that is not the bound
one, a call of a name that no function bears, or a call with the wrong number of arguments. -/
inductive Offends (b : Binding) : Term → Error → Prop
  | unbound {name : String} (h : ∀ x, b ≠ some (name, x)) :
      Offends b (.variable name) (.unboundVariable name)
  | unknown {name : String} {args : List Term} (h : ∀ f : Function, f.name ≠ name) :
      Offends b (.call name args) (.unknownName name)
  | arity {f : Function} {args : List Term} (h : args.length ≠ f.arity) :
      Offends b (.call f.name args) (.argumentCount f.name f.arity args.length)

/-- The error is the one of the first node in pre-order that has no value in itself. -/
def FirstOffence (b : Binding) (t : Term) (e : Error) : Prop :=
  ∃ before u after, t.nodes = before ++ u :: after ∧ Offends b u e ∧
    ∀ v ∈ before, ∀ e, ¬ Offends b v e

theorem value?_isSome_iff {name : String} :
    (b.value? name).isSome = true ↔ ∃ x, b = some (name, x) := by
  unfold Binding.value?
  cases b with
  | none => simp
  | some bound =>
    obtain ⟨other, x⟩ := bound
    by_cases h : other = name
    · simp [h]
    · simp [h]

theorem ofName?_eq_none_iff {name : String} :
    Function.ofName? name = none ↔ ∀ f : Function, f.name ≠ name := by
  constructor
  · rintro h f rfl
    rw [Function.ofName?_name] at h
    cases h
  · intro h
    cases hf : Function.ofName? name with
    | none => rfl
    | some f => exact absurd (Function.name_of_ofName? hf) (h f)

/-- **A node offends iff it has a fault.** -/
theorem fault?_eq_some_iff {e : Error} : fault? b t = some e ↔ Offends b t e := by
  constructor
  · intro h
    match t, h with
    | .variable name, h =>
      rw [fault?] at h
      split at h
      · cases h
      · rename_i hnone
        cases h
        exact .unbound fun x hx => hnone (value?_isSome_iff.mpr ⟨x, hx⟩)
    | .call name args, h =>
      rw [fault?] at h
      cases hf : Function.ofName? name with
      | none =>
        rw [hf] at h
        cases h
        exact .unknown (ofName?_eq_none_iff.mp hf)
      | some f =>
        obtain rfl := Function.name_of_ofName? hf
        rw [hf] at h
        dsimp only at h
        split at h
        · cases h
        · rename_i hne
          cases h
          exact .arity hne
  · rintro (h | h | h)
    · rw [fault?, if_neg]
      rw [value?_isSome_iff]
      exact fun ⟨x, hx⟩ => h x hx
    · rw [fault?, ofName?_eq_none_iff.mpr h]
    · rw [fault?, Function.ofName?_name]
      exact if_neg h

theorem fault?_eq_none_iff : fault? b t = none ↔ ∀ e, ¬ Offends b t e := by
  simp only [Option.eq_none_iff_forall_ne_some, ne_eq, fault?_eq_some_iff]

/-- **A term has a value iff no node of it offends, and otherwise the first one that does is
reported.** -/
theorem evaluate_first_offence (b : Binding) (t : Term) :
    ((∃ x, t.evaluate b = .ok x) ↔ ∀ u ∈ t.nodes, ∀ e, ¬ Offends b u e) ∧
      ∀ e, t.evaluate b = .error e ↔ FirstOffence b t e := by
  have hreports := evaluate_reports b t
  constructor
  · simp only [hreports.exists_ok_iff, List.findSome?_eq_none_iff, fault?_eq_none_iff]
  · intro e
    simp only [hreports.eq_error_iff, List.findSome?_eq_some_iff, fault?_eq_some_iff,
      fault?_eq_none_iff, FirstOffence]

/-- A call is looked at behind the operands to its left and before its own arguments. -/
example : evaluate none (.binary .add (.literal 1) (.call "pow" [.variable "t"])) =
    .error (.argumentCount "pow" 2 1) := by rfl

/-! ## Nodes of a term that was read -/

theorem mem_nodesIn {ts : List Term} : u ∈ nodesIn ts ↔ ∃ t ∈ ts, u ∈ t.nodes := by
  induction ts with
  | nil => simp [nodesIn]
  | cons t ts ih => simp [nodesIn, ih]

/-- The nodes of an expressible term are expressible. -/
theorem Expressible.of_mem_nodes (h : Expressible d t) (hu : u ∈ t.nodes) : Expressible d u := by
  induction h with
  | literal hx =>
    rw [nodes, List.mem_singleton] at hu
    exact hu ▸ .literal hx
  | bound hfree hname =>
    rw [nodes, List.mem_singleton] at hu
    exact hu ▸ .bound hfree hname
  | unary ha ih =>
    rcases List.mem_cons.mp hu with rfl | hu
    · exact .unary ha
    · exact ih hu
  | binary hop ha hb iha ihb =>
    rcases List.mem_cons.mp hu with rfl | hu
    · exact .binary hop ha hb
    · rcases List.mem_append.mp hu with hu | hu
      · exact iha hu
      · exact ihb hu
  | call hfree hconst hfun harity hname hargs ih =>
    rcases List.mem_cons.mp hu with rfl | hu
    · exact .call hfree hconst hfun harity hname hargs
    · obtain ⟨a, ha, hu⟩ := mem_nodesIn.mp hu
      exact ih a ha hu

/-- An expressible node has no fault where the variable of the dialect is bound. -/
theorem Expressible.fault?_bound (h : Expressible d t) (x : Float) :
    fault? (d.free.map fun name => (name, x)) t = none := by
  cases h with
  | literal | unary | binary => rfl
  | bound hfree => simp [fault?, hfree, Binding.value?]
  | call _ _ hfun harity => simp [fault?, hfun, harity]

/-- With nothing bound, its only fault is to be a variable, and that is the one of the dialect. -/
theorem Expressible.fault?_none (h : Expressible d t) :
    fault? none t = none ∨
      ∃ name, t = .variable name ∧ d.free = some name ∧
        fault? none t = some (.unboundVariable name) := by
  cases h with
  | literal | unary | binary => exact .inl rfl
  | @bound name hfree => exact .inr ⟨name, rfl, hfree, rfl⟩
  | call _ _ hfun harity => exact .inl (by simp [fault?, hfun, harity])

mutual

/-- A term has a variable iff one of its nodes is a variable. -/
theorem hasVariable_iff (t : Term) : t.hasVariable = true ↔ ∃ name, .variable name ∈ t.nodes := by
  match t with
  | .literal _ => simp [hasVariable, nodes]
  | .variable name => simp [hasVariable, nodes]
  | .unary _ a => simp [hasVariable, nodes, hasVariable_iff a]
  | .binary _ a b =>
    simp [hasVariable, nodes, hasVariable_iff a, hasVariable_iff b, exists_or]
  | .call _ args => simp [hasVariable, nodes, hasVariables_iff args]

theorem hasVariables_iff (ts : List Term) :
    hasVariables ts = true ↔ ∃ name, .variable name ∈ nodesIn ts := by
  match ts with
  | [] => simp [hasVariables, nodesIn]
  | t :: ts => simp [hasVariables, nodesIn, hasVariable_iff t, hasVariables_iff ts, exists_or]

end

mutual

/-- Without a variable the binding makes no difference. -/
theorem evaluate_congr {t : Term} (h : t.hasVariable = false) (b b' : Binding) :
    t.evaluate b = t.evaluate b' := by
  match t with
  | .literal _ => rfl
  | .variable _ => cases h
  | .unary _ a =>
    have ha : a.hasVariable = false := h
    rw [evaluate, evaluate, evaluate_congr ha b b']
  | .binary _ a c =>
    rw [hasVariable, Bool.or_eq_false_iff] at h
    rw [evaluate, evaluate, evaluate_congr h.1 b b', evaluate_congr h.2 b b']
  | .call _ args =>
    have hargs : hasVariables args = false := h
    rw [evaluate, evaluate, evaluateArgs_congr hargs b b']

theorem evaluateArgs_congr {ts : List Term} (h : hasVariables ts = false) (b b' : Binding) :
    evaluateArgs b ts = evaluateArgs b' ts := by
  match ts with
  | [] => rfl
  | t :: ts =>
    rw [hasVariables, Bool.or_eq_false_iff] at h
    rw [evaluateArgs, evaluateArgs, evaluate_congr h.1 b b', evaluateArgs_congr h.2 b b']

end

end Abacus.Term

namespace Abacus.Entry

open Term

variable {d : Dialect} {source : String} {e : Entry}

/-- An entry keeps its term and the variable of its dialect. -/
theorem parse_of_read (h : read d source = .ok e) :
    Term.parse d source = .ok e.term ∧ e.free = d.free := by
  obtain ⟨t, ht, h⟩ := Except.bind_eq_ok.mp h
  cases h
  exact ⟨ht, rfl⟩

/-- An entry has a value at every number. -/
theorem exists_evaluateAt (h : read d source = .ok e) (x : Float) :
    ∃ y, e.evaluateAt x = .ok y := by
  obtain ⟨hparse, hfree⟩ := parse_of_read h
  have hreports := evaluate_reports (e.free.map fun name => (name, x)) e.term
  have hnone : e.term.nodes.findSome? (fault? (e.free.map fun name => (name, x))) = none := by
    rw [List.findSome?_eq_none_iff, hfree]
    intro u hu
    exact ((expressible_of_parse hparse).1.of_mem_nodes hu).fault?_bound x
  rwa [hnone] at hreports

/-- Without a number, an entry with a variable fails with the name of the variable. -/
theorem evaluate_of_hasVariable (h : read d source = .ok e) (hv : e.term.hasVariable = true) :
    ∃ name, d.free = some name ∧ e.evaluate = .error (.unboundVariable name) := by
  have hexp := (expressible_of_parse (parse_of_read h).1).1
  have hreports : Reports e.evaluate _ := evaluate_reports none e.term
  cases hfault : e.term.nodes.findSome? (fault? none) with
  | none =>
    obtain ⟨name, hname⟩ := (hasVariable_iff e.term).mp hv
    cases List.findSome?_eq_none_iff.mp hfault _ hname
  | some err =>
    rw [hfault] at hreports
    obtain ⟨u, hu, herr⟩ := List.exists_of_findSome?_eq_some hfault
    rcases (hexp.of_mem_nodes hu).fault?_none with hnone | ⟨name, -, hfree, hname⟩
    · rw [hnone] at herr
      cases herr
    · rw [hname] at herr
      cases herr
      exact ⟨name, hfree, hreports⟩

/-- **An entry can always be evaluated**: at every number, and without a number exactly if no
variable occurs in it; then the number makes no difference, and otherwise the variable it was read
in is reported. Its calls are calls of functions of the catalogue with as many arguments as those
take, and its variables are the one it was read in. -/
theorem evaluate_of_read (h : read d source = .ok e) :
    (∀ x, ∃ y, e.evaluateAt x = .ok y) ∧
    ((∃ w, e.evaluate = .ok w) ↔ e.term.hasVariable = false) ∧
    (∀ w, e.evaluate = .ok w → ∀ x, e.evaluateAt x = .ok w) ∧
    (e.term.hasVariable = true →
      ∃ name, d.free = some name ∧ e.evaluate = .error (.unboundVariable name)) ∧
    (∀ name args, .call name args ∈ e.term.nodes →
      ∃ f, Function.ofName? name = some f ∧ args.length = f.arity) ∧
    ∀ name, .variable name ∈ e.term.nodes → d.free = some name := by
  have hexp := (expressible_of_parse (parse_of_read h).1).1
  have hsame (hv : e.term.hasVariable = false) (x : Float) : e.evaluateAt x = e.evaluate :=
    evaluate_congr hv _ _
  have hnone (w : Float) (hw : e.evaluate = .ok w) : e.term.hasVariable = false := by
    by_contra hv
    obtain ⟨name, -, herr⟩ := evaluate_of_hasVariable h (Bool.eq_true_of_not_eq_false hv)
    rw [hw] at herr
    cases herr
  refine ⟨exists_evaluateAt h, ⟨fun ⟨w, hw⟩ => hnone w hw, fun hv => ?_⟩, fun w hw x => ?_,
    evaluate_of_hasVariable h, fun name args hmem => ?_, fun name hmem => ?_⟩
  · obtain ⟨y, hy⟩ := exists_evaluateAt h 0
    exact ⟨y, (hsame hv 0).symm.trans hy⟩
  · exact (hsame (hnone w hw) x).trans hw
  · cases hexp.of_mem_nodes hmem with
    | call _ _ hfun harity => exact ⟨_, hfun, harity⟩
  · cases hexp.of_mem_nodes hmem with
    | bound hfree => exact hfree

/-- A variable that bears the name of a function is no call, and a constant is no variable. -/
theorem evaluate_of_read_shadowed :
    ∃ e, read (.inVariable "max") "max-pow(E,2%)" = .ok e ∧
      e.term.nodes = [e.term, .variable "max",
        .call "pow" [.literal 2.718281828459045, .unary .percent (.literal (Decimal.toFloat ⟨2, 0⟩))],
        .literal 2.718281828459045, .unary .percent (.literal (Decimal.toFloat ⟨2, 0⟩)),
        .literal (Decimal.toFloat ⟨2, 0⟩)] ∧
      e.evaluate = .error (.unboundVariable "max") ∧ ∀ x, ∃ y, e.evaluateAt x = .ok y := by
  have h : read (.inVariable "max") "max-pow(E,2%)" = .ok ⟨"max-pow(E,2%)",
      .binary .subtract (.variable "max") (.call "pow" [.literal 2.718281828459045,
        .unary .percent (.literal (Decimal.toFloat ⟨2, 0⟩))]), some "max"⟩ := by
    with_unfolding_all rfl
  obtain ⟨hat, -, -, hunbound, -, -⟩ := evaluate_of_read h
  obtain ⟨name, hname, herr⟩ := hunbound rfl
  cases hname
  exact ⟨_, h, rfl, herr, hat⟩

end Abacus.Entry
