import Abacus.Proofs.Grammar.Outlook

/-!
# Partners of parentheses

A closing parenthesis is the partner of the innermost opening one before it that has none yet.
Whatever else the tokens are, what is left without a partner is found by keeping the opening
parentheses on a stack.

* `Unmatched`: the parentheses without a partner in what has been read, by the offsets at which they
  stand. The opening ones may still find one, the closing ones (`stray`) are lost.
* `unmatched`: those of a whole sequence of tokens.
* `Balanced`: tokens that leave no parenthesis without a partner, whatever stands before them.

The stack knows nothing of groups, calls, operands or names. So it is a description of its own of
the parenthesis an error should point at (`Proofs/Grammar/Blame`), apart from the outlook that tells
where a reader stops.

Results:
* `Balanced.append`, `Balanced.enclosed`: pairs stand one behind the other and inside one another.
* `Unmatched.after_of_after?`: where there is an outlook, every closing parenthesis has its partner,
  and as many are open as the outlook says.
-/

namespace Abacus.Term.Grammar

/-- The offsets of the parentheses without a partner in what has been read: of the opening ones,
innermost first, and of the closing ones from left to right. -/
structure Unmatched where
  opened : List Nat
  stray : List Nat
deriving DecidableEq, Repr

/-- One token more. -/
def Unmatched.step (u : Unmatched) (l : Lexeme) : Unmatched :=
  match l.token, u.opened with
  | .openParen, opened => ⟨l.offset :: opened, u.stray⟩
  | .closeParen, _ :: opened => ⟨opened, u.stray⟩
  | .closeParen, [] => ⟨[], u.stray ++ [l.offset]⟩
  | _, _ => u

/-- The parentheses without a partner among some tokens more. -/
def Unmatched.after (u : Unmatched) (ts : List Lexeme) : Unmatched := ts.foldl step u

/-- The parentheses without a partner. -/
def unmatched (ts : List Lexeme) : Unmatched := Unmatched.after ⟨[], []⟩ ts

/-- Each parenthesis has its partner among the tokens themselves. -/
def Balanced (ts : List Lexeme) : Prop := ∀ u : Unmatched, u.after ts = u

variable {free : Option String} {u : Unmatched} {l : Lexeme} {ts ts' : List Lexeme}

theorem Unmatched.after_append (u : Unmatched) (ts ts' : List Lexeme) :
    u.after (ts ++ ts') = (u.after ts).after ts' := List.foldl_append

theorem Unmatched.after_cons (u : Unmatched) (l : Lexeme) (ts : List Lexeme) :
    u.after (l :: ts) = (u.step l).after ts := rfl

theorem Balanced.nil : Balanced [] := fun _ => rfl

theorem Balanced.append (h : Balanced ts) (h' : Balanced ts') : Balanced (ts ++ ts') := by
  intro u
  rw [u.after_append, h, h']

/-- What stands between a parenthesis and its partner. -/
theorem Balanced.enclosed (h : Balanced ts) (o o' : Nat) :
    Balanced (⟨.openParen, o⟩ :: (ts ++ [⟨.closeParen, o'⟩])) := by
  intro u
  rw [u.after_cons, Unmatched.after_append, h]
  rfl

/-- A token that leaves open what was open is no parenthesis. -/
theorem Balanced.of_step? {p q : Outlook} (h : p.step? free l.token = some q)
    (hopened : q.opened = p.opened) : Balanced [l] := by
  intro u
  have hspec := Outlook.opened_of_step? h
  obtain ⟨t, o⟩ := l
  cases t with
  | number | name | comma | operator => rfl
  | openParen =>
    obtain ⟨b, hb⟩ := hspec
    exact absurd (hopened.symm.trans hb).symm (List.cons_ne_self _ _)
  | closeParen =>
    obtain ⟨b, hb⟩ := hspec
    exact absurd (hopened.trans hb).symm (List.cons_ne_self _ _)

/-- A closing parenthesis without a partner stays without one. -/
theorem Unmatched.stray_kept (u : Unmatched) (ts : List Lexeme) :
    u.stray <+: (u.after ts).stray := by
  induction ts generalizing u with
  | nil => exact List.prefix_rfl
  | cons l ts ih =>
    refine List.IsPrefix.trans ?_ (ih (u.step l))
    unfold step
    split
    · exact List.prefix_rfl
    · exact List.prefix_rfl
    · exact List.prefix_append _ _
    · exact List.prefix_rfl

/-- One token keeps count of what is open, and closes nothing that is not open. -/
theorem Unmatched.step_of_step? {p q : Outlook} (h : p.step? free l.token = some q)
    (hu : u.opened.length = p.opened.length) :
    (u.step l).opened.length = q.opened.length ∧ (u.step l).stray = u.stray := by
  have hspec := Outlook.opened_of_step? h
  obtain ⟨t, o⟩ := l
  obtain ⟨opened, stray⟩ := u
  cases t with
  | number | name | comma | operator =>
    rw [hspec]
    exact ⟨hu, rfl⟩
  | openParen =>
    obtain ⟨b, hb⟩ := hspec
    rw [hb, List.length_cons]
    exact ⟨congrArg (· + 1) hu, rfl⟩
  | closeParen =>
    obtain ⟨b, hb⟩ := hspec
    rw [hb] at hu
    cases opened with
    | nil => cases hu
    | cons o' opened => exact ⟨Nat.succ.inj hu, rfl⟩

/-- **Where there is an outlook, every closing parenthesis has its partner**, and as many
parentheses are open as the outlook says. -/
theorem Unmatched.after_of_after? {p q : Outlook} (h : p.after? free (ts.map Lexeme.token) = some q)
    (hu : u.opened.length = p.opened.length) :
    (u.after ts).opened.length = q.opened.length ∧ (u.after ts).stray = u.stray := by
  induction ts generalizing u p with
  | nil =>
    cases h
    exact ⟨hu, rfl⟩
  | cons l ts ih =>
    obtain ⟨r, hr, h⟩ := Option.bind_eq_some_iff.mp h
    obtain ⟨hlength, hstray⟩ := step_of_step? hr hu
    rw [u.after_cons, ← hstray]
    exact ih h hlength

end Abacus.Term.Grammar
