import Abacus.Matter.Composition
import Abacus.Matter.Piece

/-!
# Formulas

A formula stands for a composition: its elements with their counts, groups in parentheses taken as
often as their multiplier says. This is the reader of formulas, for the molar mass and for whoever
asks for the counts alone.

* `Groups` holds one composition for every open group, the innermost in front. So the reader has no
  recursion, and the number of open groups is the depth of the formula.
* `Groups.step` takes up one piece. An element is added to the innermost group. A parenthesis opens
  a group or ends one, and then the counts of the group, taken so many times, go to the group around
  it; one too many is a fault, and a multiplier above `maxCount` is one even where the group is
  empty.
* `Mode` says what becomes of characters and counts that belong to no formula. The permissive mode
  skips them, but a count that is skipped must not be above `maxCount`; the strict mode ends at the
  first of them.
* `Groups.finish` asks that no group is left open, and `Formula.read` in the strict mode for an
  element at least.

The first fault met ends the reading, so of several faults the leftmost is reported, and what is
asked at the end comes last. `Error.message` words the faults, with offsets in bytes.
`unknownElement` is not given here but by the molar mass.

Proved elsewhere: what is counted (`Proofs/Matter/Counting`), when counting overflows (`Overflow`,
`Skipping`), the verdict on parentheses (`Parentheses`), and the two modes side by side
(`Strictness`).
-/

namespace Abacus.Matter

/-- What becomes of characters and counts that belong to no formula. -/
inductive Mode where
  /-- they are skipped -/
  | permissive
  /-- they are refused, and so is a formula without elements -/
  | strict
deriving DecidableEq, Repr

namespace Formula

/-- Why a formula has no composition or no mass. -/
inductive Error where
  | unmatchedClosingParen (offset : Nat)
  | unclosedParen (depth : Nat)
  | unexpectedCharacter (char : Char) (offset : Nat)
  | strayCount (offset : Nat)
  | empty
  | countOverflow
  | unknownElement (symbol : String)
deriving DecidableEq, Repr

/-- The wording of the error. -/
def Error.message : Error → String
  | .unmatchedClosingParen offset =>
    s!"Mismatched parentheses: unexpected ')' at offset {offset}"
  | .unclosedParen depth => s!"Mismatched parentheses: {depth} unclosed '('"
  | .unexpectedCharacter char offset =>
    s!"Unexpected character '{String.singleton char}' at offset {offset}"
  | .strayCount offset => s!"Count at offset {offset} does not follow an element or group"
  | .empty => "Formula contains no elements"
  | .countOverflow => "Atom count overflow"
  | .unknownElement symbol => s!"Unknown element: {symbol}"

/-- The text itself is at fault, whatever elements there are. -/
def Error.isSyntax : Error → Bool
  | .unknownElement _ => false
  | _ => true

/-- The compositions counted so far: of the innermost open group, and of what is around it from
the inside out, last the whole formula. -/
structure Groups where
  inner : Composition
  around : List Composition

/-- Before the first piece. -/
def Groups.start : Groups := ⟨.empty, []⟩

/-- Refuses a count above the bound. -/
def counted : Option Composition → Except Error Composition
  | some c => .ok c
  | none => .error .countOverflow

/-- Takes up one piece. -/
def Groups.step (mode : Mode) (g : Groups) (p : Placed) : Except Error Groups :=
  match p.piece with
  | .atoms symbol count => do
    let inner ← counted (g.inner.add? symbol count)
    .ok { g with inner }
  | .openParen => .ok ⟨.empty, g.inner :: g.around⟩
  | .closeParen multiplier =>
    match g.around with
    | [] => .error (.unmatchedClosingParen p.offset)
    | outer :: around =>
      if maxCount < multiplier then .error .countOverflow
      else do
        let inner ← counted (outer.merge? g.inner multiplier)
        .ok ⟨inner, around⟩
  | .strayCount value =>
    match mode with
    | .strict => .error (.strayCount p.offset)
    | .permissive => if maxCount < value then .error .countOverflow else .ok g
  | .noise char =>
    match mode with
    | .strict => .error (.unexpectedCharacter char p.offset)
    | .permissive => .ok g

/-- After the last piece no group may be open. -/
def Groups.finish (g : Groups) : Except Error Composition :=
  if g.around = [] then .ok g.inner else .error (.unclosedParen g.around.length)

/-- The composition of the pieces, whether or not there is an element. -/
def ofPieces (mode : Mode) (pieces : List Placed) : Except Error Composition := do
  let g ← pieces.foldlM (Groups.step mode) Groups.start
  g.finish

/-- The composition of a formula. -/
def read (mode : Mode) (text : String) : Except Error Composition := do
  let c ← ofPieces mode (Piece.scan text)
  if mode = .strict ∧ c.isEmpty = true then .error .empty else .ok c

end Formula

end Abacus.Matter
