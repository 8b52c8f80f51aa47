import Abacus.Console.Json
import Abacus.Proofs.Decimal.Layouts

/-!
# A reader of JSON

The reader takes one character at a time. It keeps the brackets that are open with what was read
inside of them, so it has no recursion of its own, and reading two texts one after the other is
reading them together. A number ends only at a character that does not belong to it; what it stands
for is settled there, or at the end of the text.

* `Value`: what a text of JSON says. The fields of a record are kept in their order.
* `Frame`, `Place`: an open bracket with what stands in front of the cursor, and where the reader is
  inside the last one. `Reader` is both.
* `Reader.step`: what a character does; none where it cannot stand.
* `read?`: the value of a text.

Numbers have the form that JSON asks for and are read as doubles. Pairs of escaped surrogates are
not read, since a single code is a character or nothing. Control characters in quotes are refused
unless they are escaped.

* `Runs`: a text takes one reader to another. Texts one behind the other are `Runs.append`.
* `Carries`: a text that is a value, wherever a value may stand.

The reader is here to say what a written text means. It is no part of the program, which writes
documents (`Console/Json`) and reads none.
-/

namespace Abacus.Console.Json

/-! ## The reader -/

/-- What a text of JSON says. -/
inductive Value where
  | null
  | truth (b : Bool)
  | number (x : Float)
  | text (s : String)
  | list (items : List Value)
  | record (fields : List (String × Value))

/-- An open bracket with what was read behind it, the last first; in a record the name of the value
that is next, too. -/
inductive Frame where
  | list (before : List Value)
  | record (before : List (String × Value)) (name : String)

/-- What stands in quotes: a value, or a name behind other fields. -/
inductive Quoted where
  | value
  | name (before : List (String × Value))

/-- Where a reader stands inside the last bracket. -/
inductive Place where
  /-- in front of a value; right behind the bracket it may be missing -/
  | value (first : Bool)
  /-- in front of a name; right behind the bracket it may be missing -/
  | name (before : List (String × Value)) (first : Bool)
  /-- behind a name -/
  | colon (before : List (String × Value)) (name : String)
  /-- behind a value -/
  | behind (v : Value)
  /-- inside a number or a word, the last character first -/
  | bare (cs : List Char)
  /-- inside quotes, the last character first -/
  | quoted (q : Quoted) (cs : List Char)
  /-- behind a backslash -/
  | escape (q : Quoted) (cs : List Char)
  /-- inside an escaped code: how many digits are left, and the code so far -/
  | code (q : Quoted) (cs : List Char) (left : Nat) (value : Nat)

/-- The open brackets, the last first, and the place. -/
structure Reader where
  frames : List Frame
  place : Place

/-- Characters between values. -/
def isSpace (c : Char) : Bool := c == ' ' || c == '\n' || c == '\r' || c == '\t'

/-- Characters of numbers and words. -/
def isBare (c : Char) : Bool := c.isAlphanum || c == '-' || c == '+' || c == '.'

/-- Digits on both sides of a point, and no zero in front of other digits. -/
def isStrict (cs : List Char) : Bool :=
  let whole := cs.takeWhile Char.isDigit
  (whole == ['0'] || whole.head?.any (· != '0')) &&
    match cs.dropWhile Char.isDigit with
    | '.' :: places => places.head?.any Char.isDigit
    | _ => true

/-- Reads a number without sign. -/
def readNumeral? (cs : List Char) : Option Float :=
  if isStrict cs then (Decimal.read? cs).map Decimal.toFloat else none

/-- Reads a word or a number. -/
def readBare? : List Char → Option Value
  | ['n', 'u', 'l', 'l'] => some .null
  | ['t', 'r', 'u', 'e'] => some (.truth true)
  | ['f', 'a', 'l', 's', 'e'] => some (.truth false)
  | '-' :: cs => (readNumeral? cs).map fun x => .number (-x)
  | cs => (readNumeral? cs).map .number

/-- The character behind a backslash stands for another one. -/
def unescape? : Char → Option Char
  | '"' => some '"'
  | '\\' => some '\\'
  | '/' => some '/'
  | 'n' => some '\n'
  | 'r' => some '\r'
  | 't' => some '\t'
  | 'b' => some '\x08'
  | 'f' => some '\x0c'
  | _ => none

/-- The value of a hexadecimal digit. -/
def hexDigit? (c : Char) : Option Nat :=
  if c.isDigit then some (c.toNat - '0'.toNat)
  else if 'a' ≤ c ∧ c ≤ 'f' then some (c.toNat - 'a'.toNat + 10)
  else if 'A' ≤ c ∧ c ≤ 'F' then some (c.toNat - 'A'.toNat + 10)
  else none

namespace Reader

/-- What a number or a word stands for is settled where it ends. -/
def settle (r : Reader) : Option Reader :=
  match r.place with
  | .bare cs => (readBare? cs.reverse).map fun v => ⟨r.frames, .behind v⟩
  | _ => some r

/-- The closing quote. -/
def unquote (frames : List Frame) (s : String) : Quoted → Reader
  | .value => ⟨frames, .behind (.text s)⟩
  | .name before => ⟨frames, .colon before s⟩

/-- A character in front of a value. -/
def begin? (frames : List Frame) (first : Bool) (c : Char) : Option Reader :=
  if isBare c then some ⟨frames, .bare [c]⟩
  else
    match c with
    | '"' => some ⟨frames, .quoted .value []⟩
    | '[' => some ⟨.list [] :: frames, .value true⟩
    | '\x7b' => some ⟨frames, .name [] true⟩
    | ']' =>
      match first, frames with
      | true, .list _ :: outer => some ⟨outer, .behind (.list [])⟩
      | _, _ => none
    | _ => none

/-- A character behind a value. -/
def end? (frames : List Frame) (v : Value) (c : Char) : Option Reader :=
  match frames, c with
  | .list before :: outer, ',' => some ⟨.list (v :: before) :: outer, .value false⟩
  | .list before :: outer, ']' => some ⟨outer, .behind (.list (v :: before).reverse)⟩
  | .record before name :: outer, ',' => some ⟨outer, .name ((name, v) :: before) false⟩
  | .record before name :: outer, '\x7d' =>
    some ⟨outer, .behind (.record ((name, v) :: before).reverse)⟩
  | _, _ => none

/-- A character that is inside neither quotes nor a number or a word. -/
def between? (r : Reader) (c : Char) : Option Reader :=
  if isSpace c then some r
  else
    match r.place, c with
    | .value first, c => begin? r.frames first c
    | .name before _, '"' => some ⟨r.frames, .quoted (.name before) []⟩
    | .name _ true, '\x7d' => some ⟨r.frames, .behind (.record [])⟩
    | .colon before name, ':' => some ⟨.record before name :: r.frames, .value false⟩
    | .behind v, c => end? r.frames v c
    | _, _ => none

/-- Takes a character. -/
def step (r : Reader) (c : Char) : Option Reader :=
  match r.place with
  | .bare cs => if isBare c then some ⟨r.frames, .bare (c :: cs)⟩ else r.settle.bind (between? · c)
  | .quoted q cs =>
    if c = '"' then some (unquote r.frames (String.ofList cs.reverse) q)
    else if c = '\\' then some ⟨r.frames, .escape q cs⟩
    else if c.toNat < 0x20 then none
    else some ⟨r.frames, .quoted q (c :: cs)⟩
  | .escape q cs =>
    if c = 'u' then some ⟨r.frames, .code q cs 3 0⟩
    else (unescape? c).map fun c => ⟨r.frames, .quoted q (c :: cs)⟩
  | .code q cs left value =>
    (hexDigit? c).bind fun digit =>
      let value := 16 * value + digit
      match left with
      | left + 1 => some ⟨r.frames, .code q cs left value⟩
      | 0 => if value.isValidChar then some ⟨r.frames, .quoted q (Char.ofNat value :: cs)⟩ else none
  | _ => r.between? c

/-- The value that was read, if it is complete. -/
def result? (r : Reader) : Option Value :=
  match r.settle with
  | some ⟨[], .behind v⟩ => some v
  | _ => none

end Reader

/-- Reads a text that is one value. -/
def read? (s : String) : Option Value :=
  (s.toList.foldlM Reader.step ⟨[], .value false⟩).bind Reader.result?

/-! ## Reading texts one after the other -/

variable {r s t : Reader} {a b cs : List Char} {c : Char} {fs : List Frame} {v : Value}

/-- A text takes one reader to another. -/
def Runs (r : Reader) (cs : List Char) (s : Reader) : Prop := cs.foldlM Reader.step r = some s

/-- In front of a value the text takes the reader behind it, once the value is settled. -/
def Carries (r : Reader) (cs : List Char) (fs : List Frame) (v : Value) : Prop :=
  ∃ s, Runs r cs s ∧ s.settle = some ⟨fs, .behind v⟩

namespace Runs

theorem nil (r : Reader) : Runs r [] r := rfl

theorem one (h : r.step c = some s) : Runs r [c] s := by
  rw [Runs, List.foldlM_cons, h]
  rfl

theorem append (h : Runs r a s) (h' : Runs s b t) : Runs r (a ++ b) t := by
  rw [Runs, List.foldlM_append, h]
  exact h'

theorem cons (h : r.step c = some s) (h' : Runs s cs t) : Runs r (c :: cs) t := (one h).append h'

theorem carries (h : Runs r a s) (h' : Carries s b fs v) : Carries r (a ++ b) fs v := by
  obtain ⟨t, hrun, ht⟩ := h'
  exact ⟨t, h.append hrun, ht⟩

theorem carries_self (h : Runs r cs ⟨fs, .behind v⟩) : Carries r cs fs v := ⟨_, h, rfl⟩

end Runs

/-- Inside neither quotes nor a number or a word. -/
def Reader.Between (r : Reader) : Prop := ∀ c, r.step c = r.between? c

theorem between_value (fs : List Frame) (first : Bool) : (⟨fs, .value first⟩ : Reader).Between :=
  fun _ => rfl

theorem between_name (fs : List Frame) (before : List (String × Value)) (first : Bool) :
    (⟨fs, .name before first⟩ : Reader).Between :=
  fun _ => rfl

theorem between_behind (fs : List Frame) (v : Value) : (⟨fs, .behind v⟩ : Reader).Between :=
  fun _ => rfl

theorem Reader.between?_space (r : Reader) (h : isSpace c = true) : r.between? c = some r :=
  if_pos h

theorem isSpace_of_mem_newline {level : Nat} (h : c ∈ newline level) : isSpace c = true := by
  rcases List.mem_cons.mp h with rfl | h
  · rfl
  · rw [List.eq_of_mem_replicate h]
    rfl

theorem isBare_of_isSpace (h : isSpace c = true) : isBare c = false := by
  simp only [isSpace, Bool.or_eq_true, beq_iff_eq] at h
  rcases h with ((rfl | rfl) | rfl) | rfl <;> rfl

/-- Space between values changes nothing. -/
theorem Reader.Between.space (h : r.Between) (hcs : ∀ c ∈ cs, isSpace c = true) : Runs r cs r := by
  induction cs with
  | nil => exact .nil r
  | cons c cs ih =>
    obtain ⟨hc, hcs⟩ := List.forall_mem_cons.mp hcs
    exact .cons ((h c).trans (r.between?_space hc)) (ih hcs)

/-- A settled reader takes what does not belong to a number or a word as if nothing was open. -/
theorem step_of_settle (h : r.settle = some ⟨fs, .behind v⟩) (hc : isBare c = false) :
    r.step c = Reader.between? ⟨fs, .behind v⟩ c := by
  obtain ⟨frames, place⟩ := r
  cases place with
  | bare cs =>
    unfold Reader.step
    dsimp only
    rw [h, hc, if_neg Bool.false_ne_true]
    rfl
  | behind w =>
    cases h
    rfl
  | value | name | colon | quoted | escape | code => cases h

namespace Carries

/-- Behind a value the next character settles it. -/
theorem append_one (h : Carries r cs fs v) (hc : isBare c = false)
    (hs : Reader.between? ⟨fs, .behind v⟩ c = some s) : Runs r (cs ++ [c]) s := by
  obtain ⟨q, hrun, hq⟩ := h
  exact hrun.append (.one ((step_of_settle hq hc).trans hs))

/-- Space behind a value settles it. -/
theorem append_space (h : Carries r a fs v) (hb : ∀ c ∈ b, isSpace c = true) (hne : b ≠ []) :
    Runs r (a ++ b) ⟨fs, .behind v⟩ := by
  obtain ⟨c, b, rfl⟩ := List.exists_cons_of_ne_nil hne
  obtain ⟨hc, hb⟩ := List.forall_mem_cons.mp hb
  have hstep := h.append_one (isBare_of_isSpace hc) (Reader.between?_space _ hc)
  rw [← List.singleton_append, ← List.append_assoc]
  exact hstep.append ((between_behind fs v).space hb)

theorem append_newline (h : Carries r cs fs v) (level : Nat) :
    Runs r (cs ++ newline level) ⟨fs, .behind v⟩ :=
  h.append_space (fun _ => isSpace_of_mem_newline) (List.cons_ne_nil _ _)

/-- **A whole text is read as its value**, also with space behind it. -/
theorem read? (h : Carries ⟨[], .value false⟩ a [] v) (hb : ∀ c ∈ b, isSpace c = true) :
    Json.read? (String.ofList (a ++ b)) = some v := by
  have hresult : ∃ q, Runs ⟨[], .value false⟩ (a ++ b) q ∧ q.settle = some ⟨[], .behind v⟩ := by
    by_cases hne : b = []
    · rwa [hne, List.append_nil]
    · exact ⟨_, h.append_space hb hne, rfl⟩
  obtain ⟨q, hrun, hq⟩ := hresult
  rw [Json.read?, String.toList_ofList, hrun, Option.bind_some, Reader.result?, hq]

end Carries

end Abacus.Console.Json
