import Abacus.Proofs.Grammar.Fault
import Abacus.Proofs.Keypad

/-!
# The display and the evaluator agree

The display reads keys in the alphabet of the keypad and shows one of two fixed texts where there is
no number to show. The evaluator reads the scientific alphabet and reports every cause. On keys of
the keypad the two alphabets are cut into the same tokens and read as the same term: the alphabet is
looked at before anything is cut, and nothing behind that depends on it. So the display is told by
the evaluator, and that blank keys are not read at all makes no difference.

* `Token.scan_keypad`, `Term.parse_keypad`: keys in both alphabets.
* `Term.parse_eq_unsupported_iff`: no other error is shown as keys that are not on the keypad.
* `readout`: the display of keys that are read, blank or not.
* `readout_eq`: it is what the evaluator finds, on the keys of the keypad.
* `display_spec`: when each of the two texts is shown, and when a number is.

The statement is about `Keypad.display` for all keys whatever. What the text of a number looks like
is left to `Proofs/Shown`.
-/

namespace Abacus

variable {keys : String}

/-! ## Two alphabets -/

/-- Keys belong to the scientific alphabet, too. -/
theorem Alphabet.permits_scientific {cs : List Char} (h : keypad.permits cs = true) :
    scientific.permits cs = true :=
  List.all_eq_true.mpr fun c hc => admits_scientific (List.all_eq_true.mp h c hc)

/-- Keys are cut into the same tokens in both alphabets. -/
theorem Token.scan_keypad (h : Alphabet.keypad.permits keys.toList = true) :
    scan .keypad keys = scan .scientific keys := by
  rw [scan, scan, if_pos h, if_pos (Alphabet.permits_scientific h)]

/-- Keys are read as the same term in both alphabets, or refused for the same reason. -/
theorem Term.parse_keypad (h : Alphabet.keypad.permits keys.toList = true) :
    parse .keypad keys = parse .scientific keys :=
  congrArg (· >>= ofLexemes none) (Token.scan_keypad h)

/-! ## Characters outside the alphabet -/

/-- **Only characters outside the alphabet are refused as such.** -/
theorem Term.parse_eq_unsupported_iff {a : Alphabet} {text : String} :
    parse ⟨a, none⟩ text = .error .unsupportedCharacters ↔ a.permits text.toList = false := by
  constructor
  · intro h
    rcases Except.bind_eq_error.mp h with h | ⟨ts, -, h⟩
    · exact Token.scan_eq_unsupported_iff.mp h
    · exact absurd rfl (ofLexemes_fault h).kind_ne_lexical
  · intro h
    exact Except.bind_eq_error.mpr (.inl (Token.scan_eq_unsupported_iff.mpr h))

namespace Keypad

/-! ## What is shown -/

/-- The display of keys that are read, blank or not. -/
def readout (keys : String) : String :=
  match Entry.read .keypad keys with
  | .error .unsupportedCharacters => invalidInput
  | .error _ => mathError
  | .ok e =>
    match e.evaluate with
    | .ok x => (shown? x).getD mathError
    | .error _ => mathError

/-- The display of what the evaluator found. -/
def outcome : Except Term.Error Float → String
  | .ok x => (shown? x).getD mathError
  | .error _ => mathError

theorem display_eq_ite (keys : String) :
    display keys = if isBlankText keys.toList then "0" else readout keys := rfl

theorem readout_of_not_permits (h : Alphabet.keypad.permits keys.toList = false) :
    readout keys = invalidInput := by
  have hparse : Term.parse .keypad keys = .error .unsupportedCharacters :=
    Term.parse_eq_unsupported_iff.mpr h
  unfold readout Entry.read
  rw [hparse]
  rfl

/-- **On the keys of the keypad the evaluator tells what is shown.** -/
theorem readout_eq (h : Alphabet.keypad.permits keys.toList = true) :
    readout keys = outcome (evaluate keys) := by
  unfold readout Entry.read evaluate
  rw [← Term.parse_keypad h]
  cases hparse : Term.parse .keypad keys with
  | error e =>
    cases e with
    | unsupportedCharacters =>
      rw [Term.parse_eq_unsupported_iff.mp hparse] at h
      cases h
    | _ => rfl
  | ok t =>
    change (match t.evaluate none with
      | .ok x => (shown? x).getD mathError
      | .error _ => mathError) = outcome (t.evaluate none)
    cases t.evaluate none <;> rfl

/-- Blank characters are no tokens. -/
theorem scanFrom_blank_text {cs : List Char} (h : isBlankText cs = true) (offset : Nat) :
    Token.scanFrom offset cs = .ok [] := by
  induction cs generalizing offset with
  | nil => rw [Token.scanFrom]
  | cons c cs ih =>
    obtain ⟨hc, hcs⟩ := Bool.and_eq_true_iff.mp h
    rw [Token.scanFrom_blank hc]
    exact ih hcs _

/-- Blank keys are read as zero. -/
theorem readout_of_blank (h : isBlankText keys.toList = true) : readout keys = "0" := by
  have hblank := List.all_eq_true.mp h
  have hpermits : Alphabet.keypad.permits keys.toList = true :=
    List.all_eq_true.mpr fun c hc => Token.admits_of_isBlank (hblank c hc)
  have hscan : Token.scan .scientific keys = .ok [] := by
    rw [Token.scan, if_pos (Alphabet.permits_scientific hpermits), scanFrom_blank_text h]
  have hparse : Term.parse .scientific keys = .ok (.literal 0) := Except.bind_of_ok hscan _
  have hvalue : evaluate keys = .ok 0 := Except.bind_of_ok hparse _
  have hzero : shown? 0 = some "0" := by decide +kernel
  rw [readout_eq hpermits, hvalue, outcome, hzero]
  rfl

/-- **That blank keys are not read makes no difference.** -/
theorem display_eq_readout (keys : String) : display keys = readout keys := by
  rw [display_eq_ite]
  split
  · rename_i h
    exact (readout_of_blank h).symm
  · rfl

/-- A number is shown iff it is finite. -/
theorem shown?_isSome_iff {x : Float} : (shown? x).isSome = true ↔ x.isFinite = true := by
  rw [shown?, Option.isSome_map]
  constructor
  · intro h
    obtain ⟨v, hv⟩ := Option.isSome_iff_exists.mp h
    obtain ⟨sign, m, e, hc, he, rfl⟩ := Double.exists_ofPoint hv
    exact Double.isFinite_ofPoint sign hc he
  · intro h
    obtain ⟨v, hv⟩ := Double.exists_exact h
    rw [hv]
    rfl

/-- The text of a number can be entered, so it is not the text for foreign characters. -/
theorem ne_invalidInput_of_shown {x : Float} {d : String} (h : shown? x = some d) :
    d ≠ invalidInput := by
  obtain ⟨y, hy, rfl, -⟩ := exists_stands_for h
  have hpermits := (Term.exists_parse_plain .keypad hy).1
  intro heq
  have hwrite : plain.write y = invalidInput.toList := by
    rw [← heq, Layout.text, String.toList_ofList]
  rw [hwrite] at hpermits
  cases hpermits

theorem outcome_ne_invalidInput (r : Except Term.Error Float) : outcome r ≠ invalidInput := by
  have herror : mathError ≠ invalidInput := by decide
  cases r with
  | error e => exact herror
  | ok x =>
    rw [outcome]
    cases hx : shown? x with
    | none => exact herror
    | some d => exact ne_invalidInput_of_shown hx

/-- **The display agrees with the evaluator.** Keys with a character that is not on the keypad, and
no others, are shown as such. For all others both alphabets give the same tokens, and the same term
or the same error; and the display is the text of the value if it is finite, and the other fixed
text in every other case. Blank keys are shown as if they were read. -/
theorem display_spec (keys : String) :
    (display keys = invalidInput ↔ Alphabet.keypad.permits keys.toList = false) ∧
    (Alphabet.keypad.permits keys.toList = true →
      Token.scan .keypad keys = Token.scan .scientific keys ∧
      Term.parse .keypad keys = Term.parse .scientific keys ∧
      (∀ x, evaluate keys = .ok x → x.isFinite = true → shown? x = some (display keys)) ∧
      ((∀ x, evaluate keys = .ok x → x.isFinite = false) → display keys = mathError)) ∧
    display keys = readout keys := by
  rw [display_eq_readout]
  refine ⟨⟨fun h => ?_, readout_of_not_permits⟩, fun h => ?_, rfl⟩
  · by_contra hpermits
    rw [readout_eq (Bool.eq_true_of_not_eq_false hpermits)] at h
    exact outcome_ne_invalidInput _ h
  · rw [readout_eq h]
    refine ⟨Token.scan_keypad h, Term.parse_keypad h, fun x hx hfin => ?_, fun hnone => ?_⟩
    · obtain ⟨d, hd⟩ := Option.isSome_iff_exists.mp (shown?_isSome_iff.mpr hfin)
      rw [hx, outcome, hd]
      rfl
    · cases hvalue : evaluate keys with
      | error e => rfl
      | ok x =>
        have hshown : shown? x = none := by
          by_contra hsome
          have hfin := shown?_isSome_iff.mp (Option.isSome_iff_ne_none.mpr hsome)
          rw [hnone x hvalue] at hfin
          cases hfin
        rw [outcome, hshown]
        rfl

/-- A point without digits is on the keypad but no number; a power sign is not on the keypad. -/
theorem display_spec_point : display "." = mathError ∧ display "2^3" = invalidInput := by
  obtain ⟨-, hkeys, -⟩ := display_spec "."
  obtain ⟨-, -, -, herror⟩ := hkeys (by decide)
  obtain ⟨hforeign, -, -⟩ := display_spec "2^3"
  have hpoint : evaluate "." = .error (.unexpectedCharacter '.' 0) := by with_unfolding_all rfl
  refine ⟨herror fun x hx => ?_, hforeign.mpr (by decide)⟩
  rw [hpoint] at hx
  cases hx

end Keypad

end Abacus
