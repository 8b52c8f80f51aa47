import Abacus.Proofs.Console.Reader

/-!
# A written document reads back

Every value is written as a text of JSON that the reader takes for what the value says: numbers that
are not finite are `null`, and all others are themselves. A value carries the reader from in front
of it to behind it wherever it stands, so the proof follows the values and looks at brackets once.

* `content`: what a value says (`Value`). A count is a number like any other, so one that a double
  cannot hold is read rounded; its digits are all there in the text.
* `Brackets`: how items are read between brackets, with what the reader is in front of the next item
  and behind the last bracket. Lists and records are two of them (`listBrackets`, `recordBrackets`).
* `Takes`: the text of an item carries the reader over it, whatever was read already.
* `Reads`: a value is read as what it says, wherever it stands and however far it is indented.

Results:
* `runs_escape`: an escaped character stands for itself.
* `carries_writeNumber`: a number is read as itself, or as `null` if it is not finite.
* `Brackets.runs_enclose`: items between brackets, if each of them is read.
* `reads`, `read?_document`: every value, and a whole document, also with space behind it.

The reader is `Proofs/Console/Reader`. Used for the points of a curve (`Proofs/Console/Plot`).
-/

namespace Abacus.Console.Json

mutual

/-- What a value says. -/
def content : Json → Value
  | .number x => if x.isFinite then .number x else .null
  | .count n => .number (Float.ofNat n)
  | .text s => .text s
  | .list items => .list (itemContents items)
  | .record fields => .record (fieldContents fields)

/-- What the items of a list say. -/
def itemContents : List Json → List Value
  | [] => []
  | item :: items => item.content :: itemContents items

/-- What the fields of a record say. -/
def fieldContents : List (String × Json) → List (String × Value)
  | [] => []
  | (name, value) :: fields => (name, value.content) :: fieldContents fields

end

/-- The written form of a field. -/
def writeField (level : Nat) (field : String × Json) : List Char :=
  quote field.1 ++ [':', ' '] ++ write level field.2

theorem writeItems_eq (level : Nat) (items : List Json) :
    writeItems level items = items.map (write level) := by
  induction items with
  | nil => rfl
  | cons item items ih => rw [writeItems, ih, List.map_cons]

theorem writeFields_eq (level : Nat) (fields : List (String × Json)) :
    writeFields level fields = fields.map (writeField level) := by
  induction fields with
  | nil => rfl
  | cons field fields ih =>
    rw [writeFields, ih, List.map_cons]
    rfl

theorem itemContents_eq (items : List Json) : itemContents items = items.map content := by
  induction items with
  | nil => rfl
  | cons item items ih => rw [itemContents, ih, List.map_cons]

/-- What a field says. -/
def fieldContent (field : String × Json) : String × Value := (field.1, field.2.content)

theorem fieldContents_eq (fields : List (String × Json)) :
    fieldContents fields = fields.map fieldContent := by
  induction fields with
  | nil => rfl
  | cons field fields ih =>
    rw [fieldContents, ih, List.map_cons]
    rfl

variable {fs : List Frame} {v : Value} {cs : List Char} {c : Char} {q : Quoted} {x : Float}

/-! ## Quotes -/

theorem hexDigit?_digitChar : ∀ n < 16, hexDigit? (Nat.digitChar n) = some n := by decide

/-- The code of a control character is read as the character. -/
theorem runs_code (h : c.toNat < 0x20) :
    Runs ⟨fs, .quoted q cs⟩
      ['\\', 'u', '0', '0', Nat.digitChar (c.toNat / 16), Nat.digitChar (c.toNat % 16)]
      ⟨fs, .quoted q (c :: cs)⟩ := by
  have hhigh := hexDigit?_digitChar (c.toNat / 16) (by omega)
  have hlow := hexDigit?_digitChar (c.toNat % 16) (by omega)
  have hvalue : 16 * (c.toNat / 16) + c.toNat % 16 = c.toNat := Nat.div_add_mod _ _
  have hvalid : (16 * (c.toNat / 16) + c.toNat % 16).isValidChar := hvalue.symm ▸ c.valid
  refine .cons (s := ⟨fs, .escape q cs⟩) rfl (.cons (s := ⟨fs, .code q cs 3 0⟩) rfl
    (.cons (s := ⟨fs, .code q cs 2 0⟩) rfl (.cons (s := ⟨fs, .code q cs 1 0⟩) rfl
      (.cons (s := ⟨fs, .code q cs 0 (c.toNat / 16)⟩) ?_ (.one ?_)))))
  · rw [Reader.step]
    dsimp only
    rw [hhigh, Option.bind_some, Nat.mul_zero, Nat.zero_add]
  · rw [Reader.step]
    dsimp only
    rw [hlow, Option.bind_some, if_pos hvalid, hvalue, Char.ofNat_toNat]

/-- **An escaped character is read as the character.** -/
theorem runs_escape (fs : List Frame) (q : Quoted) (cs : List Char) (c : Char) :
    Runs ⟨fs, .quoted q cs⟩ (escape c) ⟨fs, .quoted q (c :: cs)⟩ := by
  unfold escape
  split
  · rfl
  · rfl
  · rfl
  · rfl
  · rfl
  · rfl
  · rfl
  · split
    · exact runs_code ‹_›
    · rename_i hquote hslash _ _ _ _ _ hcontrol
      refine .one ?_
      unfold Reader.step
      dsimp only
      rw [if_neg hquote, if_neg hslash, if_neg hcontrol]

theorem runs_escaped (fs : List Frame) (q : Quoted) (cs s : List Char) :
    Runs ⟨fs, .quoted q cs⟩ (s.flatMap escape) ⟨fs, .quoted q (s.reverse ++ cs)⟩ := by
  induction s generalizing cs with
  | nil => exact .nil _
  | cons c s ih =>
    rw [List.flatMap_cons, List.reverse_cons, List.append_assoc]
    exact (runs_escape fs q cs c).append (ih (c :: cs))

/-- A text in quotes is read as the text. -/
theorem runs_quote {r : Reader} (hr : r.step '"' = some ⟨fs, .quoted q []⟩) (s : String) :
    Runs r (quote s) (Reader.unquote fs s q) := by
  have hrun := runs_escaped fs q [] s.toList
  rw [List.append_nil] at hrun
  have hclose : Reader.step ⟨fs, .quoted q s.toList.reverse⟩ '"' = some (.unquote fs s q) := by
    unfold Reader.step
    dsimp only
    rw [if_pos rfl, List.reverse_reverse, String.ofList_toList]
  exact (Runs.cons hr hrun).append (.one hclose)

/-! ## Numbers -/

/-- A number or a word is settled as what it is read as. -/
theorem carries_bare {first : Bool} (hcs : ∀ c ∈ cs, isBare c = true) (hne : cs ≠ [])
    (hv : readBare? cs = some v) : Carries ⟨fs, .value first⟩ cs fs v := by
  have hrun (cs acc : List Char) (hcs : ∀ c ∈ cs, isBare c = true) :
      Runs ⟨fs, .bare acc⟩ cs ⟨fs, .bare (cs.reverse ++ acc)⟩ := by
    induction cs generalizing acc with
    | nil => exact .nil _
    | cons c cs ih =>
      obtain ⟨hc, hcs⟩ := List.forall_mem_cons.mp hcs
      rw [List.reverse_cons, List.append_assoc]
      refine .cons ?_ (ih (c :: acc) hcs)
      unfold Reader.step
      dsimp only
      rw [if_pos hc]
  obtain ⟨c, cs, rfl⟩ := List.exists_cons_of_ne_nil hne
  obtain ⟨hc, hcs⟩ := List.forall_mem_cons.mp hcs
  have hspace : ¬ isSpace c = true := fun h => by
    rw [isBare_of_isSpace h] at hc
    cases hc
  have hbegin : Reader.step ⟨fs, .value first⟩ c = some ⟨fs, .bare [c]⟩ :=
    (if_neg hspace).trans (if_pos hc)
  refine ⟨_, .cons hbegin (hrun cs [c] hcs), ?_⟩
  unfold Reader.settle
  dsimp only
  rw [List.reverse_append, List.reverse_reverse]
  exact congrArg (Option.map _) hv

/-- What is strict passes for a number. -/
theorem isStrict_of_strict (h : Strict cs) : isStrict cs = true := by
  obtain @⟨w, t, hw, ht, hp⟩ := h
  obtain ⟨htake, hdrop⟩ := takeWhile_of_head ht
  have hwhole : (w == ['0'] || w.head?.any (· != '0')) = true := by
    by_cases hzero : w = ['0']
    · rw [hzero]
      rfl
    · obtain ⟨c, r, rfl⟩ := List.exists_cons_of_ne_nil hw.ne_nil
      have hc : c ≠ '0' := fun hc => hzero (hw.zero (congrArg some hc))
      rw [Bool.or_eq_true]
      exact .inr (bne_iff_ne.mpr hc)
  unfold isStrict
  rw [(takeWhile_digits hw.digits).1, (takeWhile_digits hw.digits).2, htake, hdrop, List.append_nil]
  dsimp only
  rw [hwhole, Bool.true_and]
  split
  · obtain ⟨c, hc, hdigit⟩ := hp _ rfl
    rw [hc]
    exact hdigit
  · rfl

/-- A strict numeral is read as its value, and as the negative of it behind a minus sign. -/
theorem readBare?_of_strict {d : Decimal} (hs : Spells cs d) (h : Strict cs) :
    readBare? cs = some (.number d.toFloat) ∧
      readBare? ('-' :: cs) = some (.number (-d.toFloat)) := by
  have hread : readNumeral? cs = some d.toFloat := by
    rw [readNumeral?, if_pos (isStrict_of_strict h), Decimal.read?_of_spells hs, Option.map_some]
  obtain ⟨c, r, rfl, hc⟩ := h.exists_cons
  -- neither a word nor a minus sign begins with a digit
  have hnot {a : Char} {b : List Char} (ha : a.isDigit = false) (heq : c :: r = a :: b) :
      False := by
    obtain ⟨rfl, -⟩ := List.cons.inj heq
    rw [ha] at hc
    cases hc
  constructor
  · unfold readBare?
    split
    · exact (hnot rfl ‹_›).elim
    · exact (hnot rfl ‹_›).elim
    · exact (hnot rfl ‹_›).elim
    · exact (hnot rfl ‹_›).elim
    · rw [hread]
      rfl
  · exact congrArg (Option.map _) hread

theorem isBare_of_numeralChar (h : NumeralChar c) : isBare c = true := by
  rcases h with h | h | rfl | rfl | rfl
  · simp [isBare, Char.isAlphanum, h]
  · rw [isExponentMark, Bool.or_eq_true, beq_iff_eq, beq_iff_eq] at h
    rcases h with rfl | rfl <;> rfl
  · rfl
  · rfl
  · rfl

/-- **A finite double is read as itself**, and all others as `null`. -/
theorem carries_writeNumber (fs : List Frame) (first : Bool) (x : Float) :
    Carries ⟨fs, .value first⟩ (writeNumber x) fs (content (.number x)) := by
  unfold writeNumber content
  by_cases hfin : x.isFinite = true
  · rw [if_pos hfin, if_pos hfin]
    refine carries_bare (fun c hc => isBare_of_numeralChar (numberLayout.numeralChar_write hfin hc))
      (numberLayout.write_ne_nil hfin) ?_
    obtain ⟨cs, d, hspells, hstrict, h⟩ := numberLayout.write_spec hfin
    obtain ⟨hplain, hminus⟩ := readBare?_of_strict hspells hstrict
    rcases h with ⟨hwrite, rfl⟩ | ⟨hwrite, rfl⟩
    · rw [hwrite, hplain]
    · rw [hwrite, hminus]
  · rw [if_neg hfin, if_neg hfin]
    exact carries_bare (List.all_eq_true.mp rfl) (List.cons_ne_nil _ _) rfl

/-- A count is read as the double nearest to it. -/
theorem carries_count (fs : List Frame) (first : Bool) (n : Nat) :
    Carries ⟨fs, .value first⟩ (Nat.toDigits 10 n) fs (.number (Float.ofNat n)) := by
  have hwhole := whole_toDigits n
  have hspells := Spells.mk (.whole hwhole.digits hwhole.ne_nil) .absent
  rw [List.append_nil, Nat.ofDigitChars_ten_toDigits] at hspells
  exact carries_bare (fun c hc => isBare_of_numeralChar (.inl (hwhole.digits c hc))) hwhole.ne_nil
    (readBare?_of_strict hspells (.of_whole hwhole)).1

/-! ## Brackets -/

theorem step_behind (fs : List Frame) (v : Value) (h : isSpace c = false) :
    Reader.step ⟨fs, .behind v⟩ c = Reader.end? fs v c :=
  if_neg (Bool.eq_false_iff.mp h)

/-- How items are read between brackets. The items that were read already are given last first. -/
structure Brackets (α : Type) where
  closing : Char
  /-- in front of an item, or of the closing bracket if there is none -/
  before : List α → Reader
  /-- what is open behind an item -/
  frames : α → List α → List Frame
  /-- what an item says -/
  value : α → Value
  /-- behind the closing bracket -/
  after : List α → Reader
  between_before : ∀ done, (before done).Between
  step_none : (before []).step closing = some (after [])
  end_comma : ∀ a done, Reader.end? (frames a done) (value a) ',' = some (before (a :: done))
  end_closing : ∀ a done, Reader.end? (frames a done) (value a) closing = some (after (a :: done))
  closing_visible : isSpace closing = false

namespace Brackets

variable {α : Type} {k : Brackets α} {write : α → List Char} {items : List α} {level : Nat}

/-- The text of an item carries the reader over it, whatever was read already. -/
def Takes (k : Brackets α) (write : α → List Char) (a : α) : Prop :=
  ∀ done, Carries (k.before done) (write a) (k.frames a done) (k.value a)

/-- A new line in front of an item changes nothing. -/
theorem runs_newline (k : Brackets α) (done : List α) (level : Nat) :
    Runs (k.before done) (newline level) (k.before done) :=
  (k.between_before done).space fun _ => isSpace_of_mem_newline

/-- The items behind another one, and the closing bracket. -/
theorem runs_rest (level : Nat) {r : Reader} {a : α} {done : List α}
    (h : Carries r cs (k.frames a done) (k.value a)) (hitems : ∀ a ∈ items, k.Takes write a) :
    Runs r (cs ++ (items.map write).flatMap (fun item => ',' :: newline (level + 1) ++ item) ++
      newline level ++ [k.closing]) (k.after (items.reverse ++ a :: done)) := by
  induction items generalizing a done cs with
  | nil =>
    rw [List.map_nil, List.flatMap_nil, List.append_nil]
    exact (h.append_newline level).append
      (.one ((step_behind _ _ k.closing_visible).trans (k.end_closing a done)))
  | cons b items ih =>
    obtain ⟨hb, hitems⟩ := List.forall_mem_cons.mp hitems
    have hcomma : Runs r (cs ++ [',']) (k.before (a :: done)) :=
        h.append_one rfl (k.end_comma a done)
    have hline := hcomma.append (k.runs_newline (a :: done) (level + 1))
    have hrest := ih (hline.carries (hb (a :: done))) hitems
    simpa using hrest

/-- **Items between brackets**, if each of them carries the reader over it. -/
theorem runs_enclose {r : Reader} {opening : Char} (hopen : r.step opening = some (k.before []))
    (hitems : ∀ a ∈ items, k.Takes write a) :
    Runs r (enclose opening k.closing level (items.map write)) (k.after items.reverse) := by
  cases items with
  | nil => exact .cons hopen (.one k.step_none)
  | cons a items =>
    obtain ⟨ha, hitems⟩ := List.forall_mem_cons.mp hitems
    have hfirst := (Runs.cons hopen (k.runs_newline [] (level + 1))).carries (ha [])
    have hrest := runs_rest level hfirst hitems
    simpa [enclose] using hrest

end Brackets

/-- The brackets of a list. -/
def listBrackets (fs : List Frame) : Brackets Json where
  closing := ']'
  before done := ⟨.list (done.map content) :: fs, .value done.isEmpty⟩
  frames _ done := .list (done.map content) :: fs
  value := content
  after done := ⟨fs, .behind (.list (done.map content).reverse)⟩
  between_before _ := between_value _ _
  step_none := rfl
  end_comma _ _ := rfl
  end_closing _ _ := rfl
  closing_visible := rfl

theorem listBrackets_after (fs : List Frame) (items : List Json) :
    (listBrackets fs).after items.reverse = ⟨fs, .behind (.list (items.map content))⟩ := by
  show Reader.mk fs (.behind (.list (items.reverse.map content).reverse)) = _
  rw [List.map_reverse, List.reverse_reverse]

/-- The brackets of a record. -/
def recordBrackets (fs : List Frame) : Brackets (String × Json) where
  closing := '\x7d'
  before done := ⟨fs, .name (done.map fieldContent) done.isEmpty⟩
  frames field done := .record (done.map fieldContent) field.1 :: fs
  value field := field.2.content
  after done := ⟨fs, .behind (.record (done.map fieldContent).reverse)⟩
  between_before _ := between_name _ _ _
  step_none := rfl
  end_comma _ _ := rfl
  end_closing _ _ := rfl
  closing_visible := rfl

theorem recordBrackets_after (fs : List Frame) (fields : List (String × Json)) :
    (recordBrackets fs).after fields.reverse =
      ⟨fs, .behind (.record (fields.map fieldContent))⟩ := by
  show Reader.mk fs (.behind (.record (fields.reverse.map fieldContent).reverse)) = _
  rw [List.map_reverse, List.reverse_reverse]

/-! ## Values -/

/-- The value is read as what it says, wherever it stands. -/
def Reads (level : Nat) (j : Json) : Prop :=
  ∀ fs first, Carries ⟨fs, .value first⟩ (write level j) fs j.content

/-- A list is read if its items are. -/
theorem reads_list {level : Nat} {items : List Json} (h : ∀ item ∈ items, item.Reads (level + 1)) :
    (Json.list items).Reads level := by
  intro fs first
  rw [write, writeItems_eq, content, itemContents_eq]
  have hrun : Runs ⟨fs, .value first⟩ (enclose '[' ']' level (items.map (write (level + 1))))
      ((listBrackets fs).after items.reverse) :=
    (listBrackets fs).runs_enclose rfl fun a ha done => h a ha _ _
  rw [listBrackets_after] at hrun
  exact hrun.carries_self

/-- A record is read if the values of its fields are. -/
theorem reads_record {level : Nat} {fields : List (String × Json)}
    (h : ∀ field ∈ fields, field.2.Reads (level + 1)) : (Json.record fields).Reads level := by
  intro fs first
  rw [write, writeFields_eq, content, fieldContents_eq]
  have hfield (field : String × Json) (hmem : field ∈ fields) :
      (recordBrackets fs).Takes (writeField (level + 1)) field := by
    intro done
    have hname : Runs ((recordBrackets fs).before done) (quote field.1)
        ⟨fs, .colon (done.map fieldContent) field.1⟩ :=
      runs_quote (q := .name (done.map fieldContent)) rfl field.1
    have hcolon : Runs ⟨fs, .colon (done.map fieldContent) field.1⟩ [':', ' ']
        ⟨(recordBrackets fs).frames field done, .value false⟩ := rfl
    exact (hname.append hcolon).carries (h field hmem _ _)
  have hrun : Runs ⟨fs, .value first⟩
      (enclose '\x7b' '\x7d' level (fields.map (writeField (level + 1))))
      ((recordBrackets fs).after fields.reverse) :=
    (recordBrackets fs).runs_enclose rfl hfield
  rw [recordBrackets_after] at hrun
  exact hrun.carries_self

mutual

/-- **A value is read as what it says**, wherever it stands. -/
theorem reads (j : Json) (level : Nat) : j.Reads level := by
  match j with
  | .number x => exact fun fs first => carries_writeNumber fs first x
  | .count n => exact fun fs first => carries_count fs first n
  | .text s => exact fun fs first => (runs_quote (q := .value) rfl s).carries_self
  | .list items => exact reads_list (reads_items items (level + 1))
  | .record fields => exact reads_record (reads_fields fields (level + 1))

/-- So are the items of a list. -/
theorem reads_items (items : List Json) (level : Nat) : ∀ item ∈ items, item.Reads level := by
  match items with
  | [] => exact nofun
  | item :: items => exact List.forall_mem_cons.mpr ⟨reads item level, reads_items items level⟩

/-- So are the values in the fields of a record. -/
theorem reads_fields (fields : List (String × Json)) (level : Nat) :
    ∀ field ∈ fields, field.2.Reads level := by
  match fields with
  | [] => exact nofun
  | (name, value) :: fields =>
    exact List.forall_mem_cons.mpr ⟨reads value level, reads_fields fields level⟩

end

/-- **A written document is read as what the value says**, also with space behind it. -/
theorem read?_document (j : Json) {space : String} (h : space.toList.all isSpace = true) :
    read? (j.document ++ space) = some j.content := by
  have hread := (reads j 0 [] false).read? (List.all_eq_true.mp h)
  rwa [String.ofList_append, String.ofList_toList] at hread

end Abacus.Console.Json
