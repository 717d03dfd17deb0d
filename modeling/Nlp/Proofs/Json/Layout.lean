import Nlp.Proofs.Json.Scalar

/-!
# Values are read from what is written for them

Every value that is written is read, in either layout: nothing is lost between the characters, and
only single values may come out as others.  What is no number has been written as `null`.  A number
is read as what its characters come to: an integer in its range as itself, and a double as a double,
which is the one that was written if the reader of numbers finds its way back to it.

## Main definitions

* `Json.reread`: the value that is read where another has been written.
* `Json.Reads`: a text is read as a value, whatever comes after it.
* `Double.ReadsBack`: a double that the reader of numbers brings back.

## Main results

* `Json.parse?_written`: what is read from what is written.
* `Json.reread_int`, `Json.reread_real`, `Json.reread_readsBack`: what becomes of a number.
-/

namespace Nlp.Json

/-! ## What is read again -/

/-- What a number is read as that is written like this. -/
def ofNumberText (s : String) : Json :=
  match numeral? s.toList with
  | some (n, _) => ofNumeral n
  | none => .unreadable

mutual

/-- The value that is read where this one has been written: the numbers may be read otherwise, and
what is no number has been written as `null`. -/
def reread : Json → Json
  | .int i => ofNumberText (toString i)
  | .real d => if d.isFinite then ofNumberText (d.text .json) else .null
  | .array items => .array (rereadItems items)
  | .object fields => .object (rereadFields fields)
  | .unreadable => .null
  | .null => .null
  | .bool b => .bool b
  | .text s => .text s

/-- The items that are read. -/
def rereadItems : List Json → List Json
  | [] => []
  | item :: items => reread item :: rereadItems items

/-- The fields that are read. -/
def rereadFields : List (String × Json) → List (String × Json)
  | [] => []
  | (name, value) :: fields => (name, reread value) :: rereadFields fields

end

/-! ## Texts that are read -/

/-- A blank. -/
def IsBlank (c : Char) : Prop :=
  c = ' ' ∨ c = '\t' ∨ c = '\n' ∨ c = '\r'

instance : DecidablePred IsBlank :=
  fun c => inferInstanceAs (Decidable (c = ' ' ∨ c = '\t' ∨ c = '\n' ∨ c = '\r'))

theorem skipBlanks_append {blanks : List Char} (h : ∀ c ∈ blanks, IsBlank c) (cs : List Char) :
    skipBlanks (blanks ++ cs) = skipBlanks cs := by
  induction blanks with
  | nil => rfl
  | cons c blanks ih =>
    rw [List.forall_mem_cons] at h
    exact (if_pos h.1).trans (ih h.2)

theorem skipBlanks_cons {c : Char} (h : ¬ IsBlank c) (cs : List Char) :
    skipBlanks (c :: cs) = c :: cs :=
  if_neg h

/-- A text is read as a value, whatever comes after it, by as many steps as it has characters. -/
structure Reads (text : List Char) (j : Json) : Prop where
  starts : ∃ c cs, text = c :: cs ∧ ¬ IsBlank c ∧ c ≠ ']'
  value : ∀ {depth rest}, text.length ≤ depth → Stops rest →
    value? depth (text ++ rest) = some (j, rest)

/-- A text is read by the first step. -/
theorem Reads.of_step {c : Char} {cs : List Char} {j : Json} (hblank : ¬ IsBlank c)
    (hbracket : c ≠ ']')
    (h : ∀ depth rest, cs.length ≤ depth → Stops rest →
      value? (depth + 1) (c :: (cs ++ rest)) = some (j, rest)) : Reads (c :: cs) j where
  starts := ⟨c, cs, rfl, hblank, hbracket⟩
  value {depth rest} hdepth hrest := by
    obtain ⟨depth, rfl⟩ := Nat.exists_eq_succ_of_ne_zero (Nat.ne_zero_of_lt hdepth)
    exact h depth rest (Nat.le_of_succ_le_succ hdepth) hrest

theorem reads_null : Reads "null".toList .null :=
  .of_step (by decide) (by decide) fun _ _ _ _ => rfl

theorem reads_bool (b : Bool) : Reads (if b then "true" else "false").toList (.bool b) := by
  cases b <;> exact .of_step (by decide) (by decide) fun _ _ _ _ => rfl

theorem toList_quote (s : String) :
    (quote s).toList = '"' :: (s.toList.flatMap escape ++ ['"']) := by
  simp [quote]

theorem reads_quote (s : String) : Reads (quote s).toList (.text s) := by
  rw [toList_quote]
  refine .of_step (by decide) (by decide) fun depth rest _ _ => ?_
  have hread := string?_quoted s rest
  rw [List.append_assoc]
  show (string? _).map _ = _
  rw [List.singleton_append, hread]
  rfl

theorem not_isBlank_of_isDigit {c : Char} (hc : c.isDigit = true) : ¬ IsBlank c := by
  rintro (rfl | rfl | rfl | rfl) <;> cases hc

/-- Where a sign or a digit is ahead, a number is read. -/
theorem value?_number {c : Char} (hc : c = '-' ∨ c.isDigit = true) (depth : Nat)
    (cs : List Char) :
    value? (depth + 1) (c :: cs) =
      (numeral? (c :: cs)).map fun (n, rest) => (ofNumeral n, rest) := by
  have hblank : ¬ IsBlank c := hc.elim (by rintro rfl; decide) not_isBlank_of_isDigit
  have hne : ∀ d : Char, d ≠ '-' → d.isDigit = false → c ≠ d := by
    rintro d hd hdigit rfl
    exact hc.elim hd fun h => Bool.false_ne_true (hdigit.symm.trans h)
  rw [value?, skipBlanks_cons hblank]
  split
  iterate 6
    next heq => exact absurd (List.cons.inj heq).1 (hne _ (by decide) (by decide))
  rfl

/-- A number is read as what its characters come to. -/
theorem reads_number {w : Spelling} (hw : w.Valid) (negative : Bool) :
    Reads (Spelling.signChars negative ++ w.chars) (ofNumeral (w.numeral negative)) := by
  have hstart : ∃ c cs, Spelling.signChars negative ++ w.chars = c :: cs ∧
      (c = '-' ∨ c.isDigit = true) := by
    cases negative with
    | true => exact ⟨'-', w.chars, rfl, .inl rfl⟩
    | false =>
      obtain ⟨c, cs, hchars, hc⟩ := hw.exists_chars
      exact ⟨c, cs, hchars, .inr hc⟩
  obtain ⟨c, cs, htext, hc⟩ := hstart
  have hblank : ¬ IsBlank c := hc.elim (by rintro rfl; decide) not_isBlank_of_isDigit
  have hbracket : c ≠ ']' := by
    rintro rfl
    exact hc.elim (by decide) (by decide)
  rw [htext]
  refine .of_step hblank hbracket fun depth rest _ hrest => ?_
  have hread := numeral?_append hw negative hrest
  rw [htext, List.cons_append] at hread
  rw [value?_number hc, hread]
  rfl

/-- The characters of a number, alone, come to the number. -/
theorem ofNumberText_eq {s : String} {w : Spelling} {negative : Bool} (hw : w.Valid)
    (hs : s.toList = Spelling.signChars negative ++ w.chars) :
    ofNumberText s = ofNumeral (w.numeral negative) := by
  have hread := numeral?_append hw negative stops_nil
  rw [List.append_nil] at hread
  rw [ofNumberText, hs, hread]

theorem reads_int (i : Int) : Reads (toString i).toList (ofNumberText (toString i)) := by
  rw [ofNumberText_eq (Spelling.valid_natural _) (toList_toString_int i), toList_toString_int]
  exact reads_number (Spelling.valid_natural _) _

theorem reads_real {d : Double} (hd : d.isFinite = true) :
    Reads (d.text .json).toList (ofNumberText (d.text .json)) := by
  obtain ⟨w, hw, -, htext⟩ := Double.exists_spelling hd
  rw [ofNumberText_eq hw htext, htext]
  exact reads_number hw _

/-- A value that holds no others is read. -/
theorem reads_scalarText {j : Json} (harray : ∀ items, j ≠ .array items)
    (hobject : ∀ fields, j ≠ .object fields) : Reads (scalarText j).toList (reread j) := by
  cases j with
  | null | unreadable => exact reads_null
  | bool b => exact reads_bool b
  | int i => exact reads_int i
  | text s => exact reads_quote s
  | real d =>
    rw [scalarText, reread]
    split
    · exact reads_real ‹_›
    · exact reads_null
  | array items => exact absurd rfl (harray items)
  | object fields => exact absurd rfl (hobject fields)

/-! ## Lists and objects -/

theorem value?_blanks {blanks : List Char} (h : ∀ c ∈ blanks, IsBlank c) (depth : Nat)
    (cs : List Char) : value? depth (blanks ++ cs) = value? depth cs := by
  cases depth with
  | zero => rfl
  | succ depth => rw [value?, skipBlanks_append h, value?]

theorem items?_blanks {blanks : List Char} (h : ∀ c ∈ blanks, IsBlank c) (depth : Nat)
    (cs : List Char) : items? depth (blanks ++ cs) = items? depth cs := by
  cases depth with
  | zero => rfl
  | succ depth => rw [items?, value?_blanks h, items?]

theorem fields?_blanks {blanks : List Char} (h : ∀ c ∈ blanks, IsBlank c) (depth : Nat)
    (cs : List Char) : fields? depth (blanks ++ cs) = fields? depth cs := by
  cases depth with
  | zero => rfl
  | succ depth => rw [fields?, skipBlanks_append h, fields?]

theorem value?_bracket (depth : Nat) (cs : List Char) :
    value? (depth + 1) ('[' :: cs) =
      match skipBlanks cs with
      | ']' :: rest => some (.array [], rest)
      | rest => (items? depth rest).map fun (items, rest) => (.array items, rest) :=
  rfl

theorem value?_brace (depth : Nat) (cs : List Char) :
    value? (depth + 1) ('{' :: cs) =
      match skipBlanks cs with
      | '}' :: rest => some (.object [], rest)
      | rest => (fields? depth rest).map fun (fields, rest) => (objectOf fields, rest) :=
  rfl

/-- A list that is not empty is read by its items. -/
theorem value?_list {blanks : List Char} (h : ∀ c ∈ blanks, IsBlank c) {c : Char}
    (hc : ¬ IsBlank c) (hbracket : c ≠ ']') (depth : Nat) (cs : List Char) :
    value? (depth + 1) ('[' :: (blanks ++ c :: cs)) =
      (items? depth (c :: cs)).map fun (items, rest) => (.array items, rest) := by
  rw [value?_bracket, skipBlanks_append h, skipBlanks_cons hc]
  split
  · next heq => exact absurd (List.cons.inj heq).1 hbracket
  · rfl

/-- An object that is not empty is read by its fields. -/
theorem value?_object {blanks : List Char} (h : ∀ c ∈ blanks, IsBlank c) (depth : Nat)
    (cs : List Char) :
    value? (depth + 1) ('{' :: (blanks ++ '"' :: cs)) =
      (fields? depth ('"' :: cs)).map fun (fields, rest) => (objectOf fields, rest) := by
  rw [value?_brace, skipBlanks_append h, skipBlanks_cons (by decide)]
  rfl

/-- No number goes on with blanks and what closes a list or an object. -/
theorem stops_close {close : List Char} (h : ∀ c ∈ close, IsBlank c) {bracket : Char}
    (hbracket : bracket = ']' ∨ bracket = '}') (rest : List Char) :
    Stops (close ++ bracket :: rest) := by
  cases close with
  | nil =>
    rintro _ ⟨⟩
    rcases hbracket with rfl | rfl <;> decide
  | cons c close =>
    rintro _ ⟨⟩
    rcases h c List.mem_cons_self with rfl | rfl | rfl | rfl <;> decide

theorem stops_comma (rest : List Char) : Stops (',' :: rest) := by
  rintro _ ⟨⟩
  decide

section

variable {blanks close : List Char} {texts : List (List Char)}

/-- Entries are read one by one: each of them, and then what comes after it, which is a comma and
more entries, or the bracket that closes them. -/
structure ReadsEach {β γ : Type} (read : Nat → List Char → Option (List γ × List Char))
    (bracket : Char) (reads : List Char → β → Prop) (entry : β → γ) : Prop where
  closes : bracket = ']' ∨ bracket = '}'
  blanks : ∀ {blanks : List Char}, (∀ c ∈ blanks, IsBlank c) → ∀ depth cs,
    read depth (blanks ++ cs) = read depth cs
  last : ∀ {text b depth rest cs}, reads text b → text.length ≤ depth → Stops rest →
    skipBlanks rest = bracket :: cs → read (depth + 1) (text ++ rest) = some ([entry b], cs)
  more : ∀ {text b depth rest cs entries left}, reads text b → text.length ≤ depth → Stops rest →
    skipBlanks rest = ',' :: cs → read depth cs = some (entries, left) →
      read (depth + 1) (text ++ rest) = some (entry b :: entries, left)

/-- The texts of some entries, one after another, are read as the entries. -/
theorem ReadsEach.joined {β γ : Type} {read : Nat → List Char → Option (List γ × List Char)}
    {bracket : Char} {reads : List Char → β → Prop} {entry : β → γ} {bs : List β}
    (hread : ReadsEach read bracket reads entry) (hblanks : ∀ c ∈ blanks, IsBlank c)
    (hclose : ∀ c ∈ close, IsBlank c) (h : List.Forall₂ reads texts bs) (hne : texts ≠ [])
    {depth : Nat} (hdepth : ((',' :: blanks).intercalate texts).length < depth)
    (rest : List Char) :
    read depth ((',' :: blanks).intercalate texts ++ (close ++ bracket :: rest)) =
      some (bs.map entry, rest) := by
  have hbracket : ¬ IsBlank bracket := by
    rcases hread.closes with rfl | rfl <;> decide
  -- on the entries: the last of them meets the bracket, and any other a comma
  induction h generalizing depth with
  | nil => exact absurd rfl hne
  | @cons text b texts bs hb hbs ih =>
    obtain ⟨depth, rfl⟩ := Nat.exists_eq_succ_of_ne_zero (Nat.ne_zero_of_lt hdepth)
    cases hbs with
    | nil =>
      rw [List.intercalate_singleton] at hdepth ⊢
      refine hread.last hb (by omega) (stops_close hclose hread.closes rest) ?_
      rw [skipBlanks_append hclose, skipBlanks_cons hbracket]
    | @cons text' b' texts bs hb' hbs =>
      rw [List.intercalate_cons_cons] at hdepth ⊢
      simp only [List.length_append, List.length_cons] at hdepth
      rw [List.append_assoc, List.append_assoc, List.cons_append]
      refine hread.more hb (by omega) (stops_comma _) (skipBlanks_cons (by decide) _) ?_
      rw [hread.blanks hblanks]
      exact ih (List.cons_ne_nil _ _) (by omega)

/-- An item is read, and then what comes after it. -/
theorem items?_cons {text : List Char} {item : Json} (h : Reads text item) {depth : Nat}
    (hdepth : text.length ≤ depth) {rest : List Char} (hrest : Stops rest) :
    items? (depth + 1) (text ++ rest) =
      match skipBlanks rest with
      | ',' :: rest => do
        let (items, rest) ← items? depth rest
        return (item :: items, rest)
      | ']' :: rest => return ([item], rest)
      | _ => none := by
  rw [items?, h.value hdepth hrest]
  rfl

theorem items?_each : ReadsEach items? ']' Reads id where
  closes := .inl rfl
  blanks := items?_blanks
  last h hdepth hrest hcs := by
    rw [items?_cons h hdepth hrest, hcs]
    rfl
  more h hdepth hrest hcs hread := by
    rw [items?_cons h hdepth hrest, hcs]
    change (items? _ _).bind _ = _
    rw [hread]
    rfl

/-- A text is read as a field: its name in quotes, a colon, and the value after some blanks. -/
inductive ReadsField : List Char → String × Json → Prop
  | intro {gap text : List Char} {value : Json} (name : String) (hgap : ∀ c ∈ gap, IsBlank c)
      (h : Reads text value) :
    ReadsField ((quote name).toList ++ ':' :: (gap ++ text)) (name, value)

theorem ReadsField.starts {text : List Char} {field : String × Json} (h : ReadsField text field) :
    ∃ cs, text = '"' :: cs := by
  obtain ⟨name, -, -⟩ := h
  exact ⟨_, by rw [toList_quote, List.cons_append]⟩

/-- A field is read, and then what comes after it. -/
theorem fields?_cons {text : List Char} {field : String × Json} (h : ReadsField text field)
    {depth : Nat} (hdepth : text.length ≤ depth) {rest : List Char} (hrest : Stops rest) :
    fields? (depth + 1) (text ++ rest) =
      match skipBlanks rest with
      | ',' :: rest => do
        let (fields, rest) ← fields? depth rest
        return ((some field.1, field.2) :: fields, rest)
      | '}' :: rest => return ([(some field.1, field.2)], rest)
      | _ => none := by
  obtain ⟨name, hgap, hvalue⟩ := h
  next gap text value =>
  have hname := string?_quoted name (':' :: (gap ++ text ++ rest))
  have htext : (quote name).toList ++ ':' :: (gap ++ text) ++ rest =
      '"' :: (name.toList.flatMap escape ++ '"' :: (':' :: (gap ++ text ++ rest))) := by
    simp [toList_quote]
  simp only [toList_quote, List.length_append, List.length_cons] at hdepth
  rw [htext, fields?, skipBlanks_cons (by decide)]
  change (string? _).bind _ = _
  rw [hname]
  change (value? depth _).bind _ = _
  rw [List.append_assoc, value?_blanks hgap, hvalue.value (by omega) hrest]
  rfl

theorem fields?_each :
    ReadsEach fields? '}' ReadsField fun field => (some field.1, field.2) where
  closes := .inr rfl
  blanks := fields?_blanks
  last h hdepth hrest hcs := by
    rw [fields?_cons h hdepth hrest, hcs]
    rfl
  more h hdepth hrest hcs hread := by
    rw [fields?_cons h hdepth hrest, hcs]
    change (fields? _ _).bind _ = _
    rw [hread]
    rfl

theorem objectOf_some (fields : List (String × Json)) :
    objectOf (fields.map fun field => (some field.1, field.2)) = .object fields := by
  have hnames : (fields.map fun field => (some field.1, field.2)).mapM
      (fun field : Option String × Json => field.1.map fun name => (name, field.2)) =
        some fields := by
    refine mapM_map_eq_some ?_ fields
    exact fun _ => rfl
  rw [objectOf, hnames]

/-- Texts one after another begin as the first of them does. -/
theorem exists_joined (separator : List Char) {text : List Char} {c : Char} {cs : List Char}
    (h : text = c :: cs) (texts : List (List Char)) :
    ∃ cs', separator.intercalate (text :: texts) = c :: cs' := by
  cases texts with
  | nil => exact ⟨cs, by rw [List.intercalate_singleton, h]⟩
  | cons text' texts => exact ⟨_, by rw [List.intercalate_cons_cons, h]; rfl⟩

theorem reads_array {items : List Json} {opening : List Char} (hopening : ∀ c ∈ opening, IsBlank c)
    (hblanks : ∀ c ∈ blanks, IsBlank c) (hclose : ∀ c ∈ close, IsBlank c)
    (h : List.Forall₂ Reads texts items) (hne : texts ≠ []) :
    Reads ('[' :: (opening ++ ((',' :: blanks).intercalate texts ++ (close ++ [']']))))
      (.array items) := by
  refine .of_step (by decide) (by decide) fun depth rest hdepth _ => ?_
  have hitems : items? depth _ = some (items.map id, rest) :=
    items?_each.joined hblanks hclose h hne
      (by simp only [List.length_append, List.length_cons] at hdepth; omega) rest
  rw [List.map_id] at hitems
  cases h with
  | nil => exact absurd rfl hne
  | cons hread hreads =>
    obtain ⟨c, cs, htext, hc, hbracket⟩ := hread.starts
    obtain ⟨cs', hjoined⟩ := exists_joined (',' :: blanks) htext _
    rw [hjoined] at hitems ⊢
    simp only [List.cons_append, List.append_assoc, List.nil_append] at hitems ⊢
    rw [value?_list hopening hc hbracket, hitems]
    rfl

theorem reads_object {fields : List (String × Json)} {opening : List Char}
    (hopening : ∀ c ∈ opening, IsBlank c) (hblanks : ∀ c ∈ blanks, IsBlank c)
    (hclose : ∀ c ∈ close, IsBlank c) (h : List.Forall₂ ReadsField texts fields)
    (hne : texts ≠ []) :
    Reads ('{' :: (opening ++ ((',' :: blanks).intercalate texts ++ (close ++ ['}']))))
      (.object fields) := by
  refine .of_step (by decide) (by decide) fun depth rest hdepth _ => ?_
  have hfields : fields? depth _ = some (_, rest) := fields?_each.joined hblanks hclose h hne
    (by simp only [List.length_append, List.length_cons] at hdepth; omega) rest
  cases h with
  | nil => exact absurd rfl hne
  | cons hread hreads =>
    obtain ⟨cs, htext⟩ := hread.starts
    obtain ⟨cs', hjoined⟩ := exists_joined (',' :: blanks) htext _
    rw [hjoined] at hfields ⊢
    simp only [List.cons_append, List.append_assoc, List.nil_append] at hfields ⊢
    rw [value?_object hopening, hfields]
    exact congrArg (fun j => some (j, rest)) (objectOf_some _)

end

/-! ## Both layouts -/

theorem reads_array_nil : Reads "[]".toList (.array []) :=
  .of_step (by decide) (by decide) fun _ _ _ _ => rfl

theorem reads_object_nil : Reads "\x7b\x7d".toList (.object []) :=
  .of_step (by decide) (by decide) fun _ _ _ _ => rfl

theorem isBlank_newline (level : Nat) : ∀ c ∈ (newline level).toList, IsBlank c := by
  intro c hc
  simp only [newline, String.toList_append, String.toList_ofList, List.mem_append] at hc
  rcases hc with hc | hc
  · exact .inr (.inr (.inl (List.mem_singleton.mp hc)))
  · exact .inl (List.eq_of_mem_replicate hc)

mutual

/-- A value without blanks is read. -/
theorem reads_compact : ∀ j : Json, Reads (compact j).toList (reread j)
  | .array [] => reads_array_nil
  | .array (item :: items) => by
    have hitems := reads_array (List.forall_mem_nil _) (List.forall_mem_nil _)
      (List.forall_mem_nil _) (reads_compactItems (item :: items)) (by simp [compactItems])
    simpa [compact, reread] using hitems
  | .object [] => reads_object_nil
  | .object (field :: fields) => by
    have hfields := reads_object (List.forall_mem_nil _) (List.forall_mem_nil _)
      (List.forall_mem_nil _) (reads_compactFields (field :: fields)) (by simp [compactFields])
    simpa [compact, reread] using hfields
  | .null | .bool _ | .int _ | .real _ | .text _ | .unreadable => reads_scalarText nofun nofun

theorem reads_compactItems : ∀ items : List Json,
    List.Forall₂ Reads ((compactItems items).map String.toList) (rereadItems items)
  | [] => .nil
  | item :: items => .cons (reads_compact item) (reads_compactItems items)

theorem reads_compactFields : ∀ fields : List (String × Json),
    List.Forall₂ ReadsField ((compactFields fields).map String.toList) (rereadFields fields)
  | [] => .nil
  | (name, value) :: fields => by
    have hfield := ReadsField.intro name (List.forall_mem_nil _) (reads_compact value)
    exact .cons (by simpa using hfield) (reads_compactFields fields)

end

mutual

/-- A value over several lines is read, at any level. -/
theorem reads_prettyAt (level : Nat) : ∀ j : Json, Reads (prettyAt level j).toList (reread j)
  | .array [] => by
    rw [prettyAt]
    exact reads_array_nil
  | .array (item :: items) => by
    have hitems := reads_array (isBlank_newline (level + 1)) (isBlank_newline (level + 1))
      (isBlank_newline level) (reads_prettyItems (level + 1) (item :: items))
      (by simp [prettyItems])
    simpa [prettyAt, reread] using hitems
  | .object [] => by
    rw [prettyAt]
    exact reads_object_nil
  | .object (field :: fields) => by
    have hfields := reads_object (isBlank_newline (level + 1)) (isBlank_newline (level + 1))
      (isBlank_newline level) (reads_prettyFields (level + 1) (field :: fields))
      (by simp [prettyFields])
    simpa [prettyAt, reread] using hfields
  | .null | .bool _ | .int _ | .real _ | .text _ | .unreadable => reads_scalarText nofun nofun

theorem reads_prettyItems (level : Nat) : ∀ items : List Json,
    List.Forall₂ Reads ((prettyItems level items).map String.toList) (rereadItems items)
  | [] => .nil
  | item :: items => .cons (reads_prettyAt level item) (reads_prettyItems level items)

theorem reads_prettyFields (level : Nat) : ∀ fields : List (String × Json),
    List.Forall₂ ReadsField ((prettyFields level fields).map String.toList) (rereadFields fields)
  | [] => .nil
  | (name, value) :: fields => by
    have hgap : ∀ c ∈ [' '], IsBlank c := List.forall_mem_singleton.mpr (.inl rfl)
    have hfield := ReadsField.intro name hgap (reads_prettyAt level value)
    exact .cons (by simpa using hfield) (reads_prettyFields level fields)

end

/-- A text that is read as a value writes that value and nothing else. -/
theorem parse?_of_reads {s : String} {j : Json} (h : Reads s.toList j) : parse? s = some j := by
  have hvalue := h.value (Nat.le_succ _) stops_nil
  rw [List.append_nil] at hvalue
  rw [parse?]
  dsimp only
  rw [hvalue]
  rfl

/-- Every text that is written, in either layout, is read. -/
theorem parse?_written (j : Json) :
    parse? j.compact = some j.reread ∧ parse? j.pretty = some j.reread :=
  ⟨parse?_of_reads (reads_compact j), parse?_of_reads (reads_prettyAt 0 j)⟩

/-! ## What becomes of a value -/

theorem rereadFields_eq_map (fields : List (String × Json)) :
    rereadFields fields = fields.map fun field => (field.1, reread field.2) := by
  induction fields with
  | nil => rfl
  | cons field fields ih => rw [rereadFields, ih, List.map_cons]

/-- An integer in its range is read as it is. -/
theorem reread_int {i : Int} (hlow : -2 ^ 63 ≤ i) (hhigh : i < 2 ^ 64) :
    reread (.int i) = .int i := by
  rw [reread, ofNumberText_eq (Spelling.valid_natural _) (toList_toString_int i), ofNumeral,
    Spelling.integer?_natural hlow hhigh]

/-- A finite double is read as the double its characters come to, if that is one, and never as an
integer. -/
theorem reread_real {d : Double} (hd : d.isFinite = true) :
    ∃ n, numeral? (d.text .json).toList = some (n, []) ∧
      reread (.real d) = if n.toDouble.isFinite then .real n.toDouble else .unreadable := by
  obtain ⟨w, hw, hreal, htext⟩ := Double.exists_spelling hd
  have hread := numeral?_append hw d.isNegative stops_nil
  rw [List.append_nil, ← htext] at hread
  refine ⟨_, hread, ?_⟩
  rw [reread, if_pos hd, ofNumberText, hread]
  dsimp only
  rw [ofNumeral, hreal.integer?]

end Nlp.Json

namespace Nlp

/-- The reader of numbers brings a double back from its characters. -/
def Double.ReadsBack (d : Double) : Prop :=
  ∀ n rest, Json.numeral? (d.text .json).toList = some (n, rest) → n.toDouble = d

theorem Json.reread_readsBack {d : Double} (hd : d.isFinite = true) (h : d.ReadsBack) :
    reread (.real d) = .real d := by
  obtain ⟨n, hread, hreread⟩ := reread_real hd
  rw [hreread, h n [] hread, if_pos hd]

/-- Not every double is brought back: the reader rounds on its way, and this one comes out as
another. -/
example :
    let d : Double := ⟨0x3ff7b82f9ef3a596⟩
    (Json.numeral? (d.text .json).toList).map (fun read => read.1.toDouble) ≠ some d := by
  decide +kernel

/-- To bring a double back is a matter of computing. -/
theorem Double.readsBack_of_numeral? {d : Double} {n : Numeral}
    (hread : Json.numeral? (d.text .json).toList = some (n, [])) (h : n.toDouble = d) :
    d.ReadsBack := by
  intro n' rest hread'
  rw [hread] at hread'
  obtain ⟨rfl, -⟩ := Prod.mk.inj (Option.some.inj hread')
  exact h

end Nlp
