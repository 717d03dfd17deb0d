import Nlp.Json.Parser
import Nlp.Json.Printer
import Nlp.Proofs.Decimal

/-!
# Numbers and texts are read as they are written

What is written for a number is a numeral to its last character, whatever comes after it, as long
as no numeral goes on there; and a text is read up to its closing quote with every escape undone.

## Main definitions

* `Spelling.numeral`: the number that is spelled.
* `Json.Stops`: no number goes on here.

## Main results

* `Json.numeral?_append`: the characters of a number are read as the number.
* `Spelling.integer?_natural`, `Spelling.IsReal.integer?`: which numbers are read as integers.
* `Json.string?_quoted`: a quoted text is read.
-/

namespace Nlp

/-- The number a digit stands for. -/
def digitValue (c : Char) : Nat :=
  c.toNat - '0'.toNat

/-! ## Numbers that are spelled -/

namespace Numeral

/-- The digits of a number come to the number. -/
theorem ofDigits_map_digitValue (n : Nat) :
    ofDigits ((Nat.toDigits 10 n).map digitValue) = n := by
  rw [ofDigits, List.foldl_map]
  exact Nat.ofDigitChars_ten_toDigits

/-- More digits make no number smaller. -/
theorem le_foldl_digits (word : Nat) (ds : List Nat) :
    word ≤ ds.foldl (fun n d => 10 * n + d) word := by
  induction ds generalizing word with
  | nil => exact Nat.le_refl word
  | cons d ds ih => exact Nat.le_trans (by omega) (ih (10 * word + d))

/-- Digits of a number that fits a word are all taken into it. -/
theorem absorb_of_lt {word : Nat} {ds : List Nat}
    (h : ds.foldl (fun n d => 10 * n + d) word < UInt64.size) :
    absorb word ds = (ds.foldl (fun n d => 10 * n + d) word, []) := by
  induction ds generalizing word with
  | nil => rfl
  | cons d ds ih =>
    rw [List.foldl_cons] at h
    rw [absorb, if_pos (Nat.lt_of_le_of_lt (le_foldl_digits _ ds) h), ih h, List.foldl_cons]

end Numeral

namespace Spelling

/-- The number that is spelled. -/
def numeral (w : Spelling) (negative : Bool) : Numeral :=
  ⟨negative, w.whole.map digitValue, w.places.map (List.map digitValue), w.exponent⟩

/-- A number without its sign begins with a digit. -/
theorem Valid.exists_chars {w : Spelling} (h : w.Valid) :
    ∃ c cs, w.chars = c :: cs ∧ c.isDigit = true := by
  obtain ⟨c, cs, hwhole⟩ := List.exists_cons_of_ne_nil h.whole.ne_nil
  exact ⟨c, _, by rw [chars, hwhole, List.cons_append],
    h.whole.isDigit c (hwhole ▸ List.mem_cons_self)⟩

/-- The number without point and power of ten. -/
def natural (n : Nat) : Spelling :=
  ⟨Nat.toDigits 10 n, none, none⟩

theorem valid_natural (n : Nat) : (natural n).Valid :=
  ⟨areWhole_toDigits n, nofun⟩

/-- A number with a point or a power of ten is no integer. -/
theorem IsReal.integer? {w : Spelling} (hw : w.IsReal) (negative : Bool) :
    (w.numeral negative).integer? = none := by
  obtain ⟨whole, places, exponent⟩ := w
  rw [Numeral.integer?]
  cases places with
  | some ds => rfl
  | none =>
    cases exponent with
    | some e => rfl
    | none => exact hw.elim nofun nofun

/-- An integer from `-2 ^ 63` up to, not including, `2 ^ 64` is read as it is. -/
theorem integer?_natural {i : Int} (hlow : -2 ^ 63 ≤ i) (hhigh : i < 2 ^ 64) :
    ((natural i.natAbs).numeral (decide (i < 0))).integer? = some i := by
  have hsize := Numeral.ofDigits_map_digitValue i.natAbs
  have habsorb : Numeral.absorb 0 ((Nat.toDigits 10 i.natAbs).map digitValue) =
      (i.natAbs, []) := by
    rw [Numeral.ofDigits] at hsize
    rw [Numeral.absorb_of_lt (by rw [hsize]; simp only [UInt64.size]; omega), hsize]
  rw [Numeral.integer?]
  simp only [numeral, natural, Option.map_none, habsorb, decide_eq_true_eq]
  split
  · rw [if_pos ⟨by omega, by simp only [UInt64.size]; omega⟩]
    congr 1
    omega
  · congr 1
    omega

end Spelling

/-- The characters of an integer. -/
theorem toList_toString_int (i : Int) :
    (toString i).toList =
      Spelling.signChars (decide (i < 0)) ++ (Spelling.natural i.natAbs).chars := by
  rw [Int.toString_eq_repr, Int.repr_eq_if]
  split
  · next hi =>
    have habs : i.toNat = i.natAbs := by omega
    simp [Spelling.natural, Spelling.chars, Spelling.signChars, habs, hi]
  · next hi =>
    have habs : (-i).toNat = i.natAbs := by omega
    simp [Spelling.natural, Spelling.chars, Spelling.signChars, habs, Int.lt_of_not_ge hi]

namespace Json

/-! ## Numbers -/

variable {w : Spelling} {cs rest : List Char}

/-- A number does not go on here. -/
def Stops (rest : List Char) : Prop :=
  ∀ c ∈ rest.head?, c.isDigit = false ∧ c ≠ '.' ∧ c ≠ 'e' ∧ c ≠ 'E'

theorem stops_nil : Stops [] :=
  nofun

/-- Digits are read up to the first character that is none. -/
theorem digits_append (hcs : ∀ c ∈ cs, c.isDigit = true)
    (hrest : ∀ c ∈ rest.head?, c.isDigit = false) :
    digits (cs ++ rest) = (cs.map digitValue, rest) := by
  induction cs with
  | nil =>
    cases rest with
    | nil => rfl
    | cons c rest => simp [digits, hrest c rfl]
  | cons c cs ih =>
    rw [List.forall_mem_cons] at hcs
    simp [digits, hcs.1, ih hcs.2, digitValue]

theorem wholeDigits?_append (hcs : AreWhole cs) (hrest : ∀ c ∈ rest.head?, c.isDigit = false) :
    wholeDigits? (cs ++ rest) = some (cs.map digitValue, rest) := by
  rcases hcs.head with rfl | hhead
  · have hstop : rest.head?.any Char.isDigit = false := by
      cases rest with
      | nil => rfl
      | cons c rest => exact hrest c rfl
    simp [wholeDigits?, hstop, digitValue]
  · obtain ⟨c, cs, rfl⟩ := List.exists_cons_of_ne_nil hcs.ne_nil
    have hzero : c ≠ '0' := by simpa using hhead
    have hdigits := digits_append hcs.isDigit hrest
    rw [List.cons_append] at hdigits ⊢
    rw [wholeDigits?]
    · rw [hdigits]
      rfl
    · intro rest' heq
      exact hzero (List.cons.inj heq).1

theorem places?_append {places : Option (List Char)} (hplaces : ∀ ds ∈ places, AreDigits ds)
    (hrest : ∀ c ∈ rest.head?, c.isDigit = false ∧ c ≠ '.') :
    places? (places.elim [] ('.' :: ·) ++ rest) =
      some (places.map (List.map digitValue), rest) := by
  cases places with
  | none =>
    rw [Option.elim_none, List.nil_append, places?]
    · rfl
    · rintro rest' rfl
      exact (hrest '.' rfl).2 rfl
  | some ds =>
    have hds := hplaces ds rfl
    have hdigits := digits_append hds.isDigit fun c hc => (hrest c hc).1
    obtain ⟨c, ds, rfl⟩ := List.exists_cons_of_ne_nil hds.ne_nil
    simp only [Option.elim_some, List.cons_append, places?] at hdigits ⊢
    rw [hdigits]
    rfl

theorem exponent?_append {exponent : Option Int} (hrest : Stops rest) :
    exponent? (exponent.elim [] Spelling.exponentChars ++ rest) = some (exponent, rest) := by
  cases exponent with
  | none =>
    rw [Option.elim_none, List.nil_append]
    cases rest with
    | nil => rfl
    | cons c rest =>
      have hc := hrest c rfl
      exact if_neg (not_or.mpr ⟨hc.2.2.1, hc.2.2.2⟩)
  | some e =>
    have hsize := Numeral.ofDigits_map_digitValue e.natAbs
    have hread := digits_append (areDigits_toDigits e.natAbs).isDigit fun c hc => (hrest c hc).1
    obtain ⟨c, ds, hdigits⟩ := List.exists_cons_of_ne_nil (areDigits_toDigits e.natAbs).ne_nil
    rw [hdigits, List.cons_append] at hread
    rw [hdigits] at hsize
    rw [Option.elim_some, Spelling.exponentChars, hdigits]
    -- the sign is written apart, so what is read is the size of the exponent
    split
    · next he =>
      have habs : |e| = e := abs_of_nonneg he
      simp only [List.cons_append, exponent?, hread, List.map_cons] at hsize ⊢
      simp [hsize, habs]
    · next he =>
      have habs : -|e| = e := by rw [abs_of_neg (Int.lt_of_not_ge he), neg_neg]
      simp only [List.cons_append, exponent?, hread, List.map_cons] at hsize ⊢
      simp [hsize, habs]

/-- After the digits of a number there is no other digit, and after its places no other point. -/
theorem Stops.exponent (hrest : Stops rest) (exponent : Option Int) :
    ∀ c ∈ (exponent.elim [] Spelling.exponentChars ++ rest).head?, c.isDigit = false ∧ c ≠ '.' := by
  cases exponent with
  | none => exact fun c hc => ⟨(hrest c hc).1, (hrest c hc).2.1⟩
  | some e =>
    rintro _ ⟨⟩
    decide

theorem Stops.places (hrest : Stops rest) (places : Option (List Char)) (exponent : Option Int) :
    ∀ c ∈ (places.elim [] ('.' :: ·) ++
      (exponent.elim [] Spelling.exponentChars ++ rest)).head?, c.isDigit = false := by
  cases places with
  | none => exact fun c hc => (hrest.exponent exponent c hc).1
  | some ds =>
    rintro _ ⟨⟩
    decide

/-- Behind its sign a number is read part by part. -/
theorem unsigned?_append (hw : w.Valid) (negative : Bool) (hrest : Stops rest) :
    ((wholeDigits? (w.chars ++ rest)).bind fun (whole, input) =>
      (places? input).bind fun (places, input) => (exponent? input).bind fun (exponent, input) =>
        some ((⟨negative, whole, places, exponent⟩ : Numeral), input)) =
      some (w.numeral negative, rest) := by
  have hparts : w.chars ++ rest = w.whole ++ (w.places.elim [] ('.' :: ·) ++
      (w.exponent.elim [] Spelling.exponentChars ++ rest)) := by
    rw [Spelling.chars, List.append_assoc, List.append_assoc]
  rw [hparts, wholeDigits?_append hw.whole (hrest.places w.places w.exponent)]
  dsimp only [Option.bind_some]
  rw [places?_append hw.places (hrest.exponent w.exponent)]
  dsimp only [Option.bind_some]
  rw [exponent?_append hrest]
  rfl

/-- The characters of a number are read as the number. -/
theorem numeral?_append (hw : w.Valid) (negative : Bool) (hrest : Stops rest) :
    numeral? (Spelling.signChars negative ++ w.chars ++ rest) =
      some (w.numeral negative, rest) := by
  cases negative with
  | true => exact unsigned?_append hw true hrest
  | false =>
    -- what comes first is a digit and no sign
    obtain ⟨c, cs, hchars, hc⟩ := hw.exists_chars
    have hread := unsigned?_append hw false hrest
    rw [hchars, List.cons_append] at hread
    rw [Spelling.signChars, if_neg Bool.false_ne_true, List.nil_append, hchars, List.cons_append]
    unfold numeral?
    split
    next hsign =>
    split at hsign
    · next heq =>
      obtain rfl := (List.cons.inj heq).1
      cases hc
    · obtain ⟨rfl, rfl⟩ := Prod.mk.inj hsign
      exact hread

/-! ## Texts -/

theorem hexUnit?_digits {n : Nat} (hn : n < 0x20) :
    hexUnit? '0' '0' (Hex.digit (n / 16)) (Hex.digit (n % 16)) = some n := by
  have hzero : Hex.digit? '0' = some 0 := rfl
  rw [hexUnit?, Hex.digit?_digit (by omega), Hex.digit?_digit (by omega), hzero]
  exact congrArg some (by omega)

/-- An escaped control character is read as it is, whatever comes after it. -/
theorem units?_control (units : List Unit16) {c : Char} (hc : c.toNat < 0x20) (rest : List Char) :
    units? units ('\\' :: 'u' :: '0' :: '0' :: Hex.digit (c.toNat / 16) ::
      Hex.digit (c.toNat % 16) :: rest) = units? (some c :: units) rest := by
  have hread := hexUnit?_digits hc
  have hhigh : ¬ (0xD800 ≤ c.toNat ∧ c.toNat < 0xDC00) := by omega
  have hlow : ¬ (0xDC00 ≤ c.toNat ∧ c.toNat < 0xE000) := by omega
  have hhalf : ¬ (0xD800 ≤ c.toNat ∧ c.toNat < 0xE000) := by omega
  -- a control character is no half of a pair, so the escape is read as one unit
  rw [units?.eq_def]
  split
  · next heq => cases (List.cons.inj heq).1
  · next heq =>
    simp only [List.cons.injEq] at heq
    obtain ⟨-, -, rfl, rfl, rfl, rfl, rfl⟩ := heq
    rw [hread]
    dsimp only [Option.bind_eq_bind, Option.bind_some]
    rw [if_neg hhigh, if_neg hlow, Char.ofNat_toNat]
  · next heq =>
    simp only [List.cons.injEq] at heq
    obtain ⟨-, -, rfl, rfl, rfl, rfl, rfl⟩ := heq
    rw [hread]
    dsimp only [Option.bind_eq_bind, Option.bind_some]
    rw [if_neg hhalf, Char.ofNat_toNat]
  · next hlong heq =>
    simp only [List.cons.injEq] at heq
    obtain ⟨-, rfl, rfl⟩ := heq
    exact (hlong _ _ _ _ _ rfl rfl).elim
  · next hlong hshort heq =>
    obtain ⟨rfl, rfl⟩ := List.cons.inj heq
    exact (hshort _ _ rfl rfl).elim
  · next heq => cases heq

/-- An escaped character is read as it is. -/
theorem units?_escape (units : List Unit16) (c : Char) (rest : List Char) :
    units? units (escape c ++ rest) = units? (some c :: units) rest := by
  unfold escape
  split
  iterate 7 rw [units?.eq_def]; rfl
  next hquote hback _ _ _ _ _ =>
  split
  · next hc => exact units?_control units hc rest
  · next hc =>
    rw [List.singleton_append, units?.eq_def]
    split
    · next heq => exact (hquote (List.cons.inj heq).1).elim
    · next heq => exact (hback (List.cons.inj heq).1).elim
    · next heq => exact (hback (List.cons.inj heq).1).elim
    · next heq => exact (hback (List.cons.inj heq).1).elim
    · next heq =>
      obtain ⟨rfl, rfl⟩ := List.cons.inj heq
      rw [if_neg hc]
    · next heq => cases heq

/-- What is quoted is read up to the closing quote. -/
theorem units?_quoted (units : List Unit16) (cs rest : List Char) :
    units? units (cs.flatMap escape ++ '"' :: rest) =
      some ((cs.map some).reverse ++ units, rest) := by
  induction cs generalizing units with
  | nil => rw [List.flatMap_nil, List.nil_append, units?.eq_def]; rfl
  | cons c cs ih =>
    rw [List.flatMap_cons, List.append_assoc, units?_escape, ih]
    simp

/-- What has been turned item by item is turned back. -/
theorem mapM_map_eq_some {β γ : Type} {f : γ → Option β} {g : β → γ} (h : ∀ b, f (g b) = some b)
    (l : List β) : (l.map g).mapM f = some l := by
  induction l with
  | nil => rfl
  | cons b l ih =>
    rw [List.map_cons, List.mapM_cons, h, ih]
    rfl

/-- A quoted text is read. -/
theorem string?_quoted (s : String) (rest : List Char) :
    string? (s.toList.flatMap escape ++ '"' :: rest) = some (some s, rest) := by
  rw [string?, units?_quoted]
  have hchars : (s.toList.map some).mapM id = some s.toList :=
    mapM_map_eq_some (fun c => id_eq (some c)) _
  simp [hchars]

end Json

end Nlp
