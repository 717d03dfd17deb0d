import Mathlib.Algebra.Order.Field.Power
import Mathlib.Tactic.Linarith
import Mathlib.Tactic.NormNum
import Mathlib.Tactic.Positivity
import Nlp.Decimal.Style

/-!
# Decimal texts of finite doubles

The shortest digits of a double are looked for on finer and finer grids of decimals.  For any double
the last grid is finer than the steps between doubles, so the search ends with digits that read
back, and for no double but zero are they zero.  What is then written for a JSON number has digits
wherever there have to be some, no zero in front of other digits, and always a point or a power of
ten.

## Main definitions

* `Binary.IsDouble`: the mantissa and the exponent fit a double.
* `Spelling`: the size of a number, digit by digit.

## Main results

* `reachesPower_floorLog10`: the decimal exponent that is guessed is not too large.
* `Binary.IsDouble.shortest_digits_ne_zero`: the search finds digits.
* `Double.exists_spelling`: what is written for a finite double.
-/

namespace Nlp

/-! ## Decimal logarithms -/

/-- A power of an integer exponent as a quotient of powers of natural ones. -/
theorem zpow_eq_pow_div_pow {a : ℚ} (ha : a ≠ 0) (k : Int) :
    a ^ k = a ^ k.toNat / a ^ (-k).toNat := by
  rw [eq_div_iff (pow_ne_zero _ ha), ← zpow_natCast, ← zpow_natCast, ← zpow_add₀ ha]
  congr 1
  omega

theorem reachesPower_iff {num den : Nat} (hden : den ≠ 0) {k : Int} :
    reachesPower num den k = true ↔ (10 : ℚ) ^ k ≤ num / den := by
  have hden : (0 : ℚ) < den := by positivity
  rw [reachesPower, decide_eq_true_iff, zpow_eq_pow_div_pow (by norm_num),
    div_le_div_iff₀ (by positivity) hden, ← Nat.cast_le (α := ℚ)]
  push_cast [Nat.pow_eq]
  rfl

/-- Powers of two bases are compared where powers of the bases are. -/
theorem zpow_le_zpow_of_pow {a b : ℚ} (ha : 0 < a) (hb : 1 < b) {m n : ℕ} {e l : Int} (hm : 0 < m)
    (hpow : (a ^ m) ^ e ≤ (b ^ n) ^ e) (hle : n * e ≤ m * l) : a ^ e ≤ b ^ l := by
  have hb' : 0 < b := zero_lt_one.trans hb
  refine (pow_le_pow_iff_left₀ (zpow_pos ha e).le (zpow_pos hb' l).le hm.ne').mp ?_
  calc (a ^ e) ^ m = (a ^ m) ^ e := by
        rw [← zpow_natCast, ← zpow_natCast, ← zpow_mul, ← zpow_mul, mul_comm]
    _ ≤ (b ^ n) ^ e := hpow
    _ = b ^ (n * e) := by rw [← zpow_natCast, ← zpow_mul]
    _ ≤ b ^ (m * l) := zpow_le_zpow_right₀ hb.le hle
    _ = (b ^ l) ^ m := by rw [← zpow_natCast, ← zpow_mul, mul_comm]

/-- Powers of ten against powers of two, by `10 ^ 59 ≤ 2 ^ 196` and `2 ^ 93 ≤ 10 ^ 28`. -/
theorem ten_zpow_le_two_zpow {e l : Int} (hup : 0 ≤ e → 196 * e ≤ 59 * l)
    (hdown : e < 0 → 93 * e ≤ 28 * l) : (10 : ℚ) ^ e ≤ 2 ^ l := by
  rcases le_or_gt 0 e with he | he
  · refine zpow_le_zpow_of_pow (m := 59) (n := 196) (by norm_num) (by norm_num) (by norm_num) ?_
      (hup he)
    exact zpow_le_zpow_left₀ he (by positivity) (by norm_num)
  · refine zpow_le_zpow_of_pow (m := 28) (n := 93) (by norm_num) (by norm_num) (by norm_num) ?_
      (hdown he)
    have hpow := zpow_le_zpow_left₀ (n := -e) (by omega) (by positivity)
      (by norm_num : (2 : ℚ) ^ 93 ≤ 10 ^ 28)
    rwa [zpow_neg, zpow_neg, inv_le_inv₀ (by positivity) (by positivity)] at hpow

/-- The power of ten that is found is reached, unless the quotient is very large or very small. -/
theorem reachesPower_floorLog10 {num den : Nat} (hnum : num ≠ 0) (hden : den ≠ 0)
    (hlarge : num.log2 ≤ 10000) (hsmall : den.log2 ≤ 10000) :
    (10 : ℚ) ^ floorLog10 num den ≤ num / den := by
  unfold floorLog10
  dsimp only
  split
  · exact (reachesPower_iff hden).mp ‹_›
  split
  · exact (reachesPower_iff hden).mp ‹_›
  -- the logarithms are right up to one, which is more than what they are rounded off by
  have hquotient : (2 : ℚ) ^ ((num.log2 : Int) - den.log2 - 1) ≤ num / den := by
    have hnum : (2 : ℚ) ^ num.log2 ≤ num := mod_cast Nat.log2_self_le hnum
    have hlt : (den : ℚ) ≤ 2 ^ (den.log2 + 1) := mod_cast Nat.lt_log2_self.le
    have hden : (0 : ℚ) < den := by positivity
    rw [sub_sub, zpow_sub₀ (by norm_num), zpow_natCast]
    exact div_le_div₀ (by positivity) hnum hden hlt
  refine (ten_zpow_le_two_zpow ?_ ?_).trans hquotient <;> omega

namespace Binary

variable {tie : Tie} {b : Binary} {k : Int}

/-! ## Shortest digits -/

theorem gridRatio_pos (b : Binary) (k : Int) : 0 < (b.gridRatio k).1 ∧ 0 < (b.gridRatio k).2 := by
  simp only [gridRatio, Nat.pow_eq]
  constructor <;> positivity

/-- The interval of a double begins one or two quarter steps below it. -/
theorem below_mem {p : Prop} [Decidable p] {below : Nat} (h : (if p then 1 else 2) = below) :
    1 ≤ below ∧ below ≤ 2 := by
  split at h <;> omega

/-- What is found on a grid is not zero, unless the number is. -/
theorem onGrid?_ne_zero (hb : b.mantissa ≠ 0) : b.onGrid? tie k ≠ some 0 := by
  have hsteps := (b.gridRatio_pos k).1
  unfold onGrid?
  dsimp only
  generalize hbelow : (if b.mantissa = Nat.pow 2 52 ∧ -1074 < b.exponent then 1 else 2) = below
  have hlow : 0 < (4 * b.mantissa - below) * (b.gridRatio k).1 :=
    Nat.mul_pos (by have := below_mem hbelow; omega) hsteps
  intro h
  split at h
  · next hdown =>
    rw [Option.some.inj h, Nat.zero_mul] at hdown
    omega
  · split at h
    · cases Option.some.inj h
    · cases h

/-- A grid that is no coarser than the quarter steps of the double holds a point that reads
back. -/
theorem onGrid?_ne_none (hb : b.mantissa ≠ 0) (hfine : (b.gridRatio k).2 ≤ (b.gridRatio k).1) :
    b.onGrid? tie k ≠ none := by
  have hcells := (b.gridRatio_pos k).2
  unfold onGrid?
  dsimp only
  generalize hbelow : (if b.mantissa = Nat.pow 2 52 ∧ -1074 < b.exponent then 1 else 2) = below
  have hdown : (4 * b.mantissa - below) * (b.gridRatio k).1 <
      4 * b.mantissa * (b.gridRatio k).1 / (b.gridRatio k).2 * (b.gridRatio k).2 := by
    have hstep : (4 * b.mantissa - below) * (b.gridRatio k).1 + (b.gridRatio k).1 ≤
        4 * b.mantissa * (b.gridRatio k).1 := by
      rw [← Nat.succ_mul]
      exact Nat.mul_le_mul_right _ (by have := below_mem hbelow; omega)
    have hrest := Nat.lt_div_mul_add hcells (a := 4 * b.mantissa * (b.gridRatio k).1)
    omega
  split
  · nofun
  · next h =>
    rw [if_pos (by_contra fun hup => h ⟨.inl hdown, .inr hup⟩)]
    nofun

/-- The search for the shortest digits ends with some that are not zero, if the last grid is fine
enough. -/
theorem firstGrid_digits_ne_zero (hb : b.mantissa ≠ 0) (grids : Nat) (k : Int)
    (hfine : (b.gridRatio (k - grids)).2 ≤ (b.gridRatio (k - grids)).1) :
    (firstGrid tie b grids k).digits ≠ 0 := by
  -- on the grids that are left: the last of them is fine enough, and no digits round to zero
  induction grids generalizing k with
  | zero =>
    rw [Nat.cast_zero, sub_zero] at hfine
    cases hfound : b.onGrid? tie k with
    | none => exact absurd hfound (onGrid?_ne_none hb hfine)
    | some d =>
      rw [firstGrid, hfound]
      rintro rfl
      exact onGrid?_ne_zero hb hfound
  | succ grids ih =>
    rw [firstGrid]
    split
    · next d hfound =>
      rintro rfl
      exact onGrid?_ne_zero hb hfound
    · refine ih (k - 1) ?_
      rwa [sub_sub, add_comm, ← Nat.cast_succ]

/-- The mantissa and the exponent fit a double. -/
structure IsDouble (b : Binary) : Prop where
  mantissa_lt : b.mantissa < 2 ^ 53
  le_exponent : -1074 ≤ b.exponent
  exponent_le : b.exponent ≤ 972

theorem fraction_eq (b : Binary) :
    (b.fraction.1 / b.fraction.2 : ℚ) = b.mantissa * 2 ^ b.exponent := by
  rw [fraction, zpow_eq_pow_div_pow (by norm_num), ← mul_div_assoc]
  push_cast [Nat.pow_eq]
  rfl

theorem gridRatio_eq (b : Binary) (k : Int) :
    ((b.gridRatio k).1 / (b.gridRatio k).2 : ℚ) = 2 ^ (b.exponent - 2) / 10 ^ k := by
  rw [gridRatio, zpow_eq_pow_div_pow (by norm_num) (b.exponent - 2), neg_sub,
    zpow_eq_pow_div_pow (by norm_num) k, div_div_div_eq]
  push_cast [Nat.pow_eq]
  rfl

theorem IsDouble.leading_reached (hb : b.IsDouble) (hm : b.mantissa ≠ 0) :
    (10 : ℚ) ^ b.leading ≤ b.mantissa * 2 ^ b.exponent := by
  have hlow := hb.le_exponent
  have hhigh := hb.exponent_le
  have hnum : b.fraction.1 ≠ 0 := Nat.mul_ne_zero hm (pow_ne_zero _ two_ne_zero)
  have hlarge : b.fraction.1 < 2 ^ (53 + b.exponent.toNat) := by
    rw [pow_add]
    exact Nat.mul_lt_mul_of_pos_right hb.mantissa_lt (Nat.two_pow_pos _)
  have hsmall : b.fraction.2.log2 = (-b.exponent).toNat := Nat.log2_two_pow
  rw [← fraction_eq]
  refine reachesPower_floorLog10 hnum (pow_ne_zero _ two_ne_zero) ?_ (by omega)
  have := (Nat.log2_lt hnum).mpr hlarge
  omega

/-- Digits are found on the last grid at the latest, for any double but zero. -/
theorem IsDouble.shortest_digits_ne_zero (hb : b.IsDouble) (hm : b.mantissa ≠ 0) (tie : Tie) :
    (b.shortest tie).digits ≠ 0 := by
  refine firstGrid_digits_ne_zero hm 17 b.leading ?_
  rw [Nat.cast_ofNat]
  have hcells : (0 : ℚ) < (b.gridRatio (b.leading - 17)).2 := mod_cast (b.gridRatio_pos _).2
  rw [← Nat.cast_le (α := ℚ), ← one_le_div hcells, gridRatio_eq, one_le_div (by positivity)]
  have hmantissa : (b.mantissa : ℚ) ≤ 2 ^ 53 := mod_cast hb.mantissa_lt.le
  calc (10 : ℚ) ^ (b.leading - 17) = 10 ^ b.leading / 10 ^ 17 := by
        rw [zpow_sub₀ (by norm_num)]; rfl
    _ ≤ b.mantissa * 2 ^ b.exponent / 10 ^ 17 := by gcongr; exact hb.leading_reached hm
    _ ≤ 2 ^ 53 * 2 ^ b.exponent / 10 ^ 17 := by gcongr
    _ ≤ 2 ^ (b.exponent - 2) := by
        rw [zpow_sub₀ (by norm_num)]
        have hpos : (0 : ℚ) < 2 ^ b.exponent := by positivity
        norm_num
        linarith

end Binary

theorem Double.isDouble_binary (a : Double) : a.binary.IsDouble := by
  have hfraction : (a.bits &&& fractionMask).toNat ≤ 2 ^ 52 - 1 := by
    rw [UInt64.toNat_and]
    exact Nat.and_le_right
  have hfield : ((a.bits &&& exponentMask) >>> 52).toNat ≤ 2047 := by
    rw [UInt64.toNat_shiftRight, UInt64.toNat_and, Nat.shiftRight_eq_div_pow]
    exact Nat.div_le_div_right (c := 2 ^ 52) Nat.and_le_right
  unfold Double.binary
  dsimp only
  split
  · exact ⟨by dsimp only; omega, by dsimp only; omega, by dsimp only; omega⟩
  · exact ⟨by simp only [Nat.pow_eq]; omega, by dsimp only; omega, by dsimp only; omega⟩

/-! ## Spellings -/

/-- Some digits. -/
structure AreDigits (cs : List Char) : Prop where
  ne_nil : cs ≠ []
  isDigit : ∀ c ∈ cs, c.isDigit = true

/-- Digits that can stand before a point: there is no zero in front of others. -/
structure AreWhole (cs : List Char) : Prop extends AreDigits cs where
  head : cs = ['0'] ∨ cs.head? ≠ some '0'

/-- The size of a number in characters. -/
structure Spelling where
  /-- The digits before the point. -/
  whole : List Char
  /-- The digits after the point, if there is a point. -/
  places : Option (List Char)
  /-- The power of ten after the digits, if there is one. -/
  exponent : Option Int

namespace Spelling

/-- The characters of a power of ten, which always has a sign. -/
def exponentChars (e : Int) : List Char :=
  'e' :: (if 0 ≤ e then '+' else '-') :: Nat.toDigits 10 e.natAbs

/-- All the characters. -/
def chars (w : Spelling) : List Char :=
  w.whole ++ (w.places.elim [] ('.' :: ·) ++ w.exponent.elim [] exponentChars)

/-- There are digits where there have to be some. -/
structure Valid (w : Spelling) : Prop where
  whole : AreWhole w.whole
  places : ∀ ds ∈ w.places, AreDigits ds

/-- It has a point or a power of ten. -/
def IsReal (w : Spelling) : Prop :=
  w.places.isSome ∨ w.exponent.isSome

/-- The characters of a sign. -/
def signChars (negative : Bool) : List Char :=
  if negative then ['-'] else []

/-- A text without sign is that of a number with a point or a power of ten. -/
def Spells (text : String) : Prop :=
  ∃ w : Spelling, w.Valid ∧ w.IsReal ∧ text.toList = w.chars

end Spelling

theorem areDigits_toDigits (n : Nat) : AreDigits (Nat.toDigits 10 n) :=
  ⟨Nat.toDigits_ne_nil, fun _ => Nat.isDigit_of_mem_toDigits (by decide) (by decide)⟩

theorem head_toDigits_ne_zero {n : Nat} (hn : n ≠ 0) : (Nat.toDigits 10 n).head? ≠ some '0' := by
  induction n using Nat.strongRecOn with
  | ind n ih =>
    rw [Nat.toDigits_eq_if (by decide)]
    split
    · simpa using hn
    · rw [List.head?_append_of_ne_nil _ Nat.toDigits_ne_nil]
      exact ih (n / 10) (by omega) (by omega)

theorem areWhole_toDigits (n : Nat) : AreWhole (Nat.toDigits 10 n) where
  toAreDigits := areDigits_toDigits n
  head := by
    rcases eq_or_ne n 0 with rfl | hn
    · exact .inl (Nat.toDigits_zero 10)
    · exact .inr (head_toDigits_ne_zero hn)

theorem toList_zeros (n : Nat) : (zeros n).toList = List.replicate n '0' :=
  String.toList_ofList

/-- A point between digits, the first of which is no zero, has digits on both sides. -/
theorem exists_insertPoint {digits : String} {places : Nat} (hdigits : AreDigits digits.toList)
    (hhead : digits.toList.head? ≠ some '0') (hplaces : 0 < places) :
    ∃ whole ds, (insertPoint digits places).toList = whole ++ '.' :: ds ∧
      AreWhole whole ∧ AreDigits ds := by
  obtain ⟨cs, rfl⟩ : ∃ cs, digits = String.ofList cs := ⟨digits.toList, String.ofList_toList.symm⟩
  rw [String.toList_ofList] at hdigits hhead
  have hlength : 0 < cs.length := List.length_pos_iff.mpr hdigits.ne_nil
  set padded := List.replicate (places + 1 - cs.length) '0' ++ cs with hpadded
  have hpoint : (insertPoint (String.ofList cs) places).toList =
      padded.take (padded.length - places) ++ '.' :: padded.drop (padded.length - places) := by
    simp [insertPoint, zeros, hpadded]
  have hfit : places < padded.length := by
    rw [hpadded, List.length_append, List.length_replicate]
    omega
  have hisDigit : ∀ c ∈ padded, c.isDigit = true := by
    intro c hc
    rcases List.mem_append.mp hc with hc | hc
    · rw [List.eq_of_mem_replicate hc]
      rfl
    · exact hdigits.isDigit c hc
  have hsum : padded.length = places + 1 - cs.length + cs.length := by simp [hpadded]
  have hhead : padded.take (padded.length - places) = ['0'] ∨
      (padded.take (padded.length - places)).head? ≠ some '0' := by
    -- a short number is padded so that just one zero stands before the point
    by_cases hshort : cs.length ≤ places
    · left
      obtain ⟨rest, hrest⟩ : ∃ rest, padded = '0' :: rest := by
        rw [hpadded, Nat.succ_sub hshort, List.replicate_succ, List.cons_append]
        exact ⟨_, rfl⟩
      rw [show padded.length - places = 1 by omega, hrest]
      rfl
    · right
      rw [List.head?_take, if_neg (by omega), hpadded, Nat.sub_eq_zero_of_le (by omega)]
      exact hhead
  refine ⟨_, _, hpoint, ⟨⟨?_, fun c hc => hisDigit c (List.mem_of_mem_take hc)⟩, hhead⟩, ?_,
    fun c hc => hisDigit c (List.mem_of_mem_drop hc)⟩
  · exact List.ne_nil_of_length_pos (by rw [List.length_take]; omega)
  · exact List.ne_nil_of_length_pos (by rw [List.length_drop]; omega)

/-- Digits that do not begin with a zero can go on with any others. -/
theorem AreDigits.areWhole_append {cs ds : List Char} (hcs : AreDigits cs)
    (hhead : cs.head? ≠ some '0') (hds : ∀ d ∈ ds, d.isDigit = true) : AreWhole (cs ++ ds) where
  ne_nil := List.append_ne_nil_of_left_ne_nil hcs.ne_nil ds
  isDigit c hc := (List.mem_append.mp hc).elim (hcs.isDigit c) (hds c)
  head := .inr (by rwa [List.head?_append_of_ne_nil _ hcs.ne_nil])

namespace Decimal

open Spelling

/-- Digits of a number: zero has no power of ten. -/
def Sound (d : Decimal) : Prop :=
  d.digits ≠ 0 ∨ d = ⟨0, 0⟩

theorem spells_positional {d : Decimal} (hd : d.Sound) : Spells (d.positional true) := by
  unfold positional
  dsimp only
  rw [Nat.toString_eq_repr]
  split
  · refine ⟨⟨Nat.toDigits 10 d.digits ++ List.replicate d.exponent.toNat '0', some ['0'], none⟩,
      ⟨?_, ?_⟩, .inl rfl, ?_⟩
    · rcases hd with hd | rfl
      · have hdigits := areDigits_toDigits d.digits
        refine hdigits.areWhole_append (head_toDigits_ne_zero hd) fun c hc => ?_
        rw [List.eq_of_mem_replicate hc]
        rfl
      · exact areWhole_toDigits 0
    · rintro _ ⟨⟩
      exact ⟨by simp, by simp⟩
    · simp [toList_zeros, chars]
  · next hexponent =>
    have hd : d.digits ≠ 0 := hd.resolve_right fun h => hexponent (h ▸ le_refl _)
    have hdigits := areDigits_toDigits d.digits
    have hhead := head_toDigits_ne_zero hd
    rw [← Nat.toList_repr] at hdigits hhead
    obtain ⟨whole, ds, htext, hwhole, hds⟩ :=
      exists_insertPoint hdigits hhead (show 0 < (-d.exponent).toNat by omega)
    refine ⟨⟨whole, some ds, none⟩, ⟨hwhole, ?_⟩, .inl rfl, ?_⟩
    · rintro _ ⟨⟩
      exact hds
    · rw [htext]
      simp [chars]

/-- The characters of a power of ten after those of the digits. -/
theorem toList_body_exponent (body : String) (e : Int) :
    (if 0 ≤ e then body ++ "e+" ++ toString e else body ++ "e" ++ toString e).toList =
      body.toList ++ exponentChars e := by
  rw [Int.toString_eq_repr, Int.repr_eq_if, exponentChars]
  split
  · next he =>
    have habs : e.natAbs = e.toNat := by omega
    simp [habs]
  · next he =>
    have habs : e.natAbs = (-e).toNat := by omega
    simp [habs]

theorem spells_scientific {d : Decimal} (hd : d.digits ≠ 0) : Spells (d.scientific "e+") := by
  unfold scientific
  dsimp only
  rw [Spells, toList_body_exponent, Nat.toString_eq_repr]
  generalize d.exponent + (d.digits.repr.length - 1 : Nat) = e
  have hdigits := areDigits_toDigits d.digits
  have hhead := head_toDigits_ne_zero hd
  rw [← Nat.toList_repr] at hdigits hhead
  split
  · exact ⟨⟨d.digits.repr.toList, none, some e⟩, ⟨⟨hdigits, .inr hhead⟩, nofun⟩, .inr rfl, rfl⟩
  · next hlength =>
    have hplaces : 0 < d.digits.repr.length - 1 := by
      have := Nat.length_repr_pos (n := d.digits)
      omega
    obtain ⟨whole, ds, htext, hwhole, hds⟩ := exists_insertPoint hdigits hhead hplaces
    refine ⟨⟨whole, some ds, some e⟩, ⟨hwhole, ?_⟩, .inr rfl, ?_⟩
    · rintro _ ⟨⟩
      exact hds
    · rw [htext, List.append_assoc]
      rfl

/-- Without the zeros at its end, a number is still not zero. -/
theorem stripZeros_ne_zero (most : Nat) {n : Nat} (hn : n ≠ 0) : (stripZeros most n).1 ≠ 0 := by
  induction most generalizing n with
  | zero => exact hn
  | succ most ih =>
    rw [stripZeros]
    split
    · exact ih (by omega)
    · exact hn

end Decimal

/-- A finite double is written as a number with a point or a power of ten. -/
theorem Double.exists_spelling {a : Double} (ha : a.isFinite = true) :
    ∃ w : Spelling, w.Valid ∧ w.IsReal ∧
      (a.text .json).toList = Spelling.signChars a.isNegative ++ w.chars := by
  have hsign : (a.signText false).toList = Spelling.signChars a.isNegative := by
    unfold Double.signText Spelling.signChars
    split <;> rfl
  have hspells : ∀ size : String, Spelling.Spells size → ∃ w : Spelling, w.Valid ∧ w.IsReal ∧
      (a.signText false ++ size).toList = Spelling.signChars a.isNegative ++ w.chars := by
    rintro size ⟨w, hw, hreal, hsize⟩
    exact ⟨w, hw, hreal, by rw [String.toList_append, hsign, hsize]⟩
  rw [Double.text, if_neg (not_not_intro ha)]
  refine hspells _ ?_
  dsimp only [Style.json]
  split
  · exact Decimal.spells_positional (.inr rfl)
  · next hmantissa =>
    have hfound := a.isDouble_binary.shortest_digits_ne_zero hmantissa .toEven
    have hd : (a.binary.shortest .toEven).normalize.digits ≠ 0 :=
      Decimal.stripZeros_ne_zero 400 hfound
    split
    · exact Decimal.spells_positional (.inl hd)
    · exact Decimal.spells_scientific hd

end Nlp
