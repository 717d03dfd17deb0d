import Nlp.Double
import Mathlib

/-!
# The order of doubles, and their zeros

Comparisons of doubles see a word only through the number that its bits stand for.  A
not-a-number is comparable with nothing, itself included; the other doubles are totally ordered,
with the two zeros equal.

## Main definitions

* `Double.unpacked`: the number that the bits stand for.
* `Double.rank`: where a number stands among all of them.
* `Double.IsZero`: the two zeros.
* `Double.Alike`: sameness, but for the zeros and what is no number.

## Main results

* `Double.isNaN_iff`: which words are no number.
* `Double.not_isNaN_of_le`: what is comparable is a number.
* `Double.eq_or_isZero_of_beq`: what compares equal is the same, but for the zeros.
* `Double.lt_irrefl`, `Double.not_lt_of_le`, `Double.le_of_not_lt`: the laws of the order.
* `Double.not_lt_of_isNaN`: what is no number is not less than anything.
* `Double.compare_isLE`, `Double.le_trans`: the order is that of the ranks, and so transitive.
* `Double.le_max_left`, `Double.le_max_right`: numbers are at most their maximum.
* `Double.IsZero.sub_add_alike`: a zero can be taken off and put on again.
-/

namespace Nlp.Double

open Float.Model

/-! ## Parts of a word -/

/-- Words agree under a mask of some bits in a row exactly if they agree in these bits. -/
theorem and_mask_eq_iff {word mask v : BitVec 64} {start len : Nat} (hfit : start + len ≤ 64)
    (hmask : ∀ i < 64, mask.getLsbD i = decide (start ≤ i ∧ i < start + len))
    (hv : v &&& mask = v) :
    word &&& mask = v ↔ word.extractLsb' start len = v.extractLsb' start len := by
  constructor
  · intro h
    ext i hi
    have hbit := congrArg (fun u => u.getLsbD (start + i)) h
    simp only [BitVec.getLsbD_and, hmask (start + i) (by omega)] at hbit
    simpa [hi] using hbit
  · intro h
    rw [← hv]
    ext i hi
    rw [BitVec.getElem_and, BitVec.getElem_and, ← BitVec.getLsbD_eq_getElem (x := mask), hmask i hi]
    by_cases hpart : start ≤ i ∧ i < start + len
    · have hbit := congrArg (fun u => u.getLsbD (i - start)) h
      simp only [BitVec.getLsbD_extractLsb'] at hbit
      rw [show start + (i - start) = i by omega] at hbit
      simpa [hpart, show i - start < len by omega, BitVec.getLsbD_eq_getElem hi] using hbit
    · simp [hpart]

/-! ## The number of a word -/

/-- The number that the bits stand for. -/
def unpacked (a : Double) : UnpackedFloat :=
  .unpack Format.binary64 a.bits.toBitVec

theorem unpacked_eq_notANumber {a : Double} :
    a.unpacked = .notANumber ↔
      @UnpackedFloat.isNaNBits Format.binary64 a.bits.toBitVec = true := by
  rw [unpacked, UnpackedFloat.unpack, UnpackedFloat.isNaNBits, decide_eq_true_iff]
  split_ifs <;> simp_all

/-- The two masks tell what is no number. -/
theorem isNaN_iff {a : Double} : a.isNaN = true ↔ a.unpacked = .notANumber := by
  have hexponent : a.bits.toBitVec &&& exponentMask.toBitVec = exponentMask.toBitVec ↔
      a.bits.toBitVec.extractLsb' 52 11 = -1#11 :=
    and_mask_eq_iff (by decide) (by decide) (by decide)
  have hfraction : a.bits.toBitVec &&& fractionMask.toBitVec = 0#64 ↔
      a.bits.toBitVec.extractLsb' 0 52 = 0#52 :=
    and_mask_eq_iff (by decide) (by decide) (by decide)
  rw [unpacked_eq_notANumber, UnpackedFloat.isNaNBits, decide_eq_true_iff,
    UnpackedFloat.unpackExponent_def, UnpackedFloat.unpackMantissa_def, ← hexponent, Ne,
    ← hfraction]
  simp [isNaN, isFinite, ← UInt64.toBitVec_inj]

theorem isNaN_eq_false_iff {a : Double} : a.isNaN = false ↔ a.unpacked ≠ .notANumber := by
  rw [Ne, ← isNaN_iff, Bool.not_eq_true]

/-- The machine keeps one not-a-number only, which changes no number. -/
theorem unpack_toFloat (a : Double) : a.toFloat.toModel.unpack = a.unpacked := by
  change UnpackedFloat.unpack Format.binary64 (UnpackedFloat.pack Format.binary64 a.unpacked) = _
  cases hnan : @UnpackedFloat.isNaNBits Format.binary64 a.bits.toBitVec with
  | true =>
    rw [unpacked_eq_notANumber.mpr hnan]
    exact UnpackedFloat.unpack_packedNaN
  | false =>
    rw [unpacked, UnpackedFloat.pack_unpack, hnan, if_neg Bool.false_ne_true]

/-! ## Comparisons -/

theorem compare_eq_none {u v : UnpackedFloat} :
    u.compare v = none ↔ u = .notANumber ∨ v = .notANumber := by
  fun_cases UnpackedFloat.compare u v <;> simp_all

theorem compare_self {u : UnpackedFloat} (h : u ≠ .notANumber) : u.compare u = some .eq := by
  cases u with
  | notANumber => exact absurd rfl h
  | infinity s => cases s <;> rfl
  | zero s => rfl
  | finite s m e hm => cases s <;> simp [UnpackedFloat.compare]

theorem compare_swap (u v : UnpackedFloat) : v.compare u = (u.compare v).map .swap := by
  fun_cases UnpackedFloat.compare u v
  case case1 => cases v <;> rfl
  case case3 s t => cases s <;> cases t <;> rfl
  -- two numbers of one sign, by exponent and then by fraction
  case case13 | case16 =>
    simp only [UnpackedFloat.compare, Option.map_some, Ordering.swap_then,
      ← Std.OrientedCmp.eq_swap]
  all_goals simp [UnpackedFloat.compare]

theorem le_iff {a b : Double} :
    a ≤ b ↔ (a.unpacked.compare b.unpacked).any (·.isLE) = true := by
  rw [← unpack_toFloat, ← unpack_toFloat]
  change decide _ = true ↔ _
  rw [decide_eq_true_iff]
  exact Iff.rfl

theorem lt_iff {a b : Double} : a < b ↔ a.unpacked.compare b.unpacked = some .lt := by
  rw [← unpack_toFloat, ← unpack_toFloat]
  change decide _ = true ↔ _
  rw [decide_eq_true_iff, ← beq_iff_eq]
  exact Iff.rfl

theorem beq_iff {a b : Double} :
    (a == b) = true ↔ a.unpacked.compare b.unpacked = some .eq := by
  rw [← unpack_toFloat, ← unpack_toFloat]
  change (a.toFloat.toModel.unpack.compare b.toFloat.toModel.unpack == some .eq) = true ↔ _
  exact beq_iff_eq

theorem pack_unpacked {a : Double} (ha : a.isNaN = false) :
    UnpackedFloat.pack Format.binary64 a.unpacked = a.bits.toBitVec := by
  rw [isNaN_eq_false_iff, Ne, unpacked_eq_notANumber] at ha
  rw [unpacked, UnpackedFloat.pack_unpack, if_neg ha]

/-- Words that stand for the same number are the same. -/
theorem eq_of_unpacked_eq {a b : Double} (ha : a.isNaN = false) (h : a.unpacked = b.unpacked) :
    a = b := by
  have hb : b.isNaN = false := by
    rw [isNaN_eq_false_iff] at ha ⊢
    exact h ▸ ha
  have hbits := (pack_unpacked ha).symm.trans ((congrArg _ h).trans (pack_unpacked hb))
  cases a
  cases b
  exact congrArg mk (UInt64.toBitVec_inj.mp hbits)

/-- A zero, with one sign or the other. -/
def IsZero (a : Double) : Prop :=
  a = 0 ∨ a = -0

theorem isZero_of_unpacked {a : Double} {s : UnpackedFloat.Sign} (h : a.unpacked = .zero s) :
    a.IsZero := by
  have hnumber : a.isNaN = false := by
    rw [isNaN_eq_false_iff, h]
    exact nofun
  cases s with
  | positive => exact .inl (eq_of_unpacked_eq hnumber h)
  | negative => exact .inr (eq_of_unpacked_eq hnumber h)

theorem eq_or_zeros_of_compare {u v : UnpackedFloat} (h : u.compare v = some .eq) :
    u = v ∨ ∃ s t, u = .zero s ∧ v = .zero t := by
  fun_cases UnpackedFloat.compare u v
  case case3 s t => cases s <;> cases t <;> simp_all [UnpackedFloat.compare]
  all_goals simp_all [UnpackedFloat.compare]

/-- Numbers that compare equal are the same, but for the two zeros. -/
theorem eq_or_isZero_of_beq {a b : Double} (h : (a == b) = true) :
    a = b ∨ (a.IsZero ∧ b.IsZero) := by
  rw [beq_iff] at h
  have hnumber : a.isNaN = false := by
    rw [isNaN_eq_false_iff]
    rintro hnan
    rw [hnan] at h
    cases h
  rcases eq_or_zeros_of_compare h with heq | ⟨s, t, ha, hb⟩
  · exact .inl (eq_of_unpacked_eq hnumber heq)
  · exact .inr ⟨isZero_of_unpacked ha, isZero_of_unpacked hb⟩

/-- What is comparable is a number. -/
theorem not_isNaN_of_le {a b : Double} (h : a ≤ b) : a.isNaN = false ∧ b.isNaN = false := by
  rw [isNaN_eq_false_iff, isNaN_eq_false_iff, ← not_or, ← compare_eq_none]
  intro hnone
  rw [le_iff, hnone] at h
  cases h

/-- A not-a-number is not less than anything, and nothing is less than it. -/
theorem not_lt_of_isNaN {a b : Double} (h : a.isNaN = true ∨ b.isNaN = true) : ¬ a < b := by
  rw [isNaN_iff, isNaN_iff] at h
  rw [lt_iff, compare_eq_none.mpr h]
  exact nofun

theorem lt_irrefl (a : Double) : ¬ a < a := by
  cases ha : a.isNaN with
  | true => exact not_lt_of_isNaN (.inl ha)
  | false =>
    rw [lt_iff, compare_self (isNaN_eq_false_iff.mp ha)]
    exact nofun

theorem not_lt_of_le {a b : Double} (h : a ≤ b) : ¬ b < a := by
  rw [lt_iff, compare_swap]
  intro hlt
  obtain ⟨o, ho, hswap⟩ := Option.map_eq_some_iff.mp hlt
  rw [le_iff, ho] at h
  cases o <;> cases h <;> cases hswap

/-- Numbers are totally ordered. -/
theorem le_of_not_lt {a b : Double} (ha : a.isNaN = false) (hb : b.isNaN = false)
    (h : ¬ b < a) : a ≤ b := by
  rw [lt_iff, compare_swap] at h
  rw [le_iff]
  cases ho : a.unpacked.compare b.unpacked with
  | none =>
    rcases compare_eq_none.mp ho with hnan | hnan
    · exact absurd hnan (isNaN_eq_false_iff.mp ha)
    · exact absurd hnan (isNaN_eq_false_iff.mp hb)
  | some o =>
    rw [ho] at h
    cases o with
    | gt => exact absurd rfl h
    | lt | eq => rfl

/-! ## Numbers by their rank -/

/-- Where a number stands among all of them: by its sign and kind first, and two finite numbers of
one sign by exponent and then by fraction. -/
def rank : UnpackedFloat → Int ×ₗ Int ×ₗ Int
  | .infinity .negative => toLex (-2, toLex (0, 0))
  | .finite .negative m e _ => toLex (-1, toLex (-e, -m))
  | .notANumber | .zero _ => toLex (0, toLex (0, 0))
  | .finite .positive m e _ => toLex (1, toLex (e, m))
  | .infinity .positive => toLex (2, toLex (0, 0))

/-- Numbers compare as their ranks do. -/
theorem compare_isLE {u v : UnpackedFloat} (hu : u ≠ .notANumber) (hv : v ≠ .notANumber) :
    (u.compare v).any (·.isLE) = true ↔ rank u ≤ rank v := by
  have hsizes (e e' : Int) (m m' : Nat) :
      ((compare e e').then (compare m m')).isLE = true ↔ e < e' ∨ e = e' ∧ m ≤ m' := by
    rw [Ordering.isLE_then_iff_or, compare_lt_iff_lt, compare_eq_iff_eq, Nat.isLE_compare]
  have hswapped (e e' : Int) (m m' : Nat) :
      ((compare e e').then (compare m m')).isGE = true ↔ e' < e ∨ e = e' ∧ m' ≤ m := by
    rw [← Ordering.isLE_swap, Ordering.swap_then, ← Std.OrientedCmp.eq_swap,
      ← Std.OrientedCmp.eq_swap, hsizes, eq_comm]
  rcases u with (_ | _) | _ | _ | ⟨_ | _, m, e, hm⟩ <;>
    rcases v with (_ | _) | _ | _ | ⟨_ | _, m', e', hm'⟩ <;>
    simp_all [UnpackedFloat.compare, rank, Prod.Lex.toLex_le_toLex]
  all_goals rfl

theorem le_trans {a b c : Double} (hab : a ≤ b) (hbc : b ≤ c) : a ≤ c := by
  obtain ⟨ha, hb⟩ := not_isNaN_of_le hab
  obtain ⟨-, hc⟩ := not_isNaN_of_le hbc
  rw [isNaN_eq_false_iff] at ha hb hc
  rw [le_iff, compare_isLE ha hb] at hab
  rw [le_iff, compare_isLE hb hc] at hbc
  rw [le_iff, compare_isLE ha hc]
  exact hab.trans hbc

/-! ## Absolute values and maxima -/

/-- The sign is no part of what tells finite numbers. -/
theorem isFinite_abs (a : Double) : a.abs.isFinite = a.isFinite := by
  have hmask : ~~~signMask &&& exponentMask = exponentMask := by decide
  rw [isFinite, isFinite, abs, UInt64.and_assoc, hmask]

theorem isNaN_of_isFinite {a : Double} (h : a.isFinite = true) : a.isNaN = false := by
  rw [isNaN, h]
  rfl

theorem le_refl {a : Double} (ha : a.isNaN = false) : a ≤ a :=
  le_of_not_lt ha ha (lt_irrefl a)

theorem le_of_lt {a b : Double} (h : a < b) : a ≤ b := by
  rw [lt_iff] at h
  rw [le_iff, h]
  rfl

/-- A number is at most a maximum of it with anything. -/
theorem le_max_left {a : Double} (ha : a.isNaN = false) (b : Double) : a ≤ a.max b := by
  rw [max]
  split
  · exact le_refl ha
  next hb =>
  split
  · exact le_refl ha
  · next hlt => exact le_of_not_lt ha (eq_false_of_ne_true hb) hlt

theorem le_max_right (a : Double) {b : Double} (hb : b.isNaN = false) : b ≤ a.max b := by
  rw [max, if_neg (ne_true_of_eq_false hb)]
  split
  · next hlt => exact le_of_lt hlt
  · exact le_refl hb

/-! ## Differences from zeros -/

/-- The doubles are the same, but for the sign of a zero, and for what a not-a-number carries. -/
def Alike (a b : Double) : Prop :=
  a = b ∨ (a.IsZero ∧ b.IsZero) ∨ (a.isNaN = true ∧ b.isNaN = true)

/-- A number comes back from the machine as it was. -/
theorem ofFloat_toFloat {a : Double} (ha : a.isNaN = false) : ofFloat a.toFloat = a := by
  have hnumber : a.toFloat.isNaN = false := by
    change a.toFloat.toModel.unpack.isNaN = false
    rw [isNaN_eq_false_iff] at ha
    rw [unpack_toFloat]
    cases h : a.unpacked with
    | notANumber => exact absurd h ha
    | infinity s | zero s | finite s m e hm => rfl
  rw [ofFloat, if_neg (ne_true_of_eq_false hnumber)]
  exact congrArg (fun word => mk ⟨word⟩) (pack_unpacked ha)

section

variable {op : Float → Float → Float}

/-- An operation comes to what it makes of the numbers that the bits stand for. -/
theorem lift_of_unpacked {f : UnpackedFloat → UnpackedFloat → UnpackedFloat}
    (hop : ∀ x y, op x y = ⟨Float.Model.pack (f x.toModel.unpack y.toModel.unpack)⟩)
    {a b c : Double} (ha : a.isNaN = false) (hb : b.isNaN = false) (hc : c.isNaN = false)
    (h : f a.unpacked b.unpacked = c.unpacked) : lift op a b = c := by
  rw [lift, if_neg (ne_true_of_eq_false ha), if_neg (ne_true_of_eq_false hb), hop, unpack_toFloat,
    unpack_toFloat, h]
  exact ofFloat_toFloat hc

theorem isNaN_quiet {a : Double} (ha : a.isNaN = true) : a.quiet.isNaN = true := by
  have hor (mask : UInt64) :
      (a.bits ||| quietMask) &&& mask = a.bits &&& mask ||| quietMask &&& mask :=
    UInt64.toBitVec_inj.mp BitVec.and_or_distrib_right
  have hexponent : quietMask &&& exponentMask = 0 := by decide
  have hfraction : quietMask &&& fractionMask ≠ 0 := by decide
  rw [isNaN, Bool.and_eq_true, isFinite] at ha
  rw [isNaN, Bool.and_eq_true, isFinite, quiet, hor, hor, hexponent, UInt64.or_zero, bne_iff_ne, Ne,
    UInt64.or_eq_zero_iff]
  exact ⟨ha.1, fun h => hfraction h.2⟩

theorem isNaN_lift {a : Double} (ha : a.isNaN = true) (b : Double) :
    (lift op a b).isNaN = true := by
  rw [lift, if_pos ha]
  exact isNaN_quiet ha

end

namespace IsZero

variable {a z : Double}

theorem exists_unpacked (hz : z.IsZero) : ∃ s, z.unpacked = .zero s := by
  rcases hz with rfl | rfl
  · exact ⟨.positive, rfl⟩
  · exact ⟨.negative, rfl⟩

theorem isNaN_eq_false (hz : z.IsZero) : z.isNaN = false := by
  rcases hz with rfl | rfl <;> rfl

/-- A zero takes nothing from a number other than a zero, and adds nothing. -/
theorem sub_add_eq (hz : z.IsZero) (ha : a.isNaN = false) (hother : ¬ a.IsZero) :
    a - z + z = a := by
  obtain ⟨s, hs⟩ := hz.exists_unpacked
  -- beside an operand that is a zero nothing is rounded, and the other one is the result
  have hsub : UnpackedFloat.sub .binary64 a.unpacked z.unpacked = a.unpacked := by
    rw [hs]
    cases h : a.unpacked with
    | zero s' => exact absurd (isZero_of_unpacked h) hother
    | notANumber | infinity s' | finite s' m e hm => rfl
  have hadd : UnpackedFloat.add .binary64 a.unpacked z.unpacked = a.unpacked := by
    rw [hs]
    cases h : a.unpacked with
    | zero s' => exact absurd (isZero_of_unpacked h) hother
    | notANumber | infinity s' | finite s' m e hm => rfl
  have hdifference : a - z = a := lift_of_unpacked (fun _ _ => rfl) ha hz.isNaN_eq_false ha hsub
  rw [hdifference]
  exact lift_of_unpacked (fun _ _ => rfl) ha hz.isNaN_eq_false ha hadd

/-- Zeros less a zero, with it added again, are zeros. -/
theorem sub_add (hz : z.IsZero) (ha : a.IsZero) : (a - z + z).IsZero := by
  left
  rcases ha with rfl | rfl <;> rcases hz with rfl | rfl <;> decide +kernel

/-- A zero that is taken off and put on again changes nothing of a double but the sign of a zero and
what a not-a-number carries. -/
theorem sub_add_alike (hz : z.IsZero) (a : Double) : (a - z + z).Alike a := by
  cases ha : a.isNaN with
  | true => exact .inr (.inr ⟨isNaN_lift (isNaN_lift ha z) z, ha⟩)
  | false =>
    by_cases hzero : a.IsZero
    · exact .inr (.inl ⟨hz.sub_add hzero, hzero⟩)
    · exact .inl (hz.sub_add_eq ha hzero)

end IsZero

end Nlp.Double
