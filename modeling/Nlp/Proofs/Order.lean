import Nlp.Proofs.Double
import Nlp.Proofs.Exact

/-!
# Laws of the order

What is proved in any arithmetic takes from it a few laws of the order, which the reals and the
doubles have in common.  A number that compares with nothing is not even at most itself, and so a
law that needs a number says that it is.

## Main definitions

* `Scalar.Ordered`, `Scalar.Capped`, `Scalar.Normed`: the laws that are used of bounds, of minima,
  and of the norm.

## Main results

* `Scalar.Ordered.not_lt_clamp`: a clamped number is not outside of the interval.
* `Scalar.Normed.abs_le_of_infNorm_le`: a bound on the norm is one on every entry that is a number.
-/

namespace Nlp

variable {α : Type}

/-! ## Bounds -/

/-- Nothing is less than itself, nor less than what it is at most. -/
structure Scalar.Ordered (α : Type) [Scalar α] : Prop where
  lt_irrefl : ∀ a : α, ¬ a < a
  not_lt_of_le : ∀ a b : α, a ≤ b → ¬ b < a

theorem Exact.ordered : Scalar.Ordered ℝ where
  lt_irrefl := lt_irrefl
  not_lt_of_le _ _ := not_lt_of_ge

theorem Double.ordered : Scalar.Ordered Double where
  lt_irrefl := Double.lt_irrefl
  not_lt_of_le _ _ := Double.not_lt_of_le

/-- A clamped number is not outside of the interval. -/
theorem Scalar.Ordered.not_lt_clamp [Scalar α] (h : Scalar.Ordered α) {lower upper : α}
    (hbounds : lower ≤ upper) (a : α) :
    ¬ Scalar.clamp lower upper a < lower ∧ ¬ upper < Scalar.clamp lower upper a := by
  unfold Scalar.clamp
  split_ifs with hbelow habove
  · exact ⟨h.lt_irrefl lower, h.not_lt_of_le _ _ hbounds⟩
  · exact ⟨h.not_lt_of_le _ _ hbounds, h.lt_irrefl upper⟩
  · exact ⟨hbelow, habove⟩

/-! ## Minima -/

/-- What is at most a number and not below it is that number; and a minimum with a number is below
it, or is that number. -/
structure Scalar.Capped (α : Type) [Scalar α] : Prop where
  le_self_of_le : ∀ a b : α, a ≤ b → b ≤ b
  le_of_not_lt : ∀ a b : α, a ≤ b → ¬ a < b → b ≤ a
  min_cases : ∀ a b : α, b ≤ b → Scalar.min a b < b ∨ Scalar.min a b = b

theorem Exact.capped : Scalar.Capped ℝ where
  le_self_of_le _ b _ := le_refl b
  le_of_not_lt _ _ _ := not_lt.mp
  min_cases a b _ := (min_le_right a b).lt_or_eq

theorem Double.capped : Scalar.Capped Double where
  le_self_of_le _ b h :=
    have hb := (not_isNaN_of_le h).2
    le_of_not_lt hb hb (lt_irrefl b)
  le_of_not_lt _ _ h hlt :=
    have hnumbers := not_isNaN_of_le h
    le_of_not_lt hnumbers.2 hnumbers.1 hlt
  min_cases a b h := by
    show Double.min a b < b ∨ Double.min a b = b
    rw [Double.min, if_neg (Bool.eq_false_iff.mp (not_isNaN_of_le h).1)]
    split
    · next hlt => exact .inl hlt
    · exact .inr rfl

/-! ## The norm -/

/-- What is at most something is so for good, zero and the size of what is finite are numbers, and
numbers are at most their maximum, also with something that is none. -/
structure Scalar.Normed (α : Type) [Scalar α] : Prop extends Scalar.Ordered α, Scalar.Capped α where
  le_of_lt : ∀ a b : α, a < b → a ≤ b
  le_trans : ∀ a b c : α, a ≤ b → b ≤ c → a ≤ c
  zero_le_zero : (0 : α) ≤ 0
  abs_le_abs : ∀ a : α, Scalar.isFinite a → Scalar.abs a ≤ Scalar.abs a
  le_max_left : ∀ a b : α, a ≤ a → a ≤ Scalar.max a b
  le_max_right : ∀ a b : α, b ≤ b → b ≤ Scalar.max a b

theorem Exact.normed : Scalar.Normed ℝ where
  toOrdered := Exact.ordered
  toCapped := Exact.capped
  le_of_lt _ _ := le_of_lt
  le_trans _ _ _ := le_trans
  zero_le_zero := le_refl 0
  abs_le_abs a _ := le_refl |a|
  le_max_left a b _ := le_max_left a b
  le_max_right a b _ := le_max_right a b

theorem Double.normed : Scalar.Normed Double where
  toOrdered := Double.ordered
  toCapped := Double.capped
  le_of_lt _ _ := Double.le_of_lt
  le_trans _ _ _ := Double.le_trans
  zero_le_zero := Double.le_refl (by decide)
  abs_le_abs a ha := Double.le_refl (isNaN_of_isFinite ((isFinite_abs a).trans ha))
  le_max_left _ b ha := Double.le_max_left (not_isNaN_of_le ha).1 b
  le_max_right a _ hb := Double.le_max_right a (not_isNaN_of_le hb).1

/-- A running maximum is at least the number it starts from, and at least the size of every item
that is one. -/
theorem Scalar.Normed.le_foldl [Scalar α] (h : Scalar.Normed α) (l : List α) {z : α} (hz : z ≤ z) :
    z ≤ l.foldl (fun m a => Scalar.max m (Scalar.abs a)) z ∧
      ∀ a ∈ l, Scalar.isFinite a →
        Scalar.abs a ≤ l.foldl (fun m a => Scalar.max m (Scalar.abs a)) z := by
  induction l generalizing z with
  | nil => exact ⟨hz, fun _ hmem => nomatch hmem⟩
  | cons a l ih =>
    have hstep := h.le_max_left z (Scalar.abs a) hz
    obtain ⟨hstart, hitems⟩ := ih (h.le_self_of_le _ _ hstep)
    refine ⟨h.le_trans _ _ _ hstep hstart, List.forall_mem_cons.mpr ⟨fun ha => ?_, hitems⟩⟩
    exact h.le_trans _ _ _ (h.le_max_right z _ (h.abs_le_abs a ha)) hstart

theorem Scalar.Normed.abs_le_of_infNorm_le [Scalar α] (h : Scalar.Normed α) {n : Nat}
    {v : Vector α n} {b : α} (hnorm : infNorm v ≤ b) {i : Fin n}
    (hi : Scalar.isFinite (v.get i)) : Scalar.abs (v.get i) ≤ b := by
  have hmem : v.get i ∈ v.toList := Vector.mem_toList_iff.mpr (Vector.getElem_mem i.isLt)
  exact h.le_trans _ _ _ ((h.le_foldl v.toList h.zero_le_zero).2 _ hmem hi) hnorm

end Nlp
