import Nlp.Linear
import Mathlib.Analysis.Real.Sqrt
import Mathlib.Algebra.BigOperators.Fin

/-!
# Exact arithmetic

The real numbers as scalars: sums and products do not round, every number is finite, and two
numbers are equal exactly when they compare equal.  Over them the vector operations are the usual
ones.

## Main results

* `clamp_mem_Icc`, `clampTo_mem_Icc`: a clamped number lies in the interval, and a clamped point in
  the box; `abs_clamp_sub_le`, it is no farther from the numbers of the interval.
* `samePoint_iff`: points are numerically equal when they are equal.
* `infNorm_le_iff`: the norm is bounded as the entries are.
-/

namespace Nlp

noncomputable section

/-- Real numbers, with the operations of the field. -/
instance : Scalar ℝ where
  abs a := |a|
  sqrt := Real.sqrt
  max := Max.max
  min := Min.min
  isFinite _ := true
  beq a b := decide (a = b)
  decideLe a b := Classical.dec (a ≤ b)
  decideLt a b := Classical.dec (a < b)

end

namespace Exact

@[simp] theorem abs_eq (a : ℝ) : Scalar.abs a = |a| := rfl

@[simp] theorem max_eq (a b : ℝ) : Scalar.max a b = max a b := rfl

@[simp] theorem min_eq (a b : ℝ) : Scalar.min a b = min a b := rfl

@[simp] theorem isFinite_eq (a : ℝ) : Scalar.isFinite a = true := rfl

theorem clamp_mem_Icc {lower upper : ℝ} (h : lower ≤ upper) (x : ℝ) :
    Scalar.clamp lower upper x ∈ Set.Icc lower upper := by
  unfold Scalar.clamp
  split
  · exact ⟨le_refl lower, h⟩
  · next hlower =>
    split
    · exact ⟨h, le_refl upper⟩
    · next hupper => exact ⟨not_lt.mp hlower, not_lt.mp hupper⟩

/-- Clamping brings a number no farther from a number of the interval. -/
theorem abs_clamp_sub_le {lower upper x : ℝ} (hx : x ∈ Set.Icc lower upper) (y : ℝ) :
    |Scalar.clamp lower upper y - x| ≤ |y - x| := by
  obtain ⟨hlower, hupper⟩ := hx
  unfold Scalar.clamp
  split_ifs with hbelow habove
  · rw [abs_of_nonpos (by linarith), abs_of_nonpos (by linarith)]
    linarith
  · rw [abs_of_nonneg (by linarith), abs_of_nonneg (by linarith)]
    linarith
  · exact le_rfl

/-- A clamped point lies in the box. -/
theorem clampTo_mem_Icc {n : Nat} {lower upper : Vector ℝ n}
    (h : ∀ i : Fin n, lower.get i ≤ upper.get i) (x : Vector ℝ n) (i : Fin n) :
    (clampTo lower upper x).get i ∈ Set.Icc (lower.get i) (upper.get i) := by
  rw [clampTo, entry_ofFn]
  exact clamp_mem_Icc (h i) _

theorem single_get {α : Type} (a : α) (i : Fin 1) : #v[a].get i = a := by
  obtain rfl : i = 0 := Subsingleton.elim i 0
  rfl

theorem single_mem_Icc {lower upper x : ℝ} (h : x ∈ Set.Icc lower upper) (i : Fin 1) :
    #v[x].get i ∈ Set.Icc (#v[lower].get i) (#v[upper].get i) := by
  rwa [single_get, single_get, single_get]

/-- A point of the box is left as it is. -/
theorem clampTo_eq_self {n : Nat} {lower upper x : Vector ℝ n}
    (h : ∀ i : Fin n, x.get i ∈ Set.Icc (lower.get i) (upper.get i)) :
    clampTo lower upper x = x := by
  ext i hi
  obtain ⟨hlower, hupper⟩ := h ⟨i, hi⟩
  rw [clampTo, Vector.getElem_ofFn, Scalar.clamp, if_neg hlower.not_gt, if_neg hupper.not_gt]
  rfl

theorem samePoint_iff {x y : List ℝ} : samePoint x y = true ↔ x = y := by
  -- on both points at once, as they have to be of the same length
  induction x generalizing y with
  | nil => cases y <;> simp [samePoint]
  | cons a x ih =>
    cases y with
    | nil => simp [samePoint]
    | cons b y =>
      simp only [samePoint, List.length_cons, Nat.add_right_cancel_iff, List.zip_cons_cons,
        List.all_cons, Bool.and_eq_true, beq_iff_eq, List.cons.injEq] at ih ⊢
      rw [← ih]
      exact and_left_comm

/-- A running maximum is bounded when its start and all its items are. -/
theorem foldl_max_le_iff {β : Type} (f : β → ℝ) (l : List β) (z b : ℝ) :
    l.foldl (fun m a => Scalar.max m (f a)) z ≤ b ↔ z ≤ b ∧ ∀ a ∈ l, f a ≤ b := by
  induction l generalizing z with
  | nil => simp
  | cons a l ih =>
    rw [List.foldl_cons, ih, max_eq, max_le_iff, List.forall_mem_cons, and_assoc]

theorem infNorm_le_iff {n : Nat} {v : Vector ℝ n} {b : ℝ} :
    infNorm v ≤ b ↔ 0 ≤ b ∧ ∀ i : Fin n, |v.get i| ≤ b := by
  rw [infNorm, foldl_max_le_iff]
  refine and_congr_right fun _ => ⟨fun h i => ?_, fun h a ha => ?_⟩
  · exact h _ (Vector.mem_toList_iff.mpr (Vector.getElem_mem i.isLt))
  obtain ⟨i, hi, rfl⟩ := Vector.mem_iff_getElem.mp (Vector.mem_toList_iff.mp ha)
  exact h ⟨i, hi⟩

end Exact

end Nlp
