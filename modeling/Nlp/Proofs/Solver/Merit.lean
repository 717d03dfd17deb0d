import Nlp.Proofs.Exact
import Nlp.Solver.AugmentedLagrangian

/-!
# The merit in exact arithmetic

Over the real numbers the gradient of the merit is the gradient of the Lagrangian function at the
weights of the rows, which are the multipliers after the minimisation.  The measure of an iterate
bounds infeasibility row by row, and an inequality that is slack by more than the measure has
weight zero.

## Main definitions

* `lagrangianGradient`: the gradient of the Lagrangian function at given multipliers.

## Main results

* `meritGradient_getElem`: the gradient of the merit is that of the Lagrangian at the next
  multipliers.
* `measure_le_iff`: the measure is bounded row by row.
* `updateMultipliers_eq_zero`: complementarity of the next multipliers.
-/

namespace Nlp.AugmentedLagrangian

variable {n m : Nat}

/-- The gradient of the Lagrangian function: row 0 of the Jacobian, and every other row times its
multiplier. -/
def lagrangianGradient (jacobian : Vector (Vector ℝ n) (1 + m)) (multipliers : Vector ℝ m)
    (i : Fin n) : ℝ :=
  (objectiveGradient jacobian).get i +
    ∑ j : Fin m, multipliers.get j * (constraintGradient jacobian j).get i

theorem addScaled_getElem (v r : Vector ℝ n) (w : ℝ) (i : Fin n) :
    (addScaled v w r).get i = v.get i + w * r.get i := by
  simp [addScaled]

/-- Rows of weight zero may be left out of a sum of rows. -/
theorem foldl_addScaled {β : Type} (w : β → ℝ) (row : β → Vector ℝ n) (l : List β)
    (g : Vector ℝ n) (i : Fin n) :
    (l.foldl (fun g b => if w b != 0 then addScaled g (w b) (row b) else g) g).get i =
      g.get i + (l.map fun b => w b * (row b).get i).sum := by
  -- on the rows: one of weight zero is passed over, and would have added nothing
  induction l generalizing g with
  | nil => simp
  | cons b l ih =>
    rw [List.foldl_cons, ih, List.map_cons, List.sum_cons]
    split
    · rw [addScaled_getElem, add_assoc]
    · next hw =>
      have hzero : w b = 0 := by simpa using hw
      simp only [hzero, zero_mul, zero_add]

/-- Each row with its value and its gradient, in order. -/
theorem zip_rows (p : Penalised ℝ m) (v : Vector ℝ m) (jacobian : Vector (Vector ℝ n) (1 + m)) :
    v.toList.zip (p.rows.zip (jacobian.toList.drop 1)) =
      List.ofFn fun j : Fin m =>
        (v.get j, (p.senses.get j, p.multipliers.get j), constraintGradient jacobian j) := by
  refine List.ext_getElem (by simp [Penalised.rows]) fun k hk hk' => ?_
  simp [Penalised.rows, constraintGradient, Nat.add_comm k 1]

/-- The gradient of the merit is that of the Lagrangian function at the next multipliers. -/
theorem meritGradient_getElem (p : Penalised ℝ m) (v : Vector ℝ m)
    (jacobian : Vector (Vector ℝ n) (1 + m)) (i : Fin n) :
    (meritGradient p v.toList jacobian).get i =
      lagrangianGradient jacobian (updateMultipliers p v) i := by
  rw [meritGradient, zip_rows]
  refine (foldl_addScaled (fun b : ℝ × (Sense × ℝ) × Vector ℝ n => weight b.2.1.1 b.2.1.2 p.penalty
    b.1) (fun b => b.2.2) _ _ i).trans ?_
  rw [List.map_ofFn, List.sum_ofFn]
  simp [lagrangianGradient, updateMultipliers]

/-! ## The measure, row by row -/

/-- What a row adds to the measure. -/
noncomputable def rowMeasure (p : Penalised ℝ m) (v : Vector ℝ m) (j : Fin m) : ℝ :=
  match p.senses.get j with
  | .equal => |v.get j|
  | .atMost => |max (v.get j) (-p.multipliers.get j / p.penalty)|

theorem measure_le_iff (p : Penalised ℝ m) (v : Vector ℝ m) (b : ℝ) :
    measure p v ≤ b ↔ 0 ≤ b ∧ ∀ j, rowMeasure p v j ≤ b := by
  refine (Exact.foldl_max_le_iff (rowMeasure p v) _ 0 b).trans (and_congr_right fun _ => ?_)
  exact ⟨fun h j => h j (List.mem_finRange j), fun h j _ => h j⟩

variable {p : Penalised ℝ m} {v : Vector ℝ m} {b : ℝ} {j : Fin m}

theorem abs_le_of_measure_le (h : measure p v ≤ b) (hj : p.senses.get j = .equal) :
    |v.get j| ≤ b := by
  have hrow := ((measure_le_iff p v b).mp h).2 j
  rwa [rowMeasure, hj] at hrow

/-- At an inequality the measure bounds the larger of the value and the value at which the next
multiplier would vanish. -/
theorem abs_max_le_of_measure_le (h : measure p v ≤ b) (hj : p.senses.get j = .atMost) :
    |max (v.get j) (-p.multipliers.get j / p.penalty)| ≤ b := by
  have hrow := ((measure_le_iff p v b).mp h).2 j
  rwa [rowMeasure, hj] at hrow

theorem le_of_measure_le (h : measure p v ≤ b) (hj : p.senses.get j = .atMost) : v.get j ≤ b :=
  (le_max_left _ _).trans ((le_abs_self _).trans (abs_max_le_of_measure_le h hj))

theorem updateMultipliers_atMost (hj : p.senses.get j = .atMost) :
    (updateMultipliers p v).get j = max (p.multipliers.get j + p.penalty * v.get j) 0 := by
  have hweight : (updateMultipliers p v).get j =
      weight (p.senses.get j) (p.multipliers.get j) p.penalty (v.get j) := by
    simp [updateMultipliers]
  rw [hweight, hj]
  rfl

theorem updateMultipliers_nonneg (hj : p.senses.get j = .atMost) :
    0 ≤ (updateMultipliers p v).get j := by
  rw [updateMultipliers_atMost hj]
  exact le_max_right _ _

/-- An inequality that is slack by more than the measure has the next multiplier zero: its
multiplier is too small for the shift to reach back to zero. -/
theorem updateMultipliers_eq_zero (hpenalty : 0 < p.penalty) (h : measure p v ≤ b)
    (hj : p.senses.get j = .atMost) (hslack : v.get j < -b) :
    (updateMultipliers p v).get j = 0 := by
  have hlow : -b ≤ max (v.get j) (-p.multipliers.get j / p.penalty) :=
    (abs_le.mp (abs_max_le_of_measure_le h hj)).1
  have hshift : -b ≤ -p.multipliers.get j / p.penalty :=
    (le_max_iff.mp hlow).resolve_left (not_le.mpr hslack)
  rw [le_div_iff₀ hpenalty] at hshift
  have hvalue : p.penalty * v.get j < p.penalty * -b := mul_lt_mul_of_pos_left hslack hpenalty
  have hweight : p.multipliers.get j + p.penalty * v.get j ≤ 0 := by linarith
  rw [updateMultipliers_atMost hj, max_eq_right hweight]

end Nlp.AugmentedLagrangian
