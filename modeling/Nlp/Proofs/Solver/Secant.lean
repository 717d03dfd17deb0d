import Nlp.Proofs.Solver.Curvature

/-!
# The secant equation

The inverse BFGS update is written in an expanded form: the product `H y` is formed once, and then
every entry is changed by a number into which no entry of the matrix enters any more.  So it can be
made in the matrix itself, in any arithmetic.  In exact arithmetic it takes a symmetric matrix to

`H' = (I - s yᵀ / sᵀy) H (I - y sᵀ / sᵀy) + s sᵀ / sᵀy`,

which is symmetric again and takes the change `y` of the gradient back to the step `s`.  For this
the curvature `sᵀy` may have either sign, and the matrix need not be definite.

## Main definitions

* `changeEntry`: a matrix with one entry changed.
* `updateInPlace`: the update, made in the matrix itself.

## Main results

* `updateInPlace_eq`: made in place, the update is the same.
* `mulVec_updateInverse`: the secant equation, which needs no symmetry.
* `updateInverse_secant`: the update of a symmetric matrix.
* `goesOn_secant`: the secant equation after every iteration whose step shows curvature.
-/

open scoped Matrix

namespace Nlp

open Exact

namespace Minimize

variable {n : Nat}

/-! ## The update in place -/

section

variable {α : Type}

/-- The matrix with the entry at one place changed. -/
def changeEntry (change : α → α) (h : Square α n) (place : Fin n × Fin n) : Square α n :=
  let row := h.get place.1
  h.set place.1 (row.set place.2 (change (row.get place.2)))

theorem changeEntry_get (change : α → α) (h : Square α n) (place : Fin n × Fin n) (i j : Fin n) :
    ((changeEntry change h place).get i).get j =
      if place = (i, j) then change ((h.get i).get j) else (h.get i).get j := by
  obtain ⟨k, l⟩ := place
  simp only [changeEntry, entry_set, Prod.mk.injEq]
  by_cases hi : k = i
  · subst hi
    simp only [if_true, entry_set, true_and]
    by_cases hj : l = j
    · subst hj
      simp only [if_true]
    · simp only [if_neg hj]
  · simp only [hi, if_false, false_and]

/-- A sweep over places that are all different changes every entry at one of them once, from what
it was before the sweep, and no other. -/
theorem foldl_changeEntry_get (change : Fin n × Fin n → α → α) {places : List (Fin n × Fin n)}
    (hplaces : places.Nodup) (h : Square α n) (i j : Fin n) :
    ((places.foldl (fun h place => changeEntry (change place) h place) h).get i).get j =
      if (i, j) ∈ places then change (i, j) ((h.get i).get j) else (h.get i).get j := by
  induction places generalizing h with
  | nil => rfl
  | cons place places ih =>
    obtain ⟨hplace, hplaces⟩ := List.nodup_cons.mp hplaces
    rw [List.foldl_cons, ih hplaces, changeEntry_get]
    by_cases hhere : place = (i, j)
    · -- the entry is changed here, and at no later place
      subst hhere
      rw [if_neg hplace, if_pos rfl, if_pos List.mem_cons_self]
    · have hother : (i, j) ≠ place := Ne.symm hhere
      simp only [if_neg hhere, List.mem_cons, hother, false_or]

end

section

variable {α : Type} [Scalar α]

/-- The inverse BFGS update made in the matrix itself, row by row and along every row, after its
product with `y` has been formed. -/
def updateInPlace (h : Square α n) (s y : Vector α n) (sy : α) : Square α n :=
  let hy := mulVec h y
  let coef := (sy + dot y hy) / (sy * sy)
  let change (i j : Fin n) :=
    coef * s.get i * s.get j - (hy.get i * s.get j + s.get i * hy.get j) / sy
  (List.finRange n ×ˢ List.finRange n).foldl
    (fun h place => changeEntry (· + change place.1 place.2) h place) h

/-- Made in place, the update is the same, whatever the arithmetic. -/
theorem updateInPlace_eq (h : Square α n) (s y : Vector α n) (sy : α) :
    updateInPlace h s y sy = updateInverse h s y sy := by
  have hplaces : (List.finRange n ×ˢ List.finRange n).Nodup :=
    (List.nodup_finRange n).product (List.nodup_finRange n)
  have hentry (i j : Fin n) :
      ((updateInPlace h s y sy).get i).get j = ((updateInverse h s y sy).get i).get j := by
    have hmem : (i, j) ∈ List.finRange n ×ˢ List.finRange n :=
      List.mem_product.mpr ⟨List.mem_finRange i, List.mem_finRange j⟩
    rw [updateInPlace, foldl_changeEntry_get _ hplaces, if_pos hmem, updateInverse, entry_ofFn,
      entry_ofFn]
  ext i hi j hj
  exact hentry ⟨i, hi⟩ ⟨j, hj⟩

end

/-! ## The update in exact arithmetic -/

/-- The updated matrix takes the change of the gradient back to the step. -/
theorem mulVec_updateInverse (h : Square ℝ n) {s y : Vector ℝ n} {sy : ℝ}
    (hproduct : s.get ⬝ᵥ y.get = sy) (hsy : sy ≠ 0) :
    toMatrix (updateInverse h s y sy) *ᵥ y.get = s.get := by
  have hform : toMatrix (updateInverse h s y sy) *ᵥ y.get =
      toMatrix h *ᵥ y.get +
        (((sy + y.get ⬝ᵥ toMatrix h *ᵥ y.get) / (sy * sy)) • sy • s.get -
          sy⁻¹ • (sy • (toMatrix h *ᵥ y.get) + (y.get ⬝ᵥ toMatrix h *ᵥ y.get) • s.get)) := by
    rw [toMatrix_updateInverse_eq_add]
    simp only [Matrix.add_mulVec, Matrix.sub_mulVec, Matrix.smul_mulVec, Matrix.vecMulVec_mulVec,
      op_smul_eq_smul, hproduct, dotProduct_comm (toMatrix h *ᵥ y.get) y.get]
  rw [hform]
  funext i
  simp only [Pi.add_apply, Pi.sub_apply, Pi.smul_apply, smul_eq_mul]
  field_simp
  ring

/-- The update of a symmetric matrix, which may be made in place: it has the product form, is
symmetric, and satisfies the secant equation. -/
theorem updateInverse_secant {h : Square ℝ n} (hsymm : (toMatrix h).IsSymm) (s y : Vector ℝ n)
    {sy : ℝ} (hproduct : s.get ⬝ᵥ y.get = sy) (hsy : sy ≠ 0) :
    updateInPlace h s y sy = updateInverse h s y sy ∧
      toMatrix (updateInverse h s y sy) =
        (1 - sy⁻¹ • Matrix.vecMulVec s.get y.get) * toMatrix h *
            (1 - sy⁻¹ • Matrix.vecMulVec y.get s.get) +
          sy⁻¹ • Matrix.vecMulVec s.get s.get ∧
      (toMatrix (updateInverse h s y sy)).IsSymm ∧
      toMatrix (updateInverse h s y sy) *ᵥ y.get = s.get :=
  ⟨updateInPlace_eq h s y sy, toMatrix_updateInverse hsymm s y hsy,
    isSymm_updateInverse hsymm s y sy, mulVec_updateInverse h hproduct hsy⟩

/-- The exchange of two variables, a symmetric matrix that is not definite. -/
noncomputable def exchange : Square ℝ 2 :=
  Vector.ofFn fun i => Vector.ofFn fun j => if i = j then 0 else 1

theorem exchange_eq : exchange = #v[#v[0, 1], #v[1, 0]] := by
  refine eq_pair (eq_pair ?_ ?_) (eq_pair ?_ ?_) <;> simp [exchange]

theorem isSymm_exchange : (toMatrix exchange).IsSymm := by
  ext i j
  simp [toMatrix_apply, exchange, eq_comm]

/-- The exchange, updated by a step along which the curvature is negative. -/
theorem exchange_secant :
    (toMatrix exchange).IsSymm ∧ #v[(1 : ℝ), 0].get ⬝ᵥ #v[(-1 : ℝ), 1].get = -1 ∧
      (-1 : ℝ) ≠ 0 ∧
      updateInverse exchange #v[1, 0] #v[-1, 1] (-1) = #v[#v[-1, 0], #v[0, 0]] ∧
      updateInPlace exchange #v[1, 0] #v[-1, 1] (-1) =
        updateInverse exchange #v[1, 0] #v[-1, 1] (-1) ∧
      toMatrix (updateInverse exchange #v[1, 0] #v[-1, 1] (-1)) =
        (1 - (-1 : ℝ)⁻¹ • Matrix.vecMulVec #v[1, 0].get #v[-1, 1].get) * toMatrix exchange *
            (1 - (-1 : ℝ)⁻¹ • Matrix.vecMulVec #v[-1, 1].get #v[1, 0].get) +
          (-1 : ℝ)⁻¹ • Matrix.vecMulVec #v[1, 0].get #v[1, 0].get ∧
      (toMatrix (updateInverse exchange #v[1, 0] #v[-1, 1] (-1))).IsSymm ∧
      toMatrix (updateInverse exchange #v[1, 0] #v[-1, 1] (-1)) *ᵥ #v[-1, 1].get =
        #v[(1 : ℝ), 0].get := by
  have hproduct : #v[(1 : ℝ), 0].get ⬝ᵥ #v[(-1 : ℝ), 1].get = -1 := by
    rw [← dot_eq, dot_pair]
    norm_num
  have hne : (-1 : ℝ) ≠ 0 := neg_ne_zero.mpr one_ne_zero
  refine ⟨isSymm_exchange, hproduct, hne, ?_, updateInverse_secant isSymm_exchange _ _ hproduct hne⟩
  rw [exchange_eq]
  refine eq_pair (eq_pair ?_ ?_) (eq_pair ?_ ?_) <;>
    simp only [updateInverse, entry_ofFn, mulVec_pair, dot_pair, pair_get_zero, pair_get_one] <;>
    norm_num

/-! ## Iterations -/

/-- What has been learnt from a step with curvature satisfies the secant equation of the step. -/
theorem learn_secant (h : Square ℝ n) (fresh : Bool) {s y : Vector ℝ n} (hcurved : Curved s y) :
    mulVec (learn h fresh s y).1 y = s := by
  rw [learn_of_curved hcurved, ← get_inj, mulVec_get]
  exact mulVec_updateInverse _ (dot_eq s y).symm hcurved.pos.ne'

variable {lower upper : Vector ℝ n} {settings : Settings ℝ}

/-- After an iteration whose step shows curvature, the inverse Hessian approximation takes the
change of the gradient back to the step. -/
theorem goesOn_secant {C : Contract (merit ℝ n)} {k : Nat} {norm : ℝ} {s next : Iterate ℝ n}
    (h : (iterateOnce lower upper settings k s).Yields C (.goesOn norm next))
    (hcurved : Curved (next.point - s.point) (next.gradient - s.gradient)) :
    mulVec next.inverse (next.gradient - s.gradient) = next.point - s.point := by
  cases iterateOnce_yields h with
  | @goesOn t g _ ht _ =>
    have hcurved' : Curved t.step (g - s.gradient) := by
      rw [ht.step]
      exact hcurved
    -- forgetting the approximation leaves the gradient as it is
    change mulVec (learn _ _ t.step (g - (heading lower upper s).2.gradient)).1 (g - s.gradient) =
      t.point - s.point
    rw [heading_gradient, ← ht.step]
    exact learn_secant _ _ hcurved'

end Minimize

end Nlp
