import Nlp.Proofs.Solver.Merit
import Mathlib.Analysis.Calculus.Deriv.Basic
import Mathlib.Analysis.Calculus.FDeriv.Add
import Mathlib.Analysis.Calculus.Deriv.Comp
import Mathlib.Analysis.InnerProductSpace.Basic
import Mathlib.Topology.Algebra.Module.ModuleTopology

/-!
# How the merit changes from point to point

The value and the gradient of the merit are told apart by sense in different ways: the value has one
formula for each sense, the gradient a factor for each row, cut off at zero for an inequality, and
rows of factor zero are left out.  In exact arithmetic they belong together.  From one point to
another the merit changes as the objective does, by the change of every row times its factor at the
first point, and by a remainder that is not negative and at most quadratic in the change of the
rows.  For an equality it is just that square; for an inequality it depends on the side of the kink
that the two points are on.

## Main definitions

* `IsFactors`: the factors by which the gradient of the merit takes the rows.
* `rowRemainder`, `remainder`: what is left of a change when its linear part is taken away.
* `HasGradient`: the gradient of a function of finitely many numbers, by its entries.

## Main results

* `isFactors_iff`: the factors are determined.
* `rowRemainder_nonneg`, `rowRemainder_le`, `rowRemainder_equal`: the remainder of one row.
* `hasGradient_meritValue`: the gradient of the merit is its derivative, at a kink, too.
* `merit_expands`: value and gradient together.
-/

namespace Nlp.AugmentedLagrangian

variable {n m : Nat}

/-! ## One row -/

/-- The square of the positive part lies on its tangents or above them, and at most a square
above. -/
theorem sq_max_zero_expands (a b : ℝ) :
    0 ≤ max b 0 ^ 2 - max a 0 ^ 2 - 2 * max a 0 * (b - a) ∧
      max b 0 ^ 2 - max a 0 ^ 2 - 2 * max a 0 * (b - a) ≤ (b - a) ^ 2 := by
  rcases le_total a 0 with ha | ha
  · rw [max_eq_right ha]
    rcases le_total b 0 with hb | hb
    · rw [max_eq_right hb]
      constructor <;> nlinarith
    · -- from the flat side up: `b - a` is at least `b`
      rw [max_eq_left hb]
      constructor <;> nlinarith
  · rw [max_eq_left ha]
    rcases le_total b 0 with hb | hb
    · rw [max_eq_right hb]
      constructor <;> nlinarith
    · have hsquare : b ^ 2 - a ^ 2 - 2 * a * (b - a) = (b - a) ^ 2 := by ring
      rw [max_eq_left hb, hsquare]
      exact ⟨sq_nonneg _, le_refl _⟩

/-- What is left of the change of a row's term, from the value `c` to `c'`, when the change of the
row times its factor at `c` is taken away. -/
noncomputable def rowRemainder (sense : Sense) (multiplier penalty c c' : ℝ) : ℝ :=
  term sense multiplier penalty c' - term sense multiplier penalty c -
    weight sense multiplier penalty c * (c' - c)

section

variable {sense : Sense} {l r c c' : ℝ}

theorem rowRemainder_equal : rowRemainder .equal l r c c' = r / 2 * (c' - c) ^ 2 := by
  show l * c' + 0.5 * r * c' * c' - (l * c + 0.5 * r * c * c) - (l + r * c) * (c' - c) = _
  ring

theorem rowRemainder_atMost (hr : 0 < r) :
    rowRemainder .atMost l r c c' =
      (max (l + r * c') 0 ^ 2 - max (l + r * c) 0 ^ 2 -
        2 * max (l + r * c) 0 * (l + r * c' - (l + r * c))) / (2 * r) := by
  show (max (l + r * c') 0 * max (l + r * c') 0 - l * l) / (2.0 * r) -
    (max (l + r * c) 0 * max (l + r * c) 0 - l * l) / (2.0 * r) -
    max (l + r * c) 0 * (c' - c) = _
  have htwo : (2.0 : ℝ) = 2 := by norm_num
  rw [htwo]
  field_simp
  ring

theorem rowRemainder_nonneg (hr : 0 < r) : 0 ≤ rowRemainder sense l r c c' := by
  cases sense with
  | equal =>
    rw [rowRemainder_equal]
    positivity
  | atMost =>
    rw [rowRemainder_atMost hr]
    exact div_nonneg (sq_max_zero_expands _ _).1 (by positivity)

theorem rowRemainder_le (hr : 0 < r) : rowRemainder sense l r c c' ≤ r / 2 * (c' - c) ^ 2 := by
  cases sense with
  | equal => exact rowRemainder_equal.le
  | atMost =>
    rw [rowRemainder_atMost hr, div_le_iff₀ (by positivity)]
    refine (sq_max_zero_expands _ _).2.trans_eq ?_
    ring

end

/-! ## All rows -/

theorem foldl_add {β : Type} (f : β → ℝ) (l : List β) (z : ℝ) :
    l.foldl (fun total b => total + f b) z = z + (l.map f).sum := by
  induction l generalizing z with
  | nil => simp
  | cons b l ih => rw [List.foldl_cons, ih, List.map_cons, List.sum_cons, add_assoc]

/-- The merit is the objective and a term for each row. -/
theorem meritValue_eq (p : Penalised ℝ m) (f : ℝ) (c : Vector ℝ m) :
    meritValue p ⟨f, c.toList⟩ =
      f + ∑ j, term (p.senses.get j) (p.multipliers.get j) p.penalty (c.get j) := by
  have hrows : c.toList.zip p.rows =
      List.ofFn fun j : Fin m => (c.get j, p.senses.get j, p.multipliers.get j) := by
    refine List.ext_getElem (by simp [Penalised.rows]) fun k hk hk' => ?_
    simp [Penalised.rows]
  rw [meritValue, hrows]
  refine (foldl_add (fun b : ℝ × Sense × ℝ => term b.2.1 b.2.2 p.penalty b.1) _ f).trans ?_
  rw [List.map_ofFn, List.sum_ofFn]
  rfl

/-- These are the factors by which the gradient of the merit takes the rows where they have the
values `c`: whatever the Jacobian is, it is the row of the objective, and every other row times its
factor. -/
def IsFactors (p : Penalised ℝ m) (c w : Vector ℝ m) : Prop :=
  ∀ (n : Nat) (jacobian : Vector (Vector ℝ n) (1 + m)) (i : Fin n),
    (meritGradient p c.toList jacobian).get i =
      (objectiveGradient jacobian).get i +
        ∑ j, w.get j * (constraintGradient jacobian j).get i

/-- The factors are the next multipliers, and no others. -/
theorem isFactors_iff {p : Penalised ℝ m} {c w : Vector ℝ m} :
    IsFactors p c w ↔ w = updateMultipliers p c := by
  constructor
  · intro h
    ext k hk
    -- a Jacobian of one column, which has a one in row `1 + k` and zeros else
    have hcolumn := h 1 (Vector.ofFn fun i => #v[if i.val = 1 + k then (1 : ℝ) else 0]) 0
    rw [meritGradient_getElem, lagrangianGradient, add_right_inj] at hcolumn
    simpa [constraintGradient, Exact.single_get, ← Fin.ext_iff (b := ⟨k, hk⟩)] using hcolumn.symm
  · rintro rfl n jacobian i
    exact meritGradient_getElem p c jacobian i

/-! ## The derivative -/

/-- The function is differentiable at this point, with these partial derivatives. -/
def HasGradient (f : (Fin n → ℝ) → ℝ) (g : Fin n → ℝ) (a : Fin n → ℝ) : Prop :=
  HasFDerivAt f (∑ i, g i • ContinuousLinearMap.proj (R := ℝ) (φ := fun _ : Fin n => ℝ) i) a

/-- A quadratic remainder makes a derivative: that of a row's term is its factor, on either side of
the kink and at the kink. -/
theorem hasDerivAt_term (sense : Sense) (l : ℝ) {r : ℝ} (hr : 0 < r) (c : ℝ) :
    HasDerivAt (term sense l r) (weight sense l r c) c := by
  have hquadratic : (fun c' => rowRemainder sense l r c c') =O[nhds c] fun c' => ‖c' - c‖ ^ 2 := by
    refine Asymptotics.IsBigO.of_bound (r / 2) (.of_forall fun c' => ?_)
    rw [Real.norm_of_nonneg (rowRemainder_nonneg hr), norm_pow, norm_norm, Real.norm_eq_abs, sq_abs]
    exact rowRemainder_le hr
  have hsmall := hquadratic.trans_isLittleO (Asymptotics.isLittleO_pow_sub_sub c Nat.one_lt_two)
  refine hasDerivAt_iff_isLittleO.mpr (hsmall.congr_left fun c' => ?_)
  rw [rowRemainder, smul_eq_mul, mul_comm]

/-- The gradient of the merit is the derivative of its value, as functions of the point, where the
Jacobian has the gradients of the objective and of the rows. -/
theorem hasGradient_meritValue {p : Penalised ℝ m} (hpenalty : 0 < p.penalty)
    {f : (Fin n → ℝ) → ℝ} {c : (Fin n → ℝ) → Vector ℝ m} {a : Fin n → ℝ}
    {jacobian : Vector (Vector ℝ n) (1 + m)}
    (hf : HasGradient f (objectiveGradient jacobian).get a)
    (hc : ∀ j, HasGradient (fun x => (c x).get j) (constraintGradient jacobian j).get a) :
    HasGradient (fun x => meritValue p ⟨f x, (c x).toList⟩)
      (meritGradient p (c a).toList jacobian).get a := by
  have hrow (j : Fin m) := (hasDerivAt_term (p.senses.get j) (p.multipliers.get j) hpenalty
    ((c a).get j)).comp_hasFDerivAt a (hc j)
  have hsum := hf.add (HasFDerivAt.fun_sum fun j (_ : j ∈ Finset.univ) => hrow j)
  simp only [HasGradient, meritValue_eq]
  refine hsum.congr_fderiv (ContinuousLinearMap.ext fun v => ?_)
  -- both sum the same products, the one row by row and the other entry by entry
  simp only [add_apply, FunLike.coe_sum, Finset.sum_apply, smul_apply,
    ContinuousLinearMap.proj_apply, smul_eq_mul,
    meritGradient_getElem, lagrangianGradient, updateMultipliers, entry_ofFn, add_mul,
    Finset.sum_add_distrib, Finset.sum_mul, Finset.mul_sum, mul_assoc]
  rw [Finset.sum_comm]

/-! ## Value and gradient -/

/-- What is left of the change of the merit, from a point with the objective `f` and the rows `c` to
one with `f'` and `c'`, when the change of the objective is taken away and that of every row times
its factor. -/
noncomputable def remainder (p : Penalised ℝ m) (w : Vector ℝ m) (f f' : ℝ) (c c' : Vector ℝ m) :
    ℝ :=
  meritValue p ⟨f', c'.toList⟩ - meritValue p ⟨f, c.toList⟩ - (f' - f) -
    ∑ j, w.get j * (c'.get j - c.get j)

theorem remainder_eq (p : Penalised ℝ m) (f f' : ℝ) (c c' : Vector ℝ m) :
    remainder p (updateMultipliers p c) f f' c c' =
      ∑ j, rowRemainder (p.senses.get j) (p.multipliers.get j) p.penalty (c.get j) (c'.get j) := by
  simp only [remainder, rowRemainder, meritValue_eq, updateMultipliers, entry_ofFn,
    Finset.sum_sub_distrib]
  ring

/-- Where the rows have the values `c`, the value of the merit goes with its gradient, which takes
the rows with the factors `w`. -/
structure Expands (p : Penalised ℝ m) (c w : Vector ℝ m) : Prop where
  /-- These are the factors in the gradient, and no others. -/
  factors : ∀ w', IsFactors p c w' ↔ w' = w
  /-- The remainder is not negative. -/
  nonneg : ∀ (f f' : ℝ) (c' : Vector ℝ m), 0 ≤ remainder p w f f' c c'
  /-- The remainder is at most quadratic in the change of the rows. -/
  le : ∀ (f f' : ℝ) (c' : Vector ℝ m),
    remainder p w f f' c c' ≤ p.penalty / 2 * ∑ j, (c'.get j - c.get j) ^ 2
  /-- The remainder is the sum of those of the rows. -/
  rows : ∀ (f f' : ℝ) (c' : Vector ℝ m), remainder p w f f' c c' =
    ∑ j, rowRemainder (p.senses.get j) (p.multipliers.get j) p.penalty (c.get j) (c'.get j)
  /-- That of a row is between zero and a multiple of the square of its change. -/
  row : ∀ (c' : Vector ℝ m) j,
    rowRemainder (p.senses.get j) (p.multipliers.get j) p.penalty (c.get j) (c'.get j) ∈
      Set.Icc 0 (p.penalty / 2 * (c'.get j - c.get j) ^ 2)
  /-- That of an equality is this multiple. -/
  equal : ∀ (c' : Vector ℝ m) j, p.senses.get j = .equal →
    rowRemainder (p.senses.get j) (p.multipliers.get j) p.penalty (c.get j) (c'.get j) =
      p.penalty / 2 * (c'.get j - c.get j) ^ 2
  /-- As a function of the point, the merit has the gradient that is computed for it. -/
  derivative : ∀ (n : Nat) (f : (Fin n → ℝ) → ℝ) (g : (Fin n → ℝ) → Vector ℝ m) (a : Fin n → ℝ)
    (jacobian : Vector (Vector ℝ n) (1 + m)), g a = c →
    HasGradient f (objectiveGradient jacobian).get a →
    (∀ j, HasGradient (fun x => (g x).get j) (constraintGradient jacobian j).get a) →
    HasGradient (fun x => meritValue p ⟨f x, (g x).toList⟩)
      (meritGradient p c.toList jacobian).get a

/-- Under any rows, senses and multipliers and a positive penalty, the value and the gradient of the
merit belong together. -/
theorem merit_expands {p : Penalised ℝ m} (hpenalty : 0 < p.penalty) (c : Vector ℝ m) :
    Expands p c (updateMultipliers p c) where
  factors _ := isFactors_iff
  nonneg f f' c' := by
    rw [remainder_eq]
    exact Finset.sum_nonneg fun j _ => rowRemainder_nonneg hpenalty
  le f f' c' := by
    rw [remainder_eq, Finset.mul_sum]
    exact Finset.sum_le_sum fun j _ => rowRemainder_le hpenalty
  rows f f' c' := remainder_eq p f f' c c'
  row c' j := ⟨rowRemainder_nonneg hpenalty, rowRemainder_le hpenalty⟩
  equal c' j hj := by rw [hj, rowRemainder_equal]
  derivative n f g a jacobian hg hf hc := by
    subst hg
    exact hasGradient_meritValue hpenalty hf hc

/-- An equality and an inequality, the latter with a multiplier of one. -/
noncomputable def kinkRows : Penalised ℝ 2 :=
  ⟨#v[.equal, .atMost], #v[0, 1], 1⟩

/-- Where the inequality has the value `-1`, it is at its kink, and its factor is zero. -/
theorem merit_expands_kink :
    0 < kinkRows.penalty ∧ updateMultipliers kinkRows #v[1, -1] = #v[1, 0] ∧
      Expands kinkRows #v[1, -1] #v[1, 0] := by
  have hpenalty : 0 < kinkRows.penalty := one_pos
  have hfactors : updateMultipliers kinkRows #v[1, -1] = #v[1, 0] := by
    have hequal : weight .equal 0 1 (1 : ℝ) = 1 := by norm_num [weight]
    have hatMost : weight .atMost 1 1 (-1 : ℝ) = 0 := by norm_num [weight]
    ext k hk
    rw [updateMultipliers, Vector.getElem_ofFn]
    obtain rfl | rfl : k = 0 ∨ k = 1 := by omega
    · exact hequal
    · exact hatMost
  exact ⟨hpenalty, hfactors, hfactors ▸ merit_expands hpenalty #v[1, -1]⟩

end Nlp.AugmentedLagrangian
