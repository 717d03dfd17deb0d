import Nlp.Proofs.Linear
import Nlp.Proofs.Solver.Iterates

/-!
# The inverse Hessian approximation

In exact arithmetic the inverse Hessian approximation of a minimisation is symmetric and positive
definite at the top of every iteration, whatever the merit answers.  It starts as the identity, and
a step changes it only where the curvature along the step is positive, by a congruence and a
square:

`H' = (I - s yᵀ / sᵀy) H (I - y sᵀ / sᵀy) + s sᵀ / sᵀy`.

So the quasi-Newton direction is one of descent, masked or not, and no division is by zero.  To say
the last independently of where the divisions stand, an iteration is run with any other value for
a division by zero: nothing changes.

## Main definitions

* `Exact.dividing`: the real numbers with other quotients by zero.
* `WellPosed`: what holds at the top of an iteration.

## Main results

* `toMatrix_updateInverse`: the update as a product of matrices; `toMatrix_updateInverse_eq_add`,
  as a sum.
* `posDef_learn`: learning from a step keeps the matrix positive definite.
* `dot_direction_neg`: the masked direction is one of descent.
* `iterateOnce_dividing`: an iteration divides by no zero.
* `reached_wellPosed`: all of it at the top of every iteration.
-/

open scoped Matrix

namespace Nlp

open Exact

namespace Minimize

variable {n : Nat}

/-! ## The update -/

/-- The update, which is written out entry by entry, as a sum of matrices of rank one. -/
theorem toMatrix_updateInverse_eq_add (h : Square ℝ n) (s y : Vector ℝ n) (sy : ℝ) :
    toMatrix (updateInverse h s y sy) =
      toMatrix h +
        (((sy + y.get ⬝ᵥ toMatrix h *ᵥ y.get) / (sy * sy)) • Matrix.vecMulVec s.get s.get -
          sy⁻¹ • (Matrix.vecMulVec (toMatrix h *ᵥ y.get) s.get +
            Matrix.vecMulVec s.get (toMatrix h *ᵥ y.get))) := by
  ext i j
  have hentry : toMatrix (updateInverse h s y sy) i j =
      toMatrix h i j + ((sy + y.get ⬝ᵥ toMatrix h *ᵥ y.get) / (sy * sy) * s.get i * s.get j -
        ((toMatrix h *ᵥ y.get) i * s.get j + s.get i * (toMatrix h *ᵥ y.get) j) / sy) := by
    simp [toMatrix_apply, updateInverse, dot_eq, mulVec_get]
  rw [hentry]
  simp only [Matrix.add_apply, Matrix.sub_apply, Matrix.smul_apply, Matrix.vecMulVec_apply,
    smul_eq_mul]
  ring

/-- The update keeps a symmetric matrix symmetric. -/
theorem isSymm_updateInverse {h : Square ℝ n} (hsymm : (toMatrix h).IsSymm) (s y : Vector ℝ n)
    (sy : ℝ) : (toMatrix (updateInverse h s y sy)).IsSymm := by
  rw [Matrix.IsSymm, toMatrix_updateInverse_eq_add]
  simp only [Matrix.transpose_add, Matrix.transpose_sub, Matrix.transpose_smul,
    Matrix.transpose_vecMulVec, hsymm.eq]
  rw [add_comm (Matrix.vecMulVec s.get _)]

/-- The update of a symmetric matrix as a product of matrices. -/
theorem toMatrix_updateInverse {h : Square ℝ n} (hsymm : (toMatrix h).IsSymm) (s y : Vector ℝ n)
    {sy : ℝ} (hsy : sy ≠ 0) :
    toMatrix (updateInverse h s y sy) =
      (1 - sy⁻¹ • Matrix.vecMulVec s.get y.get) * toMatrix h *
          (1 - sy⁻¹ • Matrix.vecMulVec y.get s.get) +
        sy⁻¹ • Matrix.vecMulVec s.get s.get := by
  have hleft : y.get ᵥ* toMatrix h = toMatrix h *ᵥ y.get := by
    rw [← Matrix.mulVec_transpose, hsymm]
  -- the product is multiplied out; that `h` is symmetric makes both mixed terms alike
  have hproduct : (1 - sy⁻¹ • Matrix.vecMulVec s.get y.get) * toMatrix h *
          (1 - sy⁻¹ • Matrix.vecMulVec y.get s.get) =
      toMatrix h - sy⁻¹ • Matrix.vecMulVec s.get (toMatrix h *ᵥ y.get) -
        sy⁻¹ • Matrix.vecMulVec (toMatrix h *ᵥ y.get) s.get +
        (sy⁻¹ * sy⁻¹ * (y.get ⬝ᵥ toMatrix h *ᵥ y.get)) • Matrix.vecMulVec s.get s.get := by
    simp only [sub_mul, mul_sub, one_mul, mul_one, Matrix.smul_mul, Matrix.mul_smul,
      Matrix.vecMulVec_mul, Matrix.mul_vecMulVec, hleft, Matrix.smul_mulVec,
      Matrix.vecMulVec_mulVec, op_smul_eq_smul, Matrix.smul_vecMulVec, smul_smul]
    rw [dotProduct_comm (toMatrix h *ᵥ y.get) y.get, ← mul_assoc]
    abel
  rw [hproduct, toMatrix_updateInverse_eq_add]
  ext i j
  simp only [Matrix.add_apply, Matrix.sub_apply, Matrix.smul_apply, Matrix.vecMulVec_apply,
    smul_eq_mul]
  field_simp
  ring

/-- The quadratic form of the updated matrix: that of the old one at a shifted vector, and a
square. -/
theorem dotProduct_updateInverse {h : Square ℝ n} (hsymm : (toMatrix h).IsSymm) (s y : Vector ℝ n)
    {sy : ℝ} (hsy : sy ≠ 0) (x : Fin n → ℝ) :
    x ⬝ᵥ toMatrix (updateInverse h s y sy) *ᵥ x =
      (x - (sy⁻¹ * (s.get ⬝ᵥ x)) • y.get) ⬝ᵥ toMatrix h *ᵥ (x - (sy⁻¹ * (s.get ⬝ᵥ x)) • y.get) +
        sy⁻¹ * (s.get ⬝ᵥ x) ^ 2 := by
  have hright : (1 - sy⁻¹ • Matrix.vecMulVec y.get s.get) *ᵥ x =
      x - (sy⁻¹ * (s.get ⬝ᵥ x)) • y.get := by
    rw [Matrix.sub_mulVec, Matrix.one_mulVec, Matrix.smul_mulVec, Matrix.vecMulVec_mulVec,
      op_smul_eq_smul, smul_smul]
  have hleft : x ᵥ* (1 - sy⁻¹ • Matrix.vecMulVec s.get y.get) =
      x - (sy⁻¹ * (s.get ⬝ᵥ x)) • y.get := by
    rw [Matrix.vecMul_sub, Matrix.vecMul_one, Matrix.vecMul_smul, Matrix.vecMul_vecMulVec,
      smul_smul, dotProduct_comm]
  rw [toMatrix_updateInverse hsymm s y hsy, Matrix.add_mulVec, dotProduct_add,
    Matrix.mul_assoc, ← Matrix.mulVec_mulVec, ← Matrix.mulVec_mulVec, hright,
    Matrix.dotProduct_mulVec, hleft, Matrix.smul_mulVec, Matrix.vecMulVec_mulVec, op_smul_eq_smul,
    dotProduct_smul, dotProduct_smul, dotProduct_comm x s.get]
  simp only [smul_eq_mul]
  ring

theorem posDef_updateInverse {h : Square ℝ n} (hh : (toMatrix h).PosDef) {s y : Vector ℝ n}
    (hsy : 0 < dot s y) : (toMatrix (updateInverse h s y (dot s y))).PosDef := by
  have hsymm : (toMatrix h).IsSymm := Matrix.isHermitian_iff_isSymm.mp hh.isHermitian
  refine Matrix.PosDef.of_dotProduct_mulVec_pos ?_ fun x hx => ?_
  · exact Matrix.isHermitian_iff_isSymm.mpr (isSymm_updateInverse hsymm s y _)
  rw [star_trivial, dotProduct_updateInverse hsymm s y hsy.ne']
  by_cases hs : s.get ⬝ᵥ x = 0
  · -- the vector is not shifted, and so the old form is positive there
    have hpos := hh.dotProduct_mulVec_pos hx
    rw [star_trivial] at hpos
    simpa [hs] using hpos
  · have hsemi := hh.posSemidef.dotProduct_mulVec_nonneg (x - ((dot s y)⁻¹ * (s.get ⬝ᵥ x)) • y.get)
    rw [star_trivial] at hsemi
    have hsquare : 0 < (dot s y)⁻¹ * (s.get ⬝ᵥ x) ^ 2 := by positivity
    exact add_pos_of_nonneg_of_pos hsemi hsquare

/-! ## Learning from a step -/

/-- The step `s` shows enough curvature to learn from. -/
def Curved (s y : Vector ℝ n) : Prop :=
  curvatureFloor * Scalar.sqrt (dot s s) * Scalar.sqrt (dot y y) < dot s y

theorem Curved.pos {s y : Vector ℝ n} (h : Curved s y) : 0 < dot s y := by
  have hfloor : (0 : ℝ) ≤ curvatureFloor := by norm_num [curvatureFloor]
  refine lt_of_le_of_lt ?_ h
  exact mul_nonneg (mul_nonneg hfloor (Real.sqrt_nonneg _)) (Real.sqrt_nonneg _)

/-- A change of the gradient that shows curvature is not zero. -/
theorem Curved.change_pos {s y : Vector ℝ n} (h : Curved s y) : 0 < dot y y := by
  have hy : y.get ≠ 0 := by
    intro hzero
    have hpos := h.pos
    rw [dot_eq, hzero, dotProduct_zero] at hpos
    exact lt_irrefl 0 hpos
  exact dot_self_pos_iff.mpr hy

theorem learn_of_curved {h : Square ℝ n} {fresh : Bool} {s y : Vector ℝ n} (hcurved : Curved s y) :
    learn h fresh s y =
      (updateInverse (if fresh then scaleAll identity (dot s y / dot y y) else h) s y (dot s y),
        false) :=
  if_pos hcurved

theorem learn_of_not_curved {h : Square ℝ n} {fresh : Bool} {s y : Vector ℝ n}
    (hcurved : ¬ Curved s y) : learn h fresh s y = (h, fresh) :=
  if_neg hcurved

theorem posDef_identity : (toMatrix (identity : Square ℝ n)).PosDef := by
  rw [toMatrix_identity]
  exact Matrix.PosDef.one

theorem posDef_learn {h : Square ℝ n} (hh : (toMatrix h).PosDef) (fresh : Bool)
    (s y : Vector ℝ n) : (toMatrix (learn h fresh s y).1).PosDef := by
  by_cases hcurved : Curved s y
  · have hbase :
        (toMatrix (if fresh then scaleAll identity (dot s y / dot y y) else h)).PosDef := by
      split
      · rw [toMatrix_scaleAll]
        exact posDef_identity.smul (div_pos hcurved.pos hcurved.change_pos)
      · exact hh
    rw [learn_of_curved hcurved]
    exact posDef_updateInverse hbase hcurved.pos
  · rwa [learn_of_not_curved hcurved]

/-! ## The direction -/

/-- Masked or not, a positive definite matrix turns a projected gradient into a direction of
descent. -/
theorem dot_direction_neg {h : Square ℝ n} (hh : (toMatrix h).PosDef) (frozen : Vector Bool n)
    {g : Vector ℝ n} (hg : mask frozen g ≠ 0) :
    dot (direction h frozen (mask frozen g)) (mask frozen g) < 0 := by
  have hform : dot (direction h frozen (mask frozen g)) (mask frozen g) =
      -((mask frozen g).get ⬝ᵥ toMatrix h *ᵥ (mask frozen g).get) := by
    rw [dot_eq, dotProduct_comm, ← dotProduct_neg, ← mulVec_get, ← get_neg]
    refine Finset.sum_congr rfl fun i _ => ?_
    -- a frozen entry of the direction meets a zero of the projected gradient
    by_cases hi : frozen.get i = true <;> simp [direction, mask, hi]
  have hpos := hh.dotProduct_mulVec_pos (x := (mask frozen g).get) ?_
  · rw [star_trivial] at hpos
    rw [hform]
    exact neg_neg_of_pos hpos
  · rwa [Ne, ← get_zero, get_inj]

variable {lower upper start : Vector ℝ n} {settings : Settings ℝ}

/-- The masked quasi-Newton direction at a state. -/
noncomputable def quasiNewton (lower upper : Vector ℝ n) (s : Iterate ℝ n) : Vector ℝ n :=
  direction s.inverse (active lower upper s.point s.gradient)
    (projected lower upper s.point s.gradient)

theorem dot_quasiNewton_neg {s : Iterate ℝ n} (hs : (toMatrix s.inverse).PosDef)
    (hg : projected lower upper s.point s.gradient ≠ 0) :
    dot (quasiNewton lower upper s) (projected lower upper s.point s.gradient) < 0 :=
  dot_direction_neg hs _ hg

/-- The quasi-Newton direction at a projected gradient that is not zero is taken as it is. -/
theorem heading_of_posDef {s : Iterate ℝ n} (hs : (toMatrix s.inverse).PosDef)
    (hg : projected lower upper s.point s.gradient ≠ 0) :
    heading lower upper s = (quasiNewton lower upper s, s) :=
  if_neg (not_le.mpr (dot_quasiNewton_neg hs hg))

theorem posDef_heading {s : Iterate ℝ n} (hs : (toMatrix s.inverse).PosDef) :
    (toMatrix (heading lower upper s).2.inverse).PosDef := by
  rcases heading_eq lower upper s with h | h <;> rw [h]
  · exact hs
  · exact posDef_identity

/-- Nothing is masked where nothing is frozen. -/
theorem mask_of_free {frozen : Vector Bool n} (hfree : ∀ i : Fin n, frozen.get i = false)
    (v : Vector ℝ n) : mask frozen v = v := by
  rw [← get_inj]
  funext i
  rw [mask, entry_ofFn, hfree i]
  exact if_neg Bool.false_ne_true

/-- A variable is not frozen unless the gradient holds it on one of its bounds. -/
theorem active_get_eq_false_iff {x g : Vector ℝ n} {i : Fin n} :
    (active lower upper x g).get i = false ↔
      ¬ (x.get i ≤ lower.get i ∧ 0 < g.get i) ∧ ¬ (upper.get i ≤ x.get i ∧ g.get i < 0) := by
  rw [active, entry_ofFn, Bool.or_eq_false_iff]
  exact and_congr decide_eq_false_iff_not decide_eq_false_iff_not

/-- Where no variable is frozen, the direction is that of the whole gradient. -/
theorem heading_of_free {s : Iterate ℝ n} (hs : (toMatrix s.inverse).PosDef)
    (hfree : ∀ i : Fin n, (active lower upper s.point s.gradient).get i = false)
    (hg : s.gradient ≠ 0) :
    heading lower upper s = (-(mulVec s.inverse s.gradient), s) := by
  have hprojected : projected lower upper s.point s.gradient = s.gradient := mask_of_free hfree _
  have hne : projected lower upper s.point s.gradient ≠ 0 := by rwa [hprojected]
  rw [heading_of_posDef hs hne, quasiNewton, direction, hprojected, mask_of_free hfree]

theorem isStalled_eq_false {x step : Vector ℝ n} (h : 1e-12 * (1 + infNorm x) < infNorm step)
    (value newValue : ℝ) : isStalled x value newValue step = false := by
  rw [isStalled, decide_eq_false (not_le.mpr h), Bool.and_false]

/-- An iteration from a state where no variable is frozen goes on from its first trial, if that is
low enough and not too near. -/
theorem goesOn_of_free {C : Contract (merit ℝ n)} {k : Nat} (s : Iterate ℝ n)
    (hs : (toMatrix s.inverse).PosDef)
    (hfree : ∀ i : Fin n, (active lower upper s.point s.gradient).get i = false)
    (hg : s.gradient ≠ 0) (hnorm : settings.tolerance < infNorm s.gradient)
    (hquiet : settings.verbose = false) {d x g : Vector ℝ n} {length value : ℝ}
    (hd : -(mulVec s.inverse s.gradient) = d)
    (hlength : firstLength settings.maxStepRatio s.point d = length)
    (hx : trialPoint lower upper s.point d length = x) (hvalue : C.replies (.value x) value)
    (hdescent : value ≤ s.value + armijo * dot s.gradient (x - s.point))
    (hgradient : C.replies (.gradient x) g)
    (hmoves : 1e-12 * (1 + infNorm s.point) < infNorm (x - s.point)) :
    (iterateOnce lower upper settings k s).Yields C
      (.goesOn (infNorm s.gradient) (s.advance ⟨x, x - s.point, value, length⟩ g)) := by
  have hprojected : projected lower upper s.point s.gradient = s.gradient := mask_of_free hfree _
  have hheading := heading_of_free hs hfree hg
  have htrial : firstTrial lower upper settings s value = ⟨x, x - s.point, value, length⟩ := by
    simp only [firstTrial, hheading, hd, hlength, hx]
  have hnorm' : ¬ infNorm (projected lower upper s.point s.gradient) ≤ settings.tolerance := by
    rwa [hprojected, not_le]
  have h := goesOn_of_firstTrial (C := C) (k := k) value g (any_not_isFinite _) hnorm' hquiet
  rw [hprojected, htrial, hheading] at h
  exact h hvalue rfl hdescent hgradient (isStalled_eq_false hmoves _ _)

/-! ## Iterations -/

/-- What an iteration leads to keeps the matrix positive definite. -/
theorem posDef_of_goesOn {C : Contract (merit ℝ n)} {k : Nat} {norm : ℝ} {s next : Iterate ℝ n}
    (hs : (toMatrix s.inverse).PosDef)
    (h : (iterateOnce lower upper settings k s).Yields C (.goesOn norm next)) :
    (toMatrix next.inverse).PosDef := by
  cases iterateOnce_yields h with
  | goesOn hnorm ht hg => exact posDef_learn (posDef_heading hs) _ _ _

theorem Reaches.posDef {C : Contract (merit ℝ n)} {k : Nat} {norm : Option ℝ} {s : Iterate ℝ n}
    (hs : Reaches C lower upper start settings k norm s) : (toMatrix s.inverse).PosDef := by
  induction hs with
  | start => exact posDef_identity
  | step _ hnext ih => exact posDef_of_goesOn ih hnext

end Minimize

/-! ## Division by zero -/

/-- The real numbers, with `z a` for the quotient of `a` by zero. -/
@[reducible] noncomputable def Exact.dividing (z : ℝ → ℝ) : Scalar ℝ :=
  { (inferInstance : Scalar ℝ) with div := fun a b => if b = 0 then z a else a / b }

namespace Minimize

variable {n : Nat} {lower upper start : Vector ℝ n} {settings : Settings ℝ} (z : ℝ → ℝ)

theorem dividing_div {a b : ℝ} (hb : b ≠ 0) :
    @HDiv.hDiv ℝ ℝ ℝ (@instHDiv ℝ (dividing z).toDiv) a b = a / b :=
  if_neg hb

theorem mask_dividing (x g : Vector ℝ n) :
    @mask ℝ (dividing z) n (@active ℝ (dividing z) n lower upper x g) g =
      projected lower upper x g := rfl

theorem sumByEights_dividing (p₀ p₁ p₂ p₃ p₄ p₅ p₆ p₇ : ℝ) (l : List ℝ) :
    @sumByEights ℝ (dividing z) p₀ p₁ p₂ p₃ p₄ p₅ p₆ p₇ l =
      sumByEights p₀ p₁ p₂ p₃ p₄ p₅ p₆ p₇ l := by
  fun_induction sumByEights p₀ p₁ p₂ p₃ p₄ p₅ p₆ p₇ l with
  | case1 p₀ p₁ p₂ p₃ p₄ p₅ p₆ p₇ x₀ x₁ x₂ x₃ x₄ x₅ x₆ x₇ rest ih => exact ih
  | case2 p₀ p₁ p₂ p₃ p₄ p₅ p₆ p₇ rest hrest =>
    exact @sumByEights.eq_2 ℝ (dividing z) p₀ p₁ p₂ p₃ p₄ p₅ p₆ p₇ rest hrest

theorem dot_dividing (a b : Vector ℝ n) : @dot ℝ (dividing z) n a b = dot a b :=
  sumByEights_dividing z _ _ _ _ _ _ _ _ _

theorem mulVec_dividing (h : Square ℝ n) (v : Vector ℝ n) :
    @mulVec ℝ (dividing z) n h v = mulVec h v :=
  congrArg (h.map ·) (funext fun row => dot_dividing z row v)

theorem steer_dividing (s : Iterate ℝ n) (frozen : Vector Bool n) (g : Vector ℝ n) :
    @steer ℝ (dividing z) n s frozen g = steer s frozen g := by
  have hdirection : @direction ℝ (dividing z) n s.inverse frozen g = direction s.inverse frozen g :=
    congrArg (fun v => mask frozen (-v)) (mulVec_dividing z s.inverse g)
  unfold steer
  simp only [hdirection, dot_dividing]
  rfl

theorem lineSearch_dividing (here : Iterate ℝ n) (d : Vector ℝ n) (trials : Nat) (length : ℝ) :
    @lineSearch ℝ (dividing z) n lower upper here d trials length =
      lineSearch lower upper here d trials length := by
  induction trials generalizing length with
  | zero => rfl
  | succ trials ih =>
    unfold lineSearch
    simp only [ih, dot_dividing]
    rfl

/-- The first step length divides by the length of the direction, where that is the longer one. -/
theorem firstLength_dividing {ratio : ℝ} {x d : Vector ℝ n}
    (hd : ratio * max (infNorm x) 1 < infNorm d → infNorm d ≠ 0) :
    @firstLength ℝ (dividing z) n ratio x d = firstLength ratio x d := by
  unfold firstLength
  dsimp only
  split
  · next h => exact (if_neg (hd h)).trans (if_pos h).symm
  · next h => exact (if_neg h).symm

theorem updateInverse_dividing (h : Square ℝ n) (s y : Vector ℝ n) {sy : ℝ} (hsy : sy ≠ 0) :
    @updateInverse ℝ (dividing z) n h s y sy = updateInverse h s y sy := by
  unfold updateInverse
  simp only [dot_dividing, mulVec_dividing]
  refine congrArg Vector.ofFn (funext fun i => congrArg Vector.ofFn (funext fun j => ?_))
  simp only [dividing_div z hsy, dividing_div z (mul_ne_zero hsy hsy)]

theorem learn_dividing (h : Square ℝ n) (fresh : Bool) (s y : Vector ℝ n) :
    @learn ℝ (dividing z) n h fresh s y = learn h fresh s y := by
  unfold learn
  simp only [dot_dividing]
  by_cases hcurved : Curved s y
  · refine (if_pos hcurved).trans (Eq.trans ?_ (learn_of_curved hcurved).symm)
    rw [updateInverse_dividing z _ s y hcurved.pos.ne', dividing_div z hcurved.change_pos.ne']
    rfl
  · exact (if_neg hcurved).trans (learn_of_not_curved hcurved).symm

theorem advance_dividing (s : Iterate ℝ n) (t : Trial ℝ n) (g : Vector ℝ n) :
    @Iterate.advance ℝ (dividing z) n s t g = s.advance t g := by
  unfold Iterate.advance
  rw [learn_dividing]

theorem iterateOnce_dividing {k : Nat} {s : Iterate ℝ n}
    (hlength : ¬ infNorm (projected lower upper s.point s.gradient) ≤ settings.tolerance →
      settings.maxStepRatio * max (infNorm s.point) 1 < infNorm (heading lower upper s).1 →
      infNorm (heading lower upper s).1 ≠ 0) :
    @iterateOnce ℝ (dividing z) n lower upper settings k s =
      iterateOnce lower upper settings k s := by
  unfold iterateOnce
  dsimp only
  simp only [mask_dividing, steer_dividing, lineSearch_dividing, advance_dividing]
  refine ite_congr rfl (fun _ => rfl) fun _ => ?_
  refine ite_congr rfl (fun _ => rfl) fun hnorm => ?_
  have hfirst := hlength hnorm
  rw [← heading_point lower upper s] at hfirst
  change (lineSearch lower upper _ _ _ (@firstLength ℝ (dividing z) n _
    (heading lower upper s).2.point (heading lower upper s).1)).bind _ = _
  rw [firstLength_dividing z hfirst]
  rfl

/-! ## The top of every iteration -/

/-- Where the test for a small projected gradient has a bound that is not negative, it ends an
iteration without any. -/
theorem projected_ne_zero {s : Iterate ℝ n} (htolerance : 0 ≤ settings.tolerance)
    (hnorm : ¬ infNorm (projected lower upper s.point s.gradient) ≤ settings.tolerance) :
    projected lower upper s.point s.gradient ≠ 0 := by
  intro hzero
  rw [infNorm_eq_zero_iff.mpr hzero] at hnorm
  exact hnorm htolerance

/-- A direction of descent is not zero. -/
theorem infNorm_heading_ne_zero {s : Iterate ℝ n} (hs : (toMatrix s.inverse).PosDef)
    (hg : projected lower upper s.point s.gradient ≠ 0) :
    infNorm (heading lower upper s).1 ≠ 0 := by
  have hdescent := dot_quasiNewton_neg hs hg
  rw [heading_of_posDef hs hg, Ne, infNorm_eq_zero_iff]
  intro hzero
  rw [show quasiNewton lower upper s = 0 from hzero, dot_eq, get_zero, zero_dotProduct] at hdescent
  exact lt_irrefl 0 hdescent

/-- What holds at the top of an iteration: the inverse Hessian approximation is symmetric and
positive definite, a projected gradient that is not zero gives a direction of descent, which is
taken as it is with nothing forgotten, and nothing is divided by zero.  Division is exempt only
where the projected gradient is zero and both bounds of the settings are negative, which those of a
valid configuration are not. -/
structure WellPosed (lower upper : Vector ℝ n) (settings : Settings ℝ) (k : Nat)
    (s : Iterate ℝ n) : Prop where
  symmetric : (toMatrix s.inverse).IsSymm
  posDef : (toMatrix s.inverse).PosDef
  descent : projected lower upper s.point s.gradient ≠ 0 →
    dot (quasiNewton lower upper s) (projected lower upper s.point s.gradient) < 0
  kept : projected lower upper s.point s.gradient ≠ 0 →
    heading lower upper s = (quasiNewton lower upper s, s)
  moving : 0 ≤ settings.tolerance →
    ¬ infNorm (projected lower upper s.point s.gradient) ≤ settings.tolerance →
    projected lower upper s.point s.gradient ≠ 0
  curvature : ∀ step y : Vector ℝ n, Curved step y → dot step y ≠ 0 ∧ dot y y ≠ 0
  length : projected lower upper s.point s.gradient ≠ 0 → infNorm (heading lower upper s).1 ≠ 0
  division : projected lower upper s.point s.gradient ≠ 0 ∨ 0 ≤ settings.tolerance ∨
      0 ≤ settings.maxStepRatio →
    ∀ z : ℝ → ℝ, @iterateOnce ℝ (dividing z) n lower upper settings k s =
      iterateOnce lower upper settings k s

/-- The top of every iteration, on whatever replies: the matrix is positive definite there, and
what follows from that. -/
theorem reached_wellPosed {C : Contract (merit ℝ n)} {k : Nat} {norm : Option ℝ} {s : Iterate ℝ n}
    (hs : Reaches C lower upper start settings k norm s) : WellPosed lower upper settings k s where
  symmetric := Matrix.isHermitian_iff_isSymm.mp hs.posDef.isHermitian
  posDef := hs.posDef
  descent := dot_quasiNewton_neg hs.posDef
  kept := heading_of_posDef hs.posDef
  moving := projected_ne_zero
  curvature _ _ hcurved := ⟨(Curved.pos hcurved).ne', (Curved.change_pos hcurved).ne'⟩
  length := infNorm_heading_ne_zero hs.posDef
  division hsettings z := by
    refine iterateOnce_dividing z fun hnorm hlong => ?_
    rcases hsettings with hg | htolerance | hratio
    · exact infNorm_heading_ne_zero hs.posDef hg
    · exact infNorm_heading_ne_zero hs.posDef (projected_ne_zero htolerance hnorm)
    · have hcap : 0 ≤ settings.maxStepRatio * max (infNorm s.point) 1 :=
        mul_nonneg hratio (zero_le_one.trans (le_max_right _ _))
      exact (hcap.trans_lt hlong).ne'

/-! ## One step on a segment -/

/-- A minimisation over `[0, 1]` from `x₀`, whose first trial is accepted: the step goes against the
gradient, which does not hold the variable on a bound. -/
theorem reaches_one_step {C : Contract (merit ℝ 1)} (hquiet : settings.verbose = false)
    {x₀ value₀ g₀ length x value : ℝ} {g : Vector ℝ 1} (hx₀ : x₀ ∈ Set.Icc 0 1)
    (hvalue₀ : C.replies (.value #v[x₀]) value₀) (hgradient₀ : C.replies (.gradient #v[x₀]) #v[g₀])
    (hlow : 0 < x₀ ∨ g₀ < 0) (hhigh : x₀ < 1 ∨ 0 < g₀) (hg₀ : g₀ ≠ 0)
    (htolerance : settings.tolerance < |g₀|)
    (hlength : firstLength settings.maxStepRatio #v[x₀] #v[-g₀] = length)
    (hx : x₀ + length * -g₀ = x) (hbox : x ∈ Set.Icc 0 1)
    (hfar : 1e-12 * (1 + |x₀|) < |x - x₀|) (hvalue : C.replies (.value #v[x]) value)
    (hdescent : value ≤ value₀ + armijo * (g₀ * (x - x₀)))
    (hgradient : C.replies (.gradient #v[x]) g) :
    ∃ next : Iterate ℝ 1, Reaches C #v[0] #v[1] #v[x₀] settings 1 (some |g₀|) next ∧
      next.point = #v[x] ∧ next.value = value ∧ next.gradient = g ∧
      next.trace = #[value₀, value] := by
  have hclamp : clampTo #v[(0 : ℝ)] #v[1] #v[x₀] = #v[x₀] := clampTo_eq_self (single_mem_Icc hx₀)
  have hstart : Reaches C #v[0] #v[1] #v[x₀] settings 0 none
      ⟨#v[x₀], value₀, #v[g₀], identity, true, #[value₀]⟩ := by
    have h : Reaches C #v[0] #v[1] #v[x₀] settings 0 none
        ⟨clampTo #v[0] #v[1] #v[x₀], value₀, #v[g₀], identity, true, #[value₀]⟩ :=
      .start (by rwa [hclamp]) rfl (by rwa [hclamp])
    rwa [hclamp] at h
  have hfree (i : Fin 1) : (active #v[0] #v[1] #v[x₀] #v[g₀]).get i = false := by
    rw [active_get_eq_false_iff, Fin.fin_one_eq_zero i]
    refine ⟨fun h => ?_, fun h => ?_⟩
    · exact hlow.elim (fun hpos => hpos.not_ge h.1) fun hneg => hneg.not_gt h.2
    · exact hhigh.elim (fun hlt => hlt.not_ge h.1) fun hpos => hpos.not_gt h.2
  have hne : #v[g₀] ≠ 0 := by
    rw [Ne, ← infNorm_eq_zero_iff, infNorm_single, abs_eq_zero]
    exact hg₀
  have hd : -(mulVec identity #v[g₀]) = #v[-g₀] := by rw [mulVec_identity, neg_single]
  -- the trial stays in the box, so it is not clamped
  have hpoint : trialPoint #v[0] #v[1] #v[x₀] #v[-g₀] length = #v[x] := by
    have hsum : #v[x₀] + scale #v[-g₀] length = #v[x] := by
      refine eq_single ?_
      simp only [get_add, get_scale, Pi.add_apply, Pi.smul_apply, single_get, smul_eq_mul, hx]
    rw [trialPoint, hsum]
    exact clampTo_eq_self (single_mem_Icc hbox)
  have hdescent' : value ≤ value₀ + armijo * dot #v[g₀] (#v[x] - #v[x₀]) := by
    rwa [sub_single, dot_single]
  have hmoves : 1e-12 * (1 + infNorm #v[x₀]) < infNorm (#v[x] - #v[x₀]) := by
    rwa [sub_single, infNorm_single, infNorm_single]
  have hstep := goesOn_of_free (k := 0) ⟨#v[x₀], value₀, #v[g₀], identity, true, #[value₀]⟩
    posDef_identity hfree hne (by rwa [infNorm_single]) hquiet hd hlength hpoint hvalue hdescent'
    hgradient hmoves
  rw [infNorm_single] at hstep
  exact ⟨_, hstart.step hstep, rfl, rfl, rfl, rfl⟩

/-- A minimisation over `[0, 1]` from `0`, of one iteration, whose first trial is accepted. -/
theorem minimize_one_step {C : Contract (merit ℝ 1)} (hmost : settings.maxIterations = 1)
    (hquiet : settings.verbose = false) {value₀ value g₀ length x : ℝ} {g : Vector ℝ 1}
    (hvalue₀ : C.replies (.value #v[0]) value₀) (hgradient₀ : C.replies (.gradient #v[0]) #v[g₀])
    (hg₀ : g₀ < 0) (htolerance : settings.tolerance < -g₀)
    (hlength : firstLength settings.maxStepRatio #v[0] #v[-g₀] = length) (hx : length * -g₀ = x)
    (hfar : 1e-12 < x) (hnear : x ≤ 1) (hvalue : C.replies (.value #v[x]) value)
    (hdescent : value ≤ value₀ + armijo * (g₀ * x)) (hgradient : C.replies (.gradient #v[x]) g) :
    (minimize #v[0] #v[1] #v[0] settings).Yields C
      ⟨#v[x], value, some (-g₀), 1, .iterationLimit, #[value₀, value]⟩ := by
  have hpos : 0 < x := by
    refine lt_trans ?_ hfar
    norm_num
  obtain ⟨next, hreaches, hpoint, hfound, -, htrace⟩ := reaches_one_step hquiet
    ⟨le_refl 0, zero_le_one⟩ hvalue₀ hgradient₀ (.inr hg₀) (.inl one_pos) hg₀.ne
    (by rwa [abs_of_neg hg₀]) hlength (by rwa [zero_add]) ⟨hpos.le, hnear⟩
    (by rwa [sub_zero, abs_zero, add_zero, mul_one, abs_of_pos hpos]) hvalue (by rwa [sub_zero])
    hgradient
  have hmost' : settings.maxIterations = 1 + 0 := hmost
  rw [← abs_of_neg hg₀, ← hpoint, ← htrace, ← hfound]
  exact minimize_yields_of_reaches hreaches hmost' rfl

/-- A minimisation over `[0, 1]` whose first trial is accepted, and leads to where the gradient is
zero. -/
theorem minimize_step_to_zero {C : Contract (merit ℝ 1)} {k : Nat}
    (hmost : settings.maxIterations = k + 2) (hquiet : settings.verbose = false)
    {x₀ value₀ g₀ length x value : ℝ} (hx₀ : x₀ ∈ Set.Icc 0 1)
    (hvalue₀ : C.replies (.value #v[x₀]) value₀) (hgradient₀ : C.replies (.gradient #v[x₀]) #v[g₀])
    (hlow : 0 < x₀ ∨ g₀ < 0) (hhigh : x₀ < 1 ∨ 0 < g₀) (hpositive : 0 ≤ settings.tolerance)
    (htolerance : settings.tolerance < |g₀|)
    (hlength : firstLength settings.maxStepRatio #v[x₀] #v[-g₀] = length)
    (hx : x₀ + length * -g₀ = x) (hbox : x ∈ Set.Icc 0 1)
    (hfar : 1e-12 * (1 + |x₀|) < |x - x₀|) (hvalue : C.replies (.value #v[x]) value)
    (hdescent : value ≤ value₀ + armijo * (g₀ * (x - x₀)))
    (hgradient : C.replies (.gradient #v[x]) (#v[0] : Vector ℝ 1)) :
    (minimize #v[0] #v[1] #v[x₀] settings).Yields C
      ⟨#v[x], value, some 0, 1, .converged, #[value₀, value]⟩ := by
  have hg₀ : g₀ ≠ 0 := abs_pos.mp (hpositive.trans_lt htolerance)
  obtain ⟨next, hreaches, hpoint, hfound, hzero, htrace⟩ := reaches_one_step hquiet hx₀ hvalue₀
    hgradient₀ hlow hhigh hg₀ htolerance hlength hx hbox hfar hvalue hdescent hgradient
  have hmost' : settings.maxIterations = 1 + (k + 1) := by omega
  have hprojected : projected #v[0] #v[1] next.point next.gradient = #v[0] := by
    refine eq_single ?_
    rw [projected_getElem, hzero]
    split <;> rfl
  have hsize : infNorm (projected #v[0] #v[1] next.point next.gradient) = 0 := by
    rw [hprojected, infNorm_single, abs_zero]
  rw [← hpoint, ← htrace, ← hfound]
  refine minimize_yields_of_reaches hreaches hmost' ?_
  rw [iterate_of_converged (any_not_isFinite _) hsize hpositive]
  rfl

/-! ## A valley

The merit `4/5 y² - x - y - κ (x - y)²` with `κ = 3.7499` is minimised over `x ≤ 21/20` from the
origin.  The first step leads to `(1, 1)` and couples the two variables.
-/

section

/-- The merit of the valley. -/
noncomputable def valleyValue (v : Vector ℝ 2) : ℝ :=
  4 / 5 * v.get 1 ^ 2 - v.get 0 - v.get 1 - 37499 / 10000 * (v.get 0 - v.get 1) ^ 2

/-- Its gradient. -/
noncomputable def valleyGradient (v : Vector ℝ 2) : Vector ℝ 2 :=
  #v[-1 - 37499 / 5000 * (v.get 0 - v.get 1),
    8 / 5 * v.get 1 - 1 + 37499 / 5000 * (v.get 0 - v.get 1)]

/-- The merit of the valley, and its gradient, are given. -/
def valley : Contract (merit ℝ 2) where
  asks _ := True
  replies
    | .value v, r => r = valleyValue v
    | .gradient v, g => g = valleyGradient v
    | .report _, _ => True

/-- The state at the origin. -/
noncomputable def valleyStart : Iterate ℝ 2 :=
  ⟨#v[0, 0], 0, #v[-1, -1], identity, true, #[0]⟩

/-- The state after one step. -/
noncomputable def valleyNext : Iterate ℝ 2 :=
  ⟨#v[1, 1], -6 / 5, #v[-1, 3 / 5], #v[#v[15 / 8, 5 / 8], #v[5 / 8, 5 / 8]], false, #[0, -6 / 5]⟩

theorem valleyValue_start : valleyValue #v[0, 0] = 0 := by
  simp only [valleyValue, pair_get_zero, pair_get_one]
  norm_num

theorem valleyGradient_start : valleyGradient #v[0, 0] = #v[-1, -1] := by
  refine eq_pair ?_ ?_ <;> simp only [valleyGradient, pair_get_zero, pair_get_one] <;> norm_num

theorem valleyValue_next : valleyValue #v[1, 1] = -6 / 5 := by
  simp only [valleyValue, pair_get_zero, pair_get_one]
  norm_num

theorem valleyGradient_next : valleyGradient #v[1, 1] = #v[-1, 3 / 5] := by
  refine eq_pair ?_ ?_ <;> simp only [valleyGradient, pair_get_zero, pair_get_one] <;> norm_num

theorem valley_clampTo : clampTo #v[(0 : ℝ), 0] #v[21 / 20, 2] #v[0, 0] = #v[0, 0] := by
  refine clampTo_eq_self fun i => ?_
  revert i
  rw [Fin.forall_fin_two]
  simp only [pair_get_zero, pair_get_one]
  norm_num

theorem valley_learn :
    learn (identity : Square ℝ 2) true #v[1, 1] #v[0, 8 / 5] =
      (#v[#v[15 / 8, 5 / 8], #v[5 / 8, 5 / 8]], false) := by
  have hproduct : dot #v[(1 : ℝ), 1] #v[0, 8 / 5] = 8 / 5 := by rw [dot_pair]; norm_num
  have hstep : dot #v[(1 : ℝ), 1] #v[1, 1] = 2 := by rw [dot_pair]; norm_num
  have hchange : dot #v[(0 : ℝ), 8 / 5] #v[0, 8 / 5] = (8 / 5) ^ 2 := by rw [dot_pair]; norm_num
  have hcurved : Curved #v[(1 : ℝ), 1] #v[0, 8 / 5] := by
    have hroot : √2 ≤ 2 := by rw [Real.sqrt_le_left] <;> norm_num
    have hfloor : (curvatureFloor : ℝ) = 1 / 10000000000 := by norm_num [curvatureFloor]
    rw [Curved, hproduct, hstep, hchange, hfloor]
    show 1 / 10000000000 * √2 * √((8 / 5) ^ 2) < 8 / 5
    rw [Real.sqrt_sq (by norm_num)]
    linarith
  have hbase : scaleAll (identity : Square ℝ 2) (8 / 5 / (8 / 5) ^ 2) =
      #v[#v[5 / 8, 0], #v[0, 5 / 8]] := by
    refine eq_pair (eq_pair ?_ ?_) (eq_pair ?_ ?_) <;>
      rw [← toMatrix_apply, toMatrix_scaleAll, toMatrix_identity] <;> norm_num
  rw [learn_of_curved hcurved, if_pos rfl, hproduct, hchange, hbase]
  refine congrArg (·, false) (eq_pair (eq_pair ?_ ?_) (eq_pair ?_ ?_)) <;>
    simp only [updateInverse, entry_ofFn, mulVec_pair, dot_pair, pair_get_zero, pair_get_one] <;>
    norm_num

variable {settings : Settings ℝ} (hquiet : settings.verbose = false)
  (htolerance : settings.tolerance < 1) (hratio : settings.maxStepRatio = 2)

include hquiet htolerance hratio

/-- An iteration in the valley, from a state where no variable is frozen and the length of the
gradient is `1`, takes the whole step as far as the box lets it. -/
theorem valley_goesOn {k : Nat} {s : Iterate ℝ 2} {a b g h d e x y value : ℝ}
    (hposDef : (toMatrix s.inverse).PosDef) (hpoint : s.point = #v[a, b])
    (hgradient : s.gradient = #v[g, h]) (hnorm : max |g| |h| = 1)
    (hfirst : ¬ (a ≤ 0 ∧ 0 < g) ∧ ¬ (21 / 20 ≤ a ∧ g < 0))
    (hsecond : ¬ (b ≤ 0 ∧ 0 < h) ∧ ¬ (2 ≤ b ∧ h < 0))
    (hd : -(mulVec s.inverse #v[g, h]) = #v[d, e])
    (hshort : max |d| |e| ≤ 2 * max (max |a| |b|) 1)
    (hx : Scalar.clamp 0 (21 / 20) (a + d) = x) (hy : Scalar.clamp 0 2 (b + e) = y)
    (hvalue : valleyValue #v[x, y] = value)
    (hdescent : value ≤ s.value + armijo * (g * (x - a) + h * (y - b)))
    (hmoves : 1e-12 * (1 + max |a| |b|) < max |x - a| |y - b|) :
    (iterateOnce #v[0, 0] #v[21 / 20, 2] settings k s).Yields valley
      (.goesOn 1 (s.advance ⟨#v[x, y], #v[x - a, y - b], value, 1⟩ (valleyGradient #v[x, y]))) := by
  have hsize : infNorm s.gradient = 1 := by rw [hgradient, infNorm_pair, hnorm]
  have hfree (i : Fin 2) :
      (active #v[0, 0] #v[21 / 20, 2] s.point s.gradient).get i = false := by
    rw [hpoint, hgradient]
    revert i
    rw [Fin.forall_fin_two, active_get_eq_false_iff, active_get_eq_false_iff]
    exact ⟨hfirst, hsecond⟩
  have hne : s.gradient ≠ 0 := by
    rw [Ne, ← infNorm_eq_zero_iff, hsize]
    exact one_ne_zero
  have hlength : firstLength settings.maxStepRatio s.point #v[d, e] = 1 := by
    rw [firstLength, hratio, hpoint, infNorm_pair, infNorm_pair]
    exact if_neg hshort.not_gt
  have htrial : trialPoint #v[0, 0] #v[21 / 20, 2] s.point #v[d, e] 1 = #v[x, y] := by
    refine eq_pair ?_ ?_ <;>
      simp only [trialPoint, clampTo, entry_ofFn, get_add, get_scale, Pi.add_apply, hpoint,
        pair_get_zero, pair_get_one, one_smul, hx, hy]
  have hstep : #v[x, y] - s.point = #v[x - a, y - b] := by rw [hpoint, sub_pair]
  have hdescent' : value ≤ s.value + armijo * dot s.gradient (#v[x, y] - s.point) := by
    rwa [hstep, hgradient, dot_pair]
  have hmoves' : 1e-12 * (1 + infNorm s.point) < infNorm (#v[x, y] - s.point) := by
    rwa [hstep, hpoint, infNorm_pair, infNorm_pair]
  have hgoesOn := goesOn_of_free (C := valley) (k := k) s hposDef hfree hne (by rwa [hsize]) hquiet
    (by rwa [hgradient]) hlength htrial hvalue.symm hdescent' rfl hmoves'
  rwa [hsize, hstep] at hgoesOn

theorem valley_goesOn_start :
    (iterateOnce #v[0, 0] #v[21 / 20, 2] settings 0 valleyStart).Yields valley
      (.goesOn 1 (valleyStart.advance ⟨#v[1, 1], #v[1, 1], -6 / 5, 1⟩ #v[-1, 3 / 5])) := by
  have hd : -(mulVec (identity : Square ℝ 2) #v[-1, -1]) = #v[1, 1] := by
    rw [mulVec_identity]
    refine eq_pair ?_ ?_ <;> simp only [get_neg, Pi.neg_apply, pair_get_zero, pair_get_one, neg_neg]
  have hdescent : (-6 / 5 : ℝ) ≤ valleyStart.value + armijo * (-1 * (1 - 0) + -1 * (1 - 0)) := by
    rw [valleyStart]
    norm_num [armijo]
  have hgoesOn := valley_goesOn hquiet htolerance hratio (k := 0) (s := valleyStart)
    posDef_identity rfl rfl (by norm_num) (by norm_num) (by norm_num) hd (by norm_num)
    (by norm_num [Scalar.clamp]) (by norm_num [Scalar.clamp]) valleyValue_next hdescent
    (by norm_num)
  rwa [sub_zero, valleyGradient_next] at hgoesOn

/-- The first iteration in the valley leads to `(1, 1)`. -/
theorem valley_reaches :
    Reaches valley #v[0, 0] #v[21 / 20, 2] #v[0, 0] settings 1 (some 1) valleyNext := by
  have hstart : Reaches valley #v[0, 0] #v[21 / 20, 2] #v[0, 0] settings 0 none valleyStart := by
    have h : Reaches valley #v[0, 0] #v[21 / 20, 2] #v[0, 0] settings 0 none _ := .start rfl rfl rfl
    rwa [valley_clampTo, valleyValue_start, valleyGradient_start] at h
  have hnext : valleyStart.advance ⟨#v[1, 1], #v[1, 1], -6 / 5, 1⟩ #v[-1, 3 / 5] = valleyNext := by
    rw [Iterate.advance, valleyStart]
    dsimp only
    rw [sub_pair, sub_self, show (3 / 5 - -1 : ℝ) = 8 / 5 by norm_num, valley_learn]
    rfl
  exact hstart.step (hnext ▸ valley_goesOn_start hquiet htolerance hratio)

omit hquiet htolerance hratio in
/-- The second iteration in the valley begins with a positive definite matrix that couples the
variables. -/
theorem valley_wellPosed :
    Reaches valley #v[0, 0] #v[21 / 20, 2] #v[0, 0] ⟨2, 1 / 1000000, 2, false⟩ 1 (some 1)
        valleyNext ∧
      WellPosed #v[0, 0] #v[21 / 20, 2] ⟨2, 1 / 1000000, 2, false⟩ 1 valleyNext :=
  have hreaches : Reaches valley #v[0, 0] #v[21 / 20, 2] #v[0, 0] ⟨2, 1 / 1000000, 2, false⟩ 1
      (some 1) valleyNext :=
    valley_reaches rfl (by norm_num) rfl
  ⟨hreaches, reached_wellPosed hreaches⟩

end

end Minimize

end Nlp
