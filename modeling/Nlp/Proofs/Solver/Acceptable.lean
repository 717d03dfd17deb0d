import Nlp.Proofs.Solver.Certificate

/-!
# What an acceptable end of the augmented Lagrangian solver means

A run whose outer iterations are used up is acceptable if the last one found a measure and a norm
within the looser tolerance.  In exact arithmetic the measure bounds the rows at the final point.
The norm is the one its minimisation ended with, which was measured at the final point only if that
minimisation stopped before a step.  One that stops after a step ends with the norm at the iterate
before, and the final point may be anywhere the Armijo condition lets it go.

## Main definitions

* `Stationary`: where the projected gradient is small.
* `Acceptance`: a termination with what an acceptable end says of it.

## Main results

* `Minimised.stationary`: the norm a minimisation ends with is small at its end, or a step before.
* `acceptable_explained`: whole runs.
-/

namespace Nlp.AugmentedLagrangian

variable {ε : Type} {n m : Nat} {P : PureCallbacks ℝ ε} {config : Config ℝ}
  {senses : Vector Sense m} {lower upper : Vector ℝ n} {s : Outer ℝ n m}
  {jacobian : Vector (Vector ℝ n) (1 + m)} {inner : Minimize.Outcome ℝ n} {values : Values ℝ}

/-- Where the projected gradient is small in the last outer iteration, from `s`: at the point
itself, as that of the Lagrangian function at the multipliers, or at the iterate from which the last
step led to the point. -/
inductive Stationary (P : PureCallbacks ℝ ε) (config : Config ℝ) (senses : Vector Sense m)
    (lower upper : Vector ℝ n) (s : Outer ℝ n m) (atBegun : Vector (Vector ℝ n) (1 + m))
    (inner : Minimize.Outcome ℝ n) (multipliers : Vector ℝ m) (bound : ℝ) : Prop
  | here {jacobian : Vector (Vector ℝ n) (1 + m)}
      (hstop : inner.stop = .converged ∨ inner.stop = .lineSearchFailed)
      (hjacobian : JacobianAt P inner.point jacobian)
      (hsmall : infNorm (Minimize.projected lower upper inner.point
        (Vector.ofFn (lagrangianGradient jacobian multipliers))) ≤ bound)
  | before {y : Minimize.Iterate ℝ n} {t : Minimize.Trial ℝ n}
      (hstop : inner.stop = .smallStep ∨ inner.stop = .iterationLimit)
      (hstep : Minimize.Takes (merits P (s.rows senses)) lower upper
        (innerSettings config atBegun) y t)
      (hpoint : inner.point = t.point)
      (hgradient : IsMeritGradient P (s.rows senses) y.point y.gradient)
      (hsmall : infNorm (Minimize.projected lower upper y.point y.gradient) ≤ bound)

/-- The measured norm is small at the point itself or one step before it. -/
theorem Minimised.stationary (h : Minimised P config senses lower upper s jacobian inner values)
    {constraints : Vector ℝ m} (hconstraints : values.constraints = constraints.toList)
    {norm bound : ℝ} (hnorm : inner.gradientNorm = some norm) (hsmall : norm ≤ bound) :
    Stationary P config senses lower upper s jacobian inner
      (updateMultipliers (s.rows senses) constraints) bound := by
  obtain ⟨hyields, hvalues⟩ := h.yields
  obtain ⟨k, last, y, hy, rfl, hmeasured⟩ := measured_of_yields hyields hnorm
  have hgradient : IsMeritGradient P (s.rows senses) y.point y.gradient := hy.standing.gradient
  cases hmeasured with
  | here hpoint hstop =>
    obtain ⟨found, atEnd, hfound, -, hjacobian, hg⟩ := hgradient
    rw [← hpoint] at hfound hjacobian hsmall
    obtain rfl : found = values := Except.ok.inj (hfound.symm.trans hvalues)
    refine .here hstop hjacobian ?_
    have hlagrangian : y.gradient = Vector.ofFn
        (lagrangianGradient atEnd (updateMultipliers (s.rows senses) constraints)) := by
      ext i hi
      rw [Vector.getElem_ofFn, hg, hconstraints]
      exact meritGradient_getElem _ _ _ ⟨i, hi⟩
    rwa [hlagrangian] at hsmall
  | before ht hpoint hstop => exact .before hstop ht hpoint hgradient hsmall

/-- A termination together with what an acceptable end says of it, after a last outer iteration from
`s`: feasibility and complementarity at its point, within the acceptable tolerance, and a small
projected gradient somewhere.  The tolerance on the latter is relative to the objective gradient
where that iteration began. -/
structure Acceptance (P : PureCallbacks ℝ ε) (config : Config ℝ) (senses : Vector Sense m)
    (lower upper : Vector ℝ n) (s : Outer ℝ n m) (t : Termination ℝ) where
  /-- The multipliers. -/
  multipliers : Vector ℝ m
  /-- The constraint rows at the final point. -/
  constraints : Vector ℝ m
  /-- The Jacobian where the last outer iteration began. -/
  atBegun : Vector (Vector ℝ n) (1 + m)
  /-- What the minimisation of the last outer iteration ended with, at the final point. -/
  inner : Minimize.Outcome ℝ n
  point_eq : t.point = inner.point.toList
  multipliers_eq : t.multipliers = multipliers.toList
  constraints_eq : t.constraints = constraints.toList
  isJacobianAtBegun : JacobianAt P s.point atBegun
  minimised : Minimised P config senses lower upper s atBegun inner ⟨t.objective, t.constraints⟩
  evaluated : P.evaluate inner.point.toList = .ok ⟨t.objective, t.constraints⟩
  inBox : ∀ i : Fin n, lower.get i ≤ inner.point.get i ∧ inner.point.get i ≤ upper.get i
  nonneg : ∀ j : Fin m, senses.get j = .atMost → 0 ≤ multipliers.get j
  equal : ∀ j : Fin m, senses.get j = .equal → |constraints.get j| ≤ config.acceptableTolerance
  atMost : ∀ j : Fin m, senses.get j = .atMost → constraints.get j ≤ config.acceptableTolerance
  slack : ∀ j : Fin m, senses.get j = .atMost → constraints.get j < -config.acceptableTolerance →
    multipliers.get j = 0
  stationary : Stationary P config senses lower upper s atBegun inner multipliers
    (config.acceptableTolerance * max (infNorm (objectiveGradient atBegun)) 1)

/-- The test for an acceptable end. -/
theorem acceptable_of_exhaustedCode {penalty : ℝ} {found : Found ℝ}
    (h : exhaustedCode config penalty found = .acceptable) :
    found.measure ≤ config.acceptableTolerance ∧
      ∃ norm, found.gradientNorm = some norm ∧ norm ≤ config.acceptableTolerance := by
  unfold exhaustedCode at h
  split at h
  · next hfound =>
    obtain ⟨norm, hnorm, hle⟩ := (Option.any_eq_true _ _).mp hfound.2
    exact ⟨hfound.1, norm, hnorm, of_decide_eq_true hle⟩
  · split at h <;> cases h

/-- An acceptable end after an outer iteration that went on. -/
theorem Minimised.acceptance (h : Minimised P config senses lower upper s jacobian inner values)
    (hbox : ∀ i : Fin n, lower.get i ≤ upper.get i) (hpenalty : 0 < s.penalty)
    {constraints : Vector ℝ m} (hrows : vectorOf? m (values.constraints.take m) = some constraints)
    {norm : ℝ} (hmeasure : measure (s.rows senses) constraints ≤ config.acceptableTolerance)
    (hnorm : inner.gradientNorm = some norm)
    (hsmall : norm / gradientScale jacobian ≤ config.acceptableTolerance) (iterations : Nat)
    (history : Array ℝ) :
    Nonempty (Acceptance P config senses lower upper s (record .acceptable inner.point values
      (updateMultipliers (s.rows senses) constraints) iterations history)) := by
  obtain ⟨hyields, hvalues⟩ := h.yields
  obtain ⟨hinner, found, hfound, hlength, -⟩ := end_of_yields hyields
  -- a model that is a function has one value at the point
  obtain rfl : found = values := Except.ok.inj (hfound.symm.trans hvalues)
  have hconstraints : found.constraints = constraints.toList :=
    (vectorOf?_eq_some.mp hrows).symm ▸ (List.take_of_length_le hlength).symm
  have hscale : 0 < gradientScale jacobian := one_pos.trans_le (le_max_right _ _)
  refine ⟨{
    multipliers := updateMultipliers (s.rows senses) constraints
    constraints
    atBegun := jacobian
    inner
    point_eq := rfl
    multipliers_eq := rfl
    constraints_eq := hconstraints
    isJacobianAtBegun := h.begun
    minimised := h
    evaluated := hvalues
    inBox := mem_box hbox hinner
    nonneg := fun _ hj => updateMultipliers_nonneg hj
    equal := fun _ hj => abs_le_of_measure_le hmeasure hj
    atMost := fun _ hj => le_of_measure_le hmeasure hj
    slack := fun _ hj hslack => updateMultipliers_eq_zero hpenalty hmeasure hj hslack
    stationary := h.stationary hconstraints hnorm ((div_le_iff₀ hscale).mp hsmall) }⟩

/-- What an acceptable end means.  The shapes of what the callbacks return need no assumption. -/
theorem acceptable_explained (hvalid : config.validate = .ok ()) {problem : Layout ℝ}
    {t : Termination ℝ} (hrun : P.run (solve config problem) = some (.ok t))
    (hcode : t.code = ReturnCode.acceptable.toInt) :
    ∃ (start : Start ℝ problem.dimension) (outer : Nat)
      (s : Outer ℝ problem.dimension problem.rows.length),
      problem.checkedStart = .ok start ∧ t.iterations = outer + 1 ∧ outer + 1 = config.maxOuter ∧
      Reaches P config ⟨problem.rows.toArray, rfl⟩ start.lower start.upper
        (.first config start.point) outer s ∧
      Nonempty (Acceptance P config ⟨problem.rows.toArray, rfl⟩ start.lower start.upper s t) := by
  have hconfig := Config.valid_of_validate hvalid
  have hceiling : 0 < config.penaltyMax := hconfig.penaltyInit.1.trans_le hconfig.ceiling
  obtain ⟨start, hstart, hiterations⟩ := solve_eq_ok hrun
  obtain ⟨-, -, hbox, -⟩ := Layout.checkedStart_eq_ok hstart
  obtain ⟨k, last, hlast, hend | ⟨hk, hend⟩⟩ := outerIterations_ended .start hiterations
  · -- no outer iteration ends a run as acceptable
    cases outerIteration_turn hend with
    | nonFinite => exact nomatch ReturnCode.toInt_inj (c := .diverging) hcode
    | numbers h hnumber hrows hconclusion =>
      cases hconclusion with
      | succeeded => exact nomatch ReturnCode.toInt_inj (c := .succeeded) hcode
      | unbounded => exact nomatch ReturnCode.toInt_inj (c := .diverging) hcode
      | infeasible => exact nomatch ReturnCode.toInt_inj (c := .infeasible) hcode
  -- the iterations are used up, so it is the last one that has been found acceptable
  cases hlast with
  | start =>
    rw [(exhausted_first_eq_ok rfl hend).1] at hcode
    exact nomatch ReturnCode.toInt_inj hcode
  | @step outer s _ hs hnext =>
    have hpenalty := hs.penalty_pos hceiling hconfig.growth hbox hconfig.penaltyInit.1
    cases outerIteration_turn hnext with
    | numbers h hnumber hrows hconclusion =>
      cases hconclusion with
      | goesOn =>
        obtain rfl := exhausted_eq_ok rfl hend
        have hexhausted := ReturnCode.toInt_inj hcode
        obtain ⟨hmeasure, norm', hnorm', hsmall⟩ := acceptable_of_exhaustedCode hexhausted
        obtain ⟨norm, hnorm, rfl⟩ := Option.map_eq_some_iff.mp hnorm'
        rw [hexhausted]
        exact ⟨start, outer, s, hstart, rfl, hk.trans (Nat.zero_add _), hs,
          h.acceptance hbox hpenalty hrows hmeasure hnorm hsmall _ _⟩

/-! ## A hill

The objective `-x / 10000 - 1000 x²` on `[0, 1]` has a small slope at the start `0`, and a large one
after the first step.
-/

section

/-- The objective of the hill. -/
noncomputable def hillCallbacks : PureCallbacks ℝ Empty where
  evaluate x := .ok ⟨-1e-4 * x.headD 0 - 1e3 * x.headD 0 ^ 2, []⟩
  jacobian x := .ok ⟨1, 1, .replicate 1 (.replicate 1 (-1e-4 - 2e3 * x.headD 0))⟩

/-- The layout of the problem. -/
noncomputable def hill : Layout ℝ :=
  ⟨1, [0], [1], [0], []⟩

/-- One outer iteration of one inner iteration. -/
noncomputable def briefConfig : Config ℝ :=
  { Config.default with maxOuter := 1, maxInner := 1 }

/-- The state at the start. -/
noncomputable def hillFirst : Outer ℝ 1 0 :=
  .first briefConfig (.replicate 1 0)

theorem hill_evaluate {a v : ℝ} (hv : v = -(1 / 10000) * a - 1000 * a ^ 2) :
    hillCallbacks.evaluate [a] = .ok ⟨v, []⟩ := by
  show Except.ok (Values.mk (-1e-4 * a - 1e3 * a ^ 2) []) = _
  rw [hv, show (-1e-4 : ℝ) = -(1 / 10000) by norm_num, show (1e3 : ℝ) = 1000 by norm_num]

theorem hill_jacobianAt {a g : ℝ} (hg : g = -(1 / 10000) - 2000 * a) :
    JacobianAt (m := 0) hillCallbacks #v[a] #v[#v[g]] := by
  have hentry : (-1e-4 - 2e3 * a : ℝ) = g := by
    rw [hg, show (-1e-4 : ℝ) = -(1 / 10000) by norm_num, show (2e3 : ℝ) = 2000 by norm_num]
  subst hentry
  exact ⟨_, rfl, Matrix.shaped?_mk _⟩

theorem hill_value (p : Penalised ℝ 0) {a v : ℝ} (hv : v = -(1 / 10000) * a - 1000 * a ^ 2) :
    (merits hillCallbacks p).replies (.value #v[a]) v :=
  ⟨_, hill_evaluate hv, Nat.le_refl 0, rfl⟩

theorem hill_gradient (p : Penalised ℝ 0) {a g : ℝ} (hg : g = -(1 / 10000) - 2000 * a) :
    (merits hillCallbacks p).replies (.gradient #v[a]) (#v[g] : Vector ℝ 1) :=
  ⟨_, _, hill_evaluate rfl, Nat.le_refl 0, hill_jacobianAt hg, rfl⟩

theorem hill_gradientScale : gradientScale (m := 0) #v[#v[(-(1 / 10000) : ℝ)]] = 1 := by
  show max (infNorm #v[(-(1 / 10000) : ℝ)]) 1 = 1
  rw [Exact.infNorm_single]
  norm_num

theorem hill_minimize :
    (minimize #v[0] #v[1] #v[0] (innerSettings (m := 0) briefConfig #v[#v[-(1 / 10000)]])).Yields
      (merits hillCallbacks (hillFirst.rows #v[]))
      ⟨#v[1 / 10000], -1001 / 100000000, some (1 / 10000), 1, .iterationLimit,
        #[0, -1001 / 100000000]⟩ := by
  have htolerance : (innerSettings (m := 0) briefConfig #v[#v[-(1 / 10000)]]).tolerance <
      -(-(1 / 10000)) := by
    rw [innerSettings, hill_gradientScale]
    norm_num [briefConfig, Config.default]
  have hlength : Minimize.firstLength
      (innerSettings (m := 0) briefConfig #v[#v[-(1 / 10000)]]).maxStepRatio #v[0]
      #v[-(-(1 / 10000))] = 1 := by
    have hratio :
        (innerSettings (m := 0) briefConfig #v[#v[-(1 / 10000)]]).maxStepRatio = 1 / 4 := by
      show (0.25 : ℝ) = 1 / 4
      norm_num
    rw [Minimize.firstLength, hratio, Exact.infNorm_single, Exact.infNorm_single]
    exact if_neg (by norm_num)
  have hvalue₀ : (merits hillCallbacks (hillFirst.rows #v[])).replies (.value #v[0]) (0 : ℝ) :=
    hill_value _ (by norm_num)
  have hgradient₀ : (merits hillCallbacks (hillFirst.rows #v[])).replies (.gradient #v[0])
      (#v[-(1 / 10000)] : Vector ℝ 1) :=
    hill_gradient _ (by norm_num)
  have hvalue : (merits hillCallbacks (hillFirst.rows #v[])).replies (.value #v[1 / 10000])
      (-1001 / 100000000 : ℝ) :=
    hill_value _ (by norm_num)
  have hstep : (1 : ℝ) * -(-(1 / 10000)) = 1 / 10000 := by norm_num
  -- the first trial has full length, and its value is low enough
  have h := Minimize.minimize_one_step rfl rfl hvalue₀ hgradient₀ (by norm_num) htolerance hlength
    hstep (by norm_num) (by norm_num) hvalue (by norm_num [Minimize.armijo]) (hill_gradient _ rfl)
  rwa [neg_neg] at h

/-- The only outer iteration goes on from the end of its minimisation. -/
theorem run_hill_outerIteration :
    hillCallbacks.run (outerIteration briefConfig #v[] #v[0] #v[1] 0 hillFirst) =
      some (.ok (.goesOn (hillFirst.next briefConfig #v[] #v[#v[-(1 / 10000)]]
        ⟨#v[1 / 10000], -1001 / 100000000, some (1 / 10000), 1, .iterationLimit,
          #[0, -1001 / 100000000]⟩ ⟨-1001 / 100000000, []⟩ #v[]))) := by
  have hjacobian : JacobianAt (m := 0) hillCallbacks hillFirst.point #v[#v[-(1 / 10000)]] :=
    hill_jacobianAt (by norm_num)
  have hevaluate : hillCallbacks.evaluate [1 / 10000] = .ok ⟨-1001 / 100000000, []⟩ :=
    hill_evaluate (by norm_num)
  have hminimised := minimised_of_yields hjacobian hill_minimize hevaluate
  have hfailed : ¬ hillFirst.Succeeds briefConfig #v[] #v[#v[-(1 / 10000)]]
      ⟨#v[1 / 10000], -1001 / 100000000, some (1 / 10000), 1, .iterationLimit,
        #[0, -1001 / 100000000]⟩ #v[] := by
    rintro ⟨-, hnorm⟩
    rw [Option.any_some, decide_eq_true_iff, hill_gradientScale] at hnorm
    norm_num [briefConfig, Config.default] at hnorm
  have hobjective : ¬ (-1001 / 100000000 : ℝ) < unboundedObjective := by
    norm_num [unboundedObjective]
  exact run_outerIteration hminimised (by decide) rfl hfailed hobjective (by decide)

theorem hill_exhaustedCode (penalty : ℝ) :
    exhaustedCode briefConfig penalty
      ⟨⟨-1001 / 100000000, []⟩, measure (hillFirst.rows #v[]) #v[],
        some (1 / 10000 / gradientScale (m := 0) #v[#v[-(1 / 10000)]])⟩ = .acceptable := by
  refine if_pos ⟨?_, ?_⟩
  · show (0 : ℝ) ≤ 1e-4
    norm_num
  · rw [hill_gradientScale, Option.any_some, decide_eq_true_iff]
    norm_num [briefConfig, Config.default]

/-- The run on the hill ends as acceptable, one step from the start. -/
theorem run_hill_solve :
    hillCallbacks.run (solve briefConfig hill) =
      some (.ok ⟨1, [1 / 10000], -1001 / 100000000, [], [], 1, [-1001 / 100000000]⟩) :=
  run_solve_once (segment_checkedStart _) rfl run_hill_outerIteration rfl (hill_exhaustedCode _)

theorem brief_validate : briefConfig.validate = .ok () := by
  simp [Config.validate, briefConfig, Config.default, requirePositive]
  norm_num
  rfl

/-- The run on the hill is explained: the norm was measured at the start, before the only step. -/
theorem hill_explained :
    hillCallbacks.run (solve briefConfig hill) =
        some (.ok ⟨1, [1 / 10000], -1001 / 100000000, [], [], 1, [-1001 / 100000000]⟩) ∧
      ∃ (start : Start ℝ hill.dimension) (outer : Nat)
        (s : Outer ℝ hill.dimension hill.rows.length),
        hill.checkedStart = .ok start ∧ 1 = outer + 1 ∧ outer + 1 = briefConfig.maxOuter ∧
        Reaches hillCallbacks briefConfig ⟨hill.rows.toArray, rfl⟩ start.lower start.upper
          (.first briefConfig start.point) outer s ∧
        Nonempty (Acceptance hillCallbacks briefConfig ⟨hill.rows.toArray, rfl⟩ start.lower
          start.upper s
          ⟨1, [1 / 10000], -1001 / 100000000, [], [], 1, [-1001 / 100000000]⟩) :=
  ⟨run_hill_solve, acceptable_explained brief_validate run_hill_solve rfl⟩

/-- The run on the hill is acceptable, and yet the projected gradient at its end is two thousand
times too large. -/
theorem hill_not_stationary :
    briefConfig.validate = .ok () ∧
      hillCallbacks.run (solve briefConfig hill) =
        some (.ok ⟨ReturnCode.acceptable.toInt, [1 / 10000], -1001 / 100000000, [], [], 1,
          [-1001 / 100000000]⟩) ∧
      JacobianAt (m := 0) hillCallbacks #v[0] #v[#v[-(1 / 10000)]] ∧
      JacobianAt (m := 0) hillCallbacks #v[1 / 10000] #v[#v[-(2001 / 10000)]] ∧
      ¬ infNorm (Minimize.projected #v[0] #v[1] #v[1 / 10000]
          (Vector.ofFn (lagrangianGradient (m := 0) #v[#v[-(2001 / 10000)]] #v[]))) ≤
        briefConfig.acceptableTolerance * max (infNorm #v[-(1 / 10000)]) 1 := by
  have hstart : JacobianAt (m := 0) hillCallbacks #v[0] #v[#v[-(1 / 10000)]] :=
    hill_jacobianAt (by norm_num)
  have hend : JacobianAt (m := 0) hillCallbacks #v[1 / 10000] #v[#v[-(2001 / 10000)]] :=
    hill_jacobianAt (by norm_num)
  have hgradient : Vector.ofFn (lagrangianGradient (m := 0) #v[#v[-(2001 / 10000)]] #v[]) =
      #v[-(2001 / 10000)] := by
    refine Exact.eq_single ?_
    rw [entry_ofFn, lagrangianGradient, Finset.univ_eq_empty, Finset.sum_empty, add_zero]
    rfl
  have hprojected : Minimize.projected #v[(0 : ℝ)] #v[1] #v[1 / 10000] #v[-(2001 / 10000)] =
      #v[-(2001 / 10000)] := by
    refine Exact.eq_single ?_
    simp only [Minimize.projected_getElem, Exact.single_get]
    norm_num
  refine ⟨brief_validate, run_hill_solve, hstart, hend, ?_⟩
  rw [hgradient, hprojected, Exact.infNorm_single, Exact.infNorm_single]
  norm_num [briefConfig, Config.default]

end

end Nlp.AugmentedLagrangian
