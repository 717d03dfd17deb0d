import Nlp.Proofs.Solver.Inner

/-!
# What success of the augmented Lagrangian solver means

In exact arithmetic a run on pure callbacks that ends in success ends at a point with multipliers
that satisfy the first-order conditions to the tolerances of the configuration.  The test for
success looks at the merit with the multipliers of the iteration before; those returned are the
weights of the rows at the final point, and so the same gradient is tested.

## Main definitions

* `FirstOrder`: the first-order conditions within tolerances.
* `Certificate`: a termination with the data that certifies it.
* `Reaches`: the states at the tops of the outer iterations.

## Main results

* `ensures_outerIteration`: one outer iteration; a success is certified.
* `solve_certified`: whole runs.
-/

namespace Nlp.AugmentedLagrangian

variable {ε : Type} {n m : Nat} {P : PureCallbacks ℝ ε}

/-! ## The certificate -/

/-- First-order conditions within tolerances: the point is in the box and feasible, multipliers of
inequalities are not negative and vanish where the row is slack, and the gradient of the
Lagrangian function is small except where it points out of the box. -/
structure FirstOrder (senses : Vector Sense m) (lower upper x : Vector ℝ n)
    (multipliers constraints : Vector ℝ m) (jacobian : Vector (Vector ℝ n) (1 + m))
    (feasibility stationarity : ℝ) : Prop where
  inBox : ∀ i : Fin n, lower.get i ≤ x.get i ∧ x.get i ≤ upper.get i
  nonneg : ∀ j : Fin m, senses.get j = .atMost → 0 ≤ multipliers.get j
  equal : ∀ j : Fin m, senses.get j = .equal → |constraints.get j| ≤ feasibility
  atMost : ∀ j : Fin m, senses.get j = .atMost → constraints.get j ≤ feasibility
  slack : ∀ j : Fin m, senses.get j = .atMost → constraints.get j < -feasibility →
    multipliers.get j = 0
  stationary : ∀ i : Fin n, |lagrangianGradient jacobian multipliers i| ≤ stationarity ∨
    x.get i = lower.get i ∧ 0 < lagrangianGradient jacobian multipliers i ∨
    x.get i = upper.get i ∧ lagrangianGradient jacobian multipliers i < 0

/-- A termination together with what certifies it: its point satisfies the first-order conditions
with its multipliers, to the tolerances of the configuration.  That on stationarity is relative to
the objective gradient at `begun`, where the last outer iteration started. -/
structure Certificate (P : PureCallbacks ℝ ε) (config : Config ℝ) (senses : Vector Sense m)
    (lower upper begun : Vector ℝ n) (t : Termination ℝ) where
  /-- The final point. -/
  point : Vector ℝ n
  /-- The multipliers. -/
  multipliers : Vector ℝ m
  /-- The constraint rows at the final point. -/
  constraints : Vector ℝ m
  /-- The Jacobian where the last outer iteration started. -/
  atBegun : Vector (Vector ℝ n) (1 + m)
  /-- The Jacobian at the final point. -/
  jacobian : Vector (Vector ℝ n) (1 + m)
  point_eq : t.point = point.toList
  multipliers_eq : t.multipliers = multipliers.toList
  constraints_eq : t.constraints = constraints.toList
  evaluated : P.evaluate point.toList = .ok ⟨t.objective, t.constraints⟩
  isJacobianAtBegun : JacobianAt P begun atBegun
  isJacobian : JacobianAt P point jacobian
  firstOrder : FirstOrder senses lower upper point multipliers constraints jacobian
    config.constraintTolerance
    (config.tolerance * max (infNorm (objectiveGradient atBegun)) 1)

variable {senses : Vector Sense m} {lower upper : Vector ℝ n}

theorem mem_box (hbox : ∀ i : Fin n, lower.get i ≤ upper.get i) {x : Vector ℝ n}
    (hx : Minimize.InBox lower upper x) (i : Fin n) :
    lower.get i ≤ x.get i ∧ x.get i ≤ upper.get i := by
  obtain ⟨y, rfl⟩ := hx
  exact Exact.clampTo_mem_Icc hbox y i

/-- Where the norm of the projected gradient is bounded, so is every entry of the gradient, except
where it holds its variable on a bound. -/
theorem stationary_of_infNorm_le {x g : Vector ℝ n} {b : ℝ} (i : Fin n)
    (hx : lower.get i ≤ x.get i ∧ x.get i ≤ upper.get i)
    (hnorm : infNorm (Minimize.projected lower upper x g) ≤ b) :
    |g.get i| ≤ b ∨ x.get i = lower.get i ∧ 0 < g.get i ∨ x.get i = upper.get i ∧ g.get i < 0 := by
  have hentry := (Exact.infNorm_le_iff.mp hnorm).2 i
  by_cases hlow : x.get i ≤ lower.get i ∧ 0 < g.get i
  · exact .inr (.inl ⟨le_antisymm hlow.1 hx.1, hlow.2⟩)
  by_cases hhigh : upper.get i ≤ x.get i ∧ g.get i < 0
  · exact .inr (.inr ⟨le_antisymm hx.2 hhigh.1, hhigh.2⟩)
  refine .inl ?_
  have hfree : (Minimize.projected lower upper x g).get i = g.get i := by
    rw [Minimize.projected_getElem, if_neg (not_or.mpr ⟨hlow, hhigh⟩)]
  rwa [hfree] at hentry

/-- The measure gives the conditions row by row, and the projected gradient of the merit is that of
the Lagrangian function at the next multipliers. -/
theorem FirstOrder.of_measure_le {p : Penalised ℝ m} (hpenalty : 0 < p.penalty)
    (hbox : ∀ i : Fin n, lower.get i ≤ upper.get i) {x : Vector ℝ n}
    (hx : Minimize.InBox lower upper x) {c : Vector ℝ m}
    {jacobian : Vector (Vector ℝ n) (1 + m)} {feasibility stationarity : ℝ}
    (hmeasure : measure p c ≤ feasibility)
    (hnorm : infNorm (Minimize.projected lower upper x (meritGradient p c.toList jacobian)) ≤
      stationarity) :
    FirstOrder p.senses lower upper x (updateMultipliers p c) c jacobian feasibility
      stationarity where
  inBox := mem_box hbox hx
  nonneg _ hj := updateMultipliers_nonneg hj
  equal _ hj := abs_le_of_measure_le hmeasure hj
  atMost _ hj := le_of_measure_le hmeasure hj
  slack _ hj hslack := updateMultipliers_eq_zero hpenalty hmeasure hj hslack
  stationary i := by
    rw [← meritGradient_getElem]
    exact stationary_of_infNorm_le i (mem_box hbox hx i) hnorm

/-- What an outer iteration comes to: a certified end if it is a success, or a state with a
positive penalty. -/
def Next.Sound (P : PureCallbacks ℝ ε) (config : Config ℝ) (senses : Vector Sense m)
    (lower upper begun : Vector ℝ n) (outer : Nat) : Next ℝ n m → Prop
  | .ended t => t.code = ReturnCode.succeeded.toInt →
      t.iterations = outer + 1 ∧ Nonempty (Certificate P config senses lower upper begun t)
  | .goesOn s => 0 < s.penalty

/-- An end with any other code than success claims nothing. -/
theorem ensures_failed {config : Config ℝ} {code : ReturnCode} (hcode : code ≠ .succeeded)
    {begun x : Vector ℝ n} {values : Values ℝ} {multipliers : Vector ℝ m} {outer : Nat}
    {history : Array ℝ} :
    P.ensures.holds (.ended <$> finish config code x values multipliers (outer + 1) history)
      (Next.Sound P config senses lower upper begun outer) := by
  refine P.ensures.map (P.ensures.mono _ ?_
    (holds_finish_record PureCallbacks.ensures_report code x values multipliers _ _))
  rintro t rfl hsuccess
  exact absurd (ReturnCode.toInt_inj hsuccess) hcode

theorem adapt_pos {config : Config ℝ} (hceiling : 0 < config.penaltyMax)
    (hgrowth : 1 < config.penaltyGrowth) {penalty : ℝ} (hpenalty : 0 < penalty)
    (previous : Option ℝ) (stalled : Nat) (measure : ℝ) :
    0 < (adapt config penalty previous stalled measure).1 := by
  have hgrown : 0 < min (penalty * config.penaltyGrowth) config.penaltyMax :=
    lt_min (mul_pos hpenalty (one_pos.trans hgrowth)) hceiling
  unfold adapt
  split
  · split
    · exact hgrown
    · split <;> exact hpenalty
  · exact hpenalty

/-- What a minimisation from `begun` ends with, and the values there, one for every row. -/
structure Concluded (P : PureCallbacks ℝ ε) (p : Penalised ℝ m) (lower upper : Vector ℝ n)
    (tolerance : ℝ) (inner : Minimize.Outcome ℝ n) (values : Values ℝ) (constraints : Vector ℝ m) :
    Prop where
  ended : Minimize.Ended lower upper (IsMerit P p) (IsMeritGradient P p) tolerance inner
  evaluated : P.evaluate inner.point.toList = .ok values
  rows : vectorOf? m (values.constraints.take m) = some constraints

theorem ensures_conclude {config : Config ℝ} (hceiling : 0 < config.penaltyMax)
    (hgrowth : 1 < config.penaltyGrowth) (hbox : ∀ i : Fin n, lower.get i ≤ upper.get i)
    {s : Outer ℝ n m} (hpenalty : 0 < s.penalty) (outer : Nat)
    {atBegun : Vector (Vector ℝ n) (1 + m)} (hbegun : JacobianAt P s.point atBegun)
    {inner : Minimize.Outcome ℝ n} {values : Values ℝ} {constraints : Vector ℝ m}
    (h : Concluded P ⟨senses, s.multipliers, s.penalty⟩ lower upper
      (config.tolerance * gradientScale atBegun) inner values constraints) :
    P.ensures.holds
      (conclude config ⟨senses, s.multipliers, s.penalty⟩ outer s (gradientScale atBegun) inner
        values constraints)
      (Next.Sound P config senses lower upper s.point outer) := by
  unfold conclude
  refine P.ensures.ite (fun hsuccess => ?_) (fun _ => ?_)
  · -- a success is certified: its norm was measured at this point
    obtain ⟨hmeasure, hstop⟩ := hsuccess
    refine P.ensures.map (P.ensures.mono _ ?_
      (holds_finish_record PureCallbacks.ensures_report _ _ _ _ _ _))
    rintro t rfl -
    obtain ⟨norm, hnorm, hle⟩ := (Option.any_eq_true _ _).mp hstop
    obtain ⟨g, ⟨found, jacobian, hfound, hlength, hjacobian, rfl⟩, rfl⟩ :=
      h.ended.stationary norm hnorm (of_decide_eq_true hle)
    obtain rfl : found = values := Except.ok.inj (hfound.symm.trans h.evaluated)
    have hrows : found.constraints = constraints.toList :=
      (vectorOf?_eq_some.mp h.rows).symm ▸ (List.take_of_length_le hlength).symm
    rw [hrows] at hle
    have hfirst := FirstOrder.of_measure_le hpenalty hbox h.ended.inBox hmeasure
      (of_decide_eq_true hle)
    exact ⟨rfl, ⟨⟨inner.point, _, constraints, atBegun, jacobian, rfl, rfl, hrows, h.evaluated,
      hbegun, hjacobian, hfirst⟩⟩⟩
  refine P.ensures.ite (fun _ => ?_) (fun _ => ?_)
  · exact ensures_failed (by decide)
  refine P.ensures.ite (fun _ => ?_) (fun _ => ?_)
  · exact ensures_failed (by decide)
  · exact P.ensures.pure _ (adapt_pos hceiling hgrowth hpenalty _ _ _)

theorem ensures_outerIteration {config : Config ℝ} (hceiling : 0 < config.penaltyMax)
    (hgrowth : 1 < config.penaltyGrowth) (hbox : ∀ i : Fin n, lower.get i ≤ upper.get i)
    {s : Outer ℝ n m} (hpenalty : 0 < s.penalty) (outer : Nat) :
    P.ensures.holds (outerIteration config senses lower upper outer s)
      (Next.Sound P config senses lower upper s.point outer) := by
  unfold outerIteration
  refine P.ensures.bind _ _ (P.ensures.mono _ ?_ (PureCallbacks.ensures_jacobian s.point.toList))
  intro a ha
  refine P.ensures.bind _ _ (P.ensures.mono _ ?_ (PureCallbacks.ensures_shaped a _ _))
  intro atBegun hshaped
  have hminimize := ensures_minimize (P := P) ⟨senses, s.multipliers, s.penalty⟩ lower upper s.point
    ⟨config.maxInner, config.tolerance * gradientScale atBegun, config.maxStepRatio,
      decide (5 ≤ config.printLevel)⟩ none (fun _ _ h => nomatch h)
  -- from here on the iteration only looks at what the inner run has come to
  refine P.ensures.bind _ _ (P.ensures.mono _ ?_ hminimize)
  rintro ⟨inner, cache⟩ ⟨hinner, hcache⟩
  refine P.ensures.bind _ _ (P.ensures.mono _ ?_ (ensures_valuesAt inner.point cache hcache))
  rintro ⟨values, _⟩ ⟨hvalues, -⟩
  refine P.ensures.ite (fun _ => ?_) (fun _ => ?_)
  · exact P.ensures.bind _ _ (P.ensures.mono _ (fun _ _ => ensures_failed (by decide))
      (PureCallbacks.ensures_report _))
  split
  · exact PureCallbacks.ensures_outOfRange _ _ _
  next constraints hconstraints =>
  have hend := ensures_conclude hceiling hgrowth hbox hpenalty outer ⟨a, ha, hshaped⟩
    ⟨hinner, hvalues, hconstraints⟩
  refine P.ensures.ite (fun _ => ?_) (fun _ => ?_)
  · exact P.ensures.bind _ _ (P.ensures.mono _ (fun _ _ => hend) (PureCallbacks.ensures_report _))
  · exact P.ensures.bind _ _ (P.ensures.mono _ (fun _ _ => hend) (PureCallbacks.ensures_report _))

/-! ## Whole runs -/

/-- The states at the tops of the outer iterations, with their numbers. -/
inductive Reaches {α : Type} [Scalar α] (P : PureCallbacks α ε) (config : Config α)
    (senses : Vector Sense m) (lower upper : Vector α n) (first : Outer α n m) :
    Nat → Outer α n m → Prop
  | start : Reaches P config senses lower upper first 0 first
  | step {outer : Nat} {s next : Outer α n m} :
    Reaches P config senses lower upper first outer s →
    P.run (outerIteration config senses lower upper outer s) = some (.ok (.goesOn next)) →
    Reaches P config senses lower upper first (outer + 1) next

section

variable {α : Type} [Scalar α] {P : PureCallbacks α ε} {config : Config α}
  {lower upper : Vector α n} {first s : Outer α n m}

/-- On pure callbacks a state is reached where it is on their replies. -/
theorem reaches_iff_arrives {outer : Nat} :
    Reaches P config senses lower upper first outer s ↔
      Arrives P.contract config senses lower upper first outer s := by
  constructor
  · intro hs
    induction hs with
    | start => exact .start
    | step _ hnext ih => exact ih.step (PureCallbacks.run_eq_some.mp hnext)
  · intro hs
    induction hs with
    | start => exact .start
    | step _ hnext ih => exact ih.step (PureCallbacks.run_eq_some.mpr hnext)

/-- A run ends in an outer iteration, or in the state that is left when they are used up. -/
theorem outerIterations_ended {outer remaining : Nat}
    (hs : Reaches P config senses lower upper first outer s) {t : Termination α}
    (hrun : P.run (outerIterations config senses lower upper remaining outer s) = some (.ok t)) :
    ∃ k last, Reaches P config senses lower upper first k last ∧
      (P.run (outerIteration config senses lower upper k last) = some (.ok (.ended t)) ∨
        k = outer + remaining ∧ P.run (exhausted config k last) = some (.ok t)) := by
  simp only [reaches_iff_arrives, PureCallbacks.run_eq_some] at hs hrun ⊢
  exact outerIterations_yields hs hrun

end

/-- The penalty stays positive. -/
theorem Reaches.penalty_pos {config : Config ℝ} (hceiling : 0 < config.penaltyMax)
    (hgrowth : 1 < config.penaltyGrowth) (hbox : ∀ i : Fin n, lower.get i ≤ upper.get i)
    {first : Outer ℝ n m} (hfirst : 0 < first.penalty) {k : Nat} {s : Outer ℝ n m}
    (hs : Reaches P config senses lower upper first k s) : 0 < s.penalty := by
  induction hs with
  | start => exact hfirst
  | step _ hnext ih =>
    exact PureCallbacks.of_run (ensures_outerIteration hceiling hgrowth hbox ih _) hnext

theorem exhaustedCode_ne {α : Type} [Scalar α] (config : Config α) (penalty : α)
    (found : Found α) : exhaustedCode config penalty found ≠ .succeeded := by
  unfold exhaustedCode
  split
  · decide
  · split <;> decide

/-- A run whose iterations are used up is not a success. -/
theorem ensures_exhausted {α : Type} [Scalar α] {P : PureCallbacks α ε} (config : Config α)
    (k : Nat) (s : Outer α n m) :
    P.ensures.holds (exhausted config k s) fun t => t.code ≠ ReturnCode.succeeded.toInt := by
  have hfinish : ∀ code ≠ ReturnCode.succeeded, ∀ values iterations,
      P.ensures.holds (finish config code s.point values s.multipliers iterations s.history)
        fun t => t.code ≠ ReturnCode.succeeded.toInt := by
    intro code hcode values iterations
    refine P.ensures.mono _ ?_
      (holds_finish_record PureCallbacks.ensures_report code _ values _ iterations _)
    rintro t rfl hsuccess
    exact hcode (ReturnCode.toInt_inj hsuccess)
  unfold exhausted
  split
  · exact P.ensures.bind _ _ (P.ensures.mono _ (fun values _ => hfinish _ (by decide) values 0)
      (PureCallbacks.ensures_evaluate _))
  · next found _ => exact hfinish _ (exhaustedCode_ne config s.penalty found) _ _

/-- The success certificate of the solver.  The shapes of what the callbacks return need no
assumption: a run on other shapes does not succeed. -/
theorem solve_certified {config : Config ℝ} (hvalid : config.validate = .ok ())
    {problem : Layout ℝ} {t : Termination ℝ}
    (hrun : P.run (solve config problem) = some (.ok t))
    (hcode : t.code = ReturnCode.succeeded.toInt) :
    ∃ (start : Start ℝ problem.dimension) (outer : Nat)
      (last : Outer ℝ problem.dimension problem.rows.length),
      start.lower.toList = problem.lower ∧ start.upper.toList = problem.upper ∧
      t.iterations = outer + 1 ∧
      Reaches P config ⟨problem.rows.toArray, rfl⟩ start.lower start.upper
        (.first config start.point) outer last ∧
      P.run (outerIteration config ⟨problem.rows.toArray, rfl⟩ start.lower start.upper outer last) =
        some (.ok (.ended t)) ∧
      Nonempty (Certificate P config ⟨problem.rows.toArray, rfl⟩ start.lower start.upper last.point
        t) := by
  have hconfig := Config.valid_of_validate hvalid
  have hceiling : 0 < config.penaltyMax := hconfig.penaltyInit.1.trans_le hconfig.ceiling
  unfold solve at hrun
  split at hrun
  · exact (PureCallbacks.of_run (PureCallbacks.ensures_refuse _ fun _ => False) hrun).elim
  next start hstart =>
  obtain ⟨hlower, hupper, hbox, -⟩ := Layout.checkedStart_eq_ok hstart
  split at hrun
  · exact (PureCallbacks.of_run (PureCallbacks.ensures_outOfRange _ _ fun _ => False) hrun).elim
  obtain ⟨outer, last, hlast, hend | ⟨-, hend⟩⟩ := outerIterations_ended .start hrun
  · have hpenalty := hlast.penalty_pos hceiling hconfig.growth hbox hconfig.penaltyInit.1
    have hsound := PureCallbacks.of_run
      (ensures_outerIteration hceiling hconfig.growth hbox hpenalty outer) hend
    obtain ⟨hiterations, hcertificate⟩ := hsound hcode
    exact ⟨start, outer, last, hlower, hupper, hiterations, hlast, hend, hcertificate⟩
  · exact absurd hcode (PureCallbacks.of_run (ensures_exhausted config outer last) hend)

/-! ## Two problems on a segment

Under `x ≤ 1/2` the number `x` is minimised on `[0, 1]` from `0`, which is where the minimum is: the
bound holds the variable, and the row is slack.  Under `x ≤ 1/4` the number `-2 x` is minimised from
`1/4`: the first outer iteration goes to `1/2`, where it finds the multiplier `2`, and the second
one goes back.
-/

section

/-- A start on `[0, 1]`, under any rows. -/
theorem unit_checkedStart {x : ℝ} (hx : x ∈ Set.Icc 0 1) (rows : List Sense) :
    (Layout.mk 1 [(0 : ℝ)] [1] [x] rows).checkedStart = .ok ⟨#v[0], #v[1], #v[x]⟩ := by
  have h : (Layout.mk 1 #v[(0 : ℝ)].toList #v[(1 : ℝ)].toList #v[x].toList rows).checkedStart = _ :=
    Layout.checkedStart_toList (fun i => (Exact.single_mem_Icc ⟨zero_le_one, le_refl 1⟩ i).1) _ _
  rw [Exact.clampTo_eq_self (Exact.single_mem_Icc hx)] at h
  exact h

/-- The gradient of the merit of one variable and one row. -/
theorem unit_meritGradient (sense : Sense) (l r c a b : ℝ) :
    meritGradient ⟨#v[sense], #v[l], r⟩ [c] #v[#v[a], #v[b]] = #v[a + weight sense l r c * b] := by
  refine Exact.eq_single ?_
  refine (meritGradient_getElem (⟨#v[sense], #v[l], r⟩ : Penalised ℝ 1) #v[c] _ 0).trans ?_
  rw [lagrangianGradient, Fin.sum_univ_one]
  rfl

/-- The layout of the first problem. -/
noncomputable def segment : Layout ℝ :=
  ⟨1, [0], [1], [0], [.atMost]⟩

/-- The objective `x` and the row `x - 1/2`. -/
noncomputable def segmentCallbacks : PureCallbacks ℝ Empty where
  evaluate x := .ok ⟨x.headD 0, [x.headD 0 - 1 / 2]⟩
  jacobian _ := .ok ⟨2, 1, #v[#v[1], #v[1]]⟩

theorem segment_clampTo : clampTo #v[(0 : ℝ)] #v[1] #v[0] = #v[0] :=
  Exact.clampTo_eq_self (Exact.single_mem_Icc ⟨le_refl 0, zero_le_one⟩)

theorem segment_checkedStart (rows : List Sense) :
    (Layout.mk 1 [(0 : ℝ)] [1] [0] rows).checkedStart = .ok ⟨#v[0], #v[1], #v[0]⟩ :=
  unit_checkedStart ⟨le_refl 0, zero_le_one⟩ rows

theorem segment_jacobianAt (a : ℝ) :
    JacobianAt (m := 1) segmentCallbacks #v[a] #v[#v[1], #v[1]] :=
  ⟨_, rfl, Matrix.shaped?_mk _⟩

/-- Where the gradient holds the variable on its lower bound at the start, no step is taken. -/
theorem minimize_held {C : Contract (merit ℝ 1)} {settings : Minimize.Settings ℝ} {k : Nat}
    (hmost : settings.maxIterations = k + 1) (htolerance : 0 ≤ settings.tolerance) {v : ℝ}
    (hvalue : C.replies (.value #v[0]) v) (hgradient : C.replies (.gradient #v[0]) #v[(1 : ℝ)]) :
    (minimize #v[0] #v[1] #v[0] settings).Yields C ⟨#v[0], v, some 0, 0, .converged, #[v]⟩ := by
  have hstart : Minimize.Reaches C #v[0] #v[1] #v[0] settings 0 none
      ⟨#v[0], v, #v[1], identity, true, #[v]⟩ := by
    have h : Minimize.Reaches C #v[0] #v[1] #v[0] settings 0 none
        ⟨clampTo #v[0] #v[1] #v[0], v, #v[1], identity, true, #[v]⟩ :=
      .start (by rwa [segment_clampTo]) rfl (by rwa [segment_clampTo])
    rwa [segment_clampTo] at h
  have hprojected : Minimize.projected #v[(0 : ℝ)] #v[1] #v[0] #v[1] = #v[0] := by
    refine Exact.eq_single ?_
    rw [Minimize.projected_getElem]
    exact if_pos (.inl ⟨le_rfl, one_pos⟩)
  have hsize : infNorm (Minimize.projected #v[(0 : ℝ)] #v[1] #v[0] #v[1]) = 0 := by
    rw [hprojected, Exact.infNorm_single, abs_zero]
  have hmost' : settings.maxIterations = 0 + (k + 1) := hmost.trans (Nat.zero_add _).symm
  refine minimize_yields_of_reaches hstart hmost' ?_
  rw [iterate_of_converged (s := ⟨#v[0], v, #v[1], identity, true, #[v]⟩)
    (Exact.any_not_isFinite _) hsize htolerance]
  rfl

/-- The row is slack enough for its weight to vanish. -/
theorem segment_weight : weight .atMost 0 10.0 (0 - 1 / 2 : ℝ) = 0 := by
  norm_num [weight]

theorem segment_minimize {settings : Minimize.Settings ℝ} {k : Nat}
    (hmost : settings.maxIterations = k + 1) (htolerance : 0 ≤ settings.tolerance) :
    (minimize #v[0] #v[1] #v[0] settings).Yields
      (merits segmentCallbacks ⟨#v[.atMost], #v[0], 10.0⟩)
      ⟨#v[0], 0, some 0, 0, .converged, #[0]⟩ := by
  refine minimize_held hmost htolerance ⟨_, rfl, le_refl 1, ?_⟩
    ⟨_, _, rfl, le_refl 1, segment_jacobianAt 0, ?_⟩
  · show 0 = 0 + (weight .atMost 0 10.0 (0 - 1 / 2) * weight .atMost 0 10.0 (0 - 1 / 2) - 0 * 0) /
      (2.0 * 10.0)
    rw [segment_weight]
    norm_num
  · refine Eq.trans ?_ (unit_meritGradient .atMost 0 10.0 (0 - 1 / 2) 1 1).symm
    rw [segment_weight, zero_mul, add_zero]

theorem run_segment_outerIteration :
    segmentCallbacks.run (outerIteration (n := 1) (m := 1) Config.default #v[.atMost] #v[0] #v[1] 0
        (.first Config.default #v[0])) =
      some (.ok (.ended ⟨0, [0], 0, [0 - 1 / 2], [0], 1, [0]⟩)) := by
  have htolerance : (0 : ℝ) ≤ (innerSettings (m := 1) (Config.default : Config ℝ)
      #v[#v[(1 : ℝ)], #v[1]]).tolerance := by
    refine mul_nonneg (by norm_num [Config.default]) ?_
    exact zero_le_one.trans (le_max_right _ _)
  have hminimised : Minimised segmentCallbacks Config.default #v[.atMost] #v[0] #v[1]
      (.first Config.default #v[0]) #v[#v[1], #v[1]] _ ⟨0, [0 - 1 / 2]⟩ :=
    minimised_of_yields (segment_jacobianAt 0) (segment_minimize rfl htolerance) rfl
  have hsuccess : (Outer.first (m := 1) Config.default #v[(0 : ℝ)]).Succeeds Config.default
      #v[.atMost] #v[#v[1], #v[1]] ⟨#v[0], 0, some 0, 0, .converged, #[0]⟩ #v[0 - 1 / 2] := by
    refine ⟨?_, decide_eq_true htolerance⟩
    show max (0 : ℝ) |max (0 - 1 / 2) (-0 / 10.0)| ≤ 1e-6
    norm_num
  have hmultipliers : updateMultipliers ⟨#v[.atMost], #v[0], 10.0⟩ #v[(0 - 1 / 2 : ℝ)] = #v[0] :=
    Exact.eq_single segment_weight
  refine (run_outerIteration_succeeded hminimised (by decide) rfl hsuccess).trans ?_
  show some (Except.ok (Next.ended (record .succeeded #v[0] ⟨0, [0 - 1 / 2]⟩
    (updateMultipliers ⟨#v[.atMost], #v[0], 10.0⟩ #v[0 - 1 / 2]) 1 #[0]))) = _
  rw [hmultipliers]
  rfl

theorem run_segment_solve :
    segmentCallbacks.run (solve Config.default segment) =
      some (.ok ⟨0, [0], 0, [0 - 1 / 2], [0], 1, [0]⟩) := by
  rw [solve, segment, segment_checkedStart]
  exact PureCallbacks.run_bind_eq_ok.mpr ⟨_, run_segment_outerIteration, rfl⟩

theorem default_validate : (Config.default : Config ℝ).validate = .ok () := by
  simp [Config.validate, Config.default, requirePositive]
  norm_num
  rfl

/-- The layout of the second problem. -/
noncomputable def slope : Layout ℝ :=
  ⟨1, [0], [1], [0.25], [.atMost]⟩

/-- The objective `-2 x` and the row `x - 1/4`. -/
noncomputable def slopeCallbacks : PureCallbacks ℝ Empty where
  evaluate x := .ok ⟨-2.0 * x.headD 0, [x.headD 0 - 0.25]⟩
  jacobian _ := .ok ⟨2, 1, #v[#v[-2.0], #v[1]]⟩

/-- The first penalty is `8`. -/
noncomputable def slopeConfig : Config ℝ :=
  { Config.default with penaltyInit := 8.0 }

theorem slopeConfig_validate : slopeConfig.validate = .ok () := by
  simp [Config.validate, slopeConfig, Config.default, requirePositive]
  norm_num
  rfl

theorem slope_jacobianAt (a : ℝ) : JacobianAt (m := 1) slopeCallbacks #v[a] #v[#v[-2.0], #v[1]] :=
  ⟨_, rfl, Matrix.shaped?_mk _⟩

/-- The multiplier of the row after a minimisation that ends at `a`. -/
theorem slope_weight {l a w : ℝ} (hw : max (l + 8.0 * (a - 0.25)) 0 = w) :
    weight .atMost l 8.0 (a - 0.25) = w :=
  hw

theorem slope_value {l a w v : ℝ} (hw : max (l + 8.0 * (a - 0.25)) 0 = w)
    (hv : -2.0 * a + (w * w - l * l) / 16 = v) :
    (merits slopeCallbacks ⟨#v[.atMost], #v[l], 8.0⟩).replies (.value #v[a]) v := by
  refine ⟨_, rfl, le_refl 1, ?_⟩
  show v = -2.0 * a + (weight .atMost l 8.0 (a - 0.25) * weight .atMost l 8.0 (a - 0.25) - l * l) /
    (2.0 * 8.0)
  rw [slope_weight hw, ← hv]
  norm_num

theorem slope_gradient {l a w g : ℝ} (hw : max (l + 8.0 * (a - 0.25)) 0 = w) (hg : -2.0 + w = g) :
    (merits slopeCallbacks ⟨#v[.atMost], #v[l], 8.0⟩).replies (.gradient #v[a])
      (#v[g] : Vector ℝ 1) := by
  refine ⟨_, _, rfl, le_refl 1, slope_jacobianAt a, ?_⟩
  refine Eq.trans ?_ (unit_meritGradient .atMost l 8.0 (a - 0.25) (-2.0) 1).symm
  rw [slope_weight hw, mul_one, hg]

theorem slope_gradientScale : gradientScale (m := 1) #v[#v[(-2.0 : ℝ)], #v[1]] = 2 := by
  show max (infNorm #v[(-2.0 : ℝ)]) 1 = 2
  rw [Exact.infNorm_single]
  norm_num

/-- A step is cut to a quarter. -/
theorem slope_firstLength {x d : ℝ} (hx : |x| ≤ 1) (hd : |d| = 2) :
    Minimize.firstLength (innerSettings (m := 1) slopeConfig #v[#v[-2.0], #v[1]]).maxStepRatio #v[x]
      #v[d] = 1 / 8 := by
  have hratio : (innerSettings (m := 1) slopeConfig #v[#v[-2.0], #v[1]]).maxStepRatio = 1 / 4 := by
    norm_num [innerSettings, slopeConfig, Config.default]
  have hcap : Scalar.max |x| 1 = 1 := max_eq_right hx
  rw [Minimize.firstLength, hratio, Exact.infNorm_single, Exact.infNorm_single, hcap, hd]
  refine (if_pos ?_).trans ?_ <;> norm_num

/-- The minimisation of the merit with the multiplier `l` takes one step of a quarter, from `x₀`,
where the gradient is `g`, to `x`, where it is zero. -/
theorem slope_minimize {l x₀ v₀ x v : ℝ} (g : ℝ) (hx₀ : x₀ ∈ Set.Ioo 0 1)
    (hw₀ : max (l + 8.0 * (x₀ - 0.25)) 0 = 2 + g)
    (hv₀ : -2.0 * x₀ + ((2 + g) * (2 + g) - l * l) / 16 = v₀) (hsize : |g| = 2)
    (hx : x₀ + 1 / 8 * -g = x) (hbox : x ∈ Set.Icc 0 1)
    (hw : max (l + 8.0 * (x - 0.25)) 0 = 2) (hv : -2.0 * x + (2 * 2 - l * l) / 16 = v)
    (hdescent : v ≤ v₀ + Minimize.armijo * (g * (x - x₀))) :
    (minimize #v[0] #v[1] #v[x₀] (innerSettings (m := 1) slopeConfig #v[#v[-2.0], #v[1]])).Yields
      (merits slopeCallbacks ⟨#v[.atMost], #v[l], 8.0⟩)
      ⟨#v[x], v, some 0, 1, .converged, #[v₀, v]⟩ := by
  have htolerance : (innerSettings (m := 1) slopeConfig #v[#v[-2.0], #v[1]]).tolerance = 2e-6 := by
    rw [innerSettings, slope_gradientScale]
    norm_num [slopeConfig, Config.default]
  have hmoved : |x - x₀| = 1 / 4 := by
    rw [← hx, add_sub_cancel_left, abs_mul, abs_neg, hsize]
    norm_num
  have hin : |x₀| ≤ 1 := abs_le.mpr ⟨by linarith [hx₀.1], hx₀.2.le⟩
  have hfar : 1e-12 * (1 + |x₀|) < |x - x₀| := by
    rw [hmoved]
    linarith
  refine Minimize.minimize_step_to_zero (k := 198) rfl rfl ⟨hx₀.1.le, hx₀.2.le⟩
    (slope_value hw₀ hv₀) (slope_gradient hw₀ (by norm_num)) (.inl hx₀.1) (.inl hx₀.2)
    ?_ ?_ (slope_firstLength hin (by rwa [abs_neg])) hx hbox hfar (slope_value hw hv) hdescent
    (slope_gradient hw (by norm_num))
  · rw [htolerance]
    norm_num
  · rw [htolerance, hsize]
    norm_num

theorem slope_evaluate {x f c : ℝ} (hf : -2.0 * x = f) (hc : x - 0.25 = c) :
    slopeCallbacks.evaluate [x] = .ok ⟨f, [c]⟩ := by
  rw [← hf, ← hc]
  rfl

theorem slope_measure {l c b : ℝ} (hb : |max c (-l / 8.0)| = b) :
    measure ⟨#v[.atMost], #v[l], 8.0⟩ #v[c] = b := by
  show max (0 : ℝ) |max c (-l / 8.0)| = b
  rw [hb, max_eq_right (hb ▸ abs_nonneg _)]

theorem slope_updateMultipliers {l c w : ℝ} (hw : max (l + 8.0 * c) 0 = w) :
    updateMultipliers ⟨#v[.atMost], #v[l], 8.0⟩ #v[c] = #v[w] :=
  Exact.eq_single hw

/-- The state after the first outer iteration. -/
noncomputable def slopeNext : Outer ℝ 1 1 :=
  ⟨#v[0.5], #v[2.0], 8.0, some 0.25, 0, #[-1], some ⟨⟨-1, [0.25]⟩, 0.25, some 0⟩⟩

/-- The first outer iteration goes to `1/2`, where the row is violated. -/
theorem run_slope_first :
    slopeCallbacks.run (outerIteration slopeConfig #v[.atMost] #v[0] #v[1] 0
      (.first slopeConfig #v[0.25])) = some (.ok (.goesOn slopeNext)) := by
  have hminimise : (minimize #v[0] #v[1] #v[0.25]
      (innerSettings (m := 1) slopeConfig #v[#v[-2.0], #v[1]])).Yields
        (merits slopeCallbacks ⟨#v[.atMost], #v[0], 8.0⟩)
        ⟨#v[0.5], -3 / 4, some 0, 1, .converged, #[-1 / 2, -3 / 4]⟩ := by
    refine slope_minimize (-2) ?_ ?_ ?_ ?_ ?_ ?_ ?_ ?_ ?_ <;> norm_num [Minimize.armijo]
  have hminimised : Minimised slopeCallbacks slopeConfig #v[.atMost] #v[0] #v[1]
      (.first slopeConfig #v[0.25]) #v[#v[-2.0], #v[1]] _ ⟨-1, [0.25]⟩ :=
    minimised_of_yields (slope_jacobianAt _) hminimise
      (slope_evaluate (by norm_num) (by norm_num))
  have hmeasure : measure ((Outer.first slopeConfig #v[(0.25 : ℝ)]).rows #v[.atMost])
      #v[(0.25 : ℝ)] = 0.25 :=
    slope_measure (by norm_num)
  have hfailed : ¬ (Outer.first slopeConfig #v[(0.25 : ℝ)]).Succeeds slopeConfig #v[.atMost]
      #v[#v[-2.0], #v[1]] ⟨#v[0.5], -3 / 4, some 0, 1, .converged, #[-1 / 2, -3 / 4]⟩
      #v[0.25] := by
    rintro ⟨hle, -⟩
    rw [hmeasure] at hle
    norm_num [slopeConfig, Config.default] at hle
  have hobjective : ¬ (-1 : ℝ) < unboundedObjective := by norm_num [unboundedObjective]
  have hrows : vectorOf? 1 ([(0.25 : ℝ)].take 1) = some #v[0.25] := rfl
  have hmultipliers : updateMultipliers
      ((Outer.first slopeConfig #v[(0.25 : ℝ)]).rows #v[.atMost]) #v[(0.25 : ℝ)] = #v[2.0] :=
    slope_updateMultipliers (by norm_num)
  refine (run_outerIteration hminimised (by decide) hrows hfailed hobjective (by decide)).trans ?_
  rw [Outer.next, hmeasure, hmultipliers]
  show some (Except.ok (Next.goesOn (⟨#v[0.5], #v[2.0], 8.0, some 0.25, 0, #[-1],
    some ⟨⟨-1, [0.25]⟩, 0.25, some (0 / gradientScale (m := 1) #v[#v[(-2.0 : ℝ)], #v[1]])⟩⟩ :
      Outer ℝ 1 1))) = _
  rw [zero_div]
  rfl

/-- The second one goes back, with the multiplier of the row. -/
theorem run_slope_second :
    slopeCallbacks.run (outerIteration slopeConfig #v[.atMost] #v[0] #v[1] 1 slopeNext) =
      some (.ok (.ended ⟨0, [1 / 4], -1 / 2, [0], [2], 2, [-1, -1 / 2]⟩)) := by
  have hminimise : (minimize #v[0] #v[1] #v[0.5]
      (innerSettings (m := 1) slopeConfig #v[#v[-2.0], #v[1]])).Yields
        (merits slopeCallbacks ⟨#v[.atMost], #v[2.0], 8.0⟩)
        ⟨#v[1 / 4], -1 / 2, some 0, 1, .converged, #[-1 / 4, -1 / 2]⟩ := by
    refine slope_minimize 2 ?_ ?_ ?_ ?_ ?_ ?_ ?_ ?_ ?_ <;> norm_num [Minimize.armijo]
  have hminimised : Minimised slopeCallbacks slopeConfig #v[.atMost] #v[0] #v[1] slopeNext
      #v[#v[-2.0], #v[1]] _ ⟨-1 / 2, [0]⟩ :=
    minimised_of_yields (slope_jacobianAt _) hminimise
      (slope_evaluate (by norm_num) (by norm_num))
  have hsuccess : slopeNext.Succeeds slopeConfig #v[.atMost] #v[#v[-2.0], #v[1]]
      ⟨#v[1 / 4], -1 / 2, some 0, 1, .converged, #[-1 / 4, -1 / 2]⟩ #v[0] := by
    have hmeasure : measure (slopeNext.rows #v[.atMost]) #v[0] = 0 := slope_measure (by norm_num)
    refine ⟨?_, decide_eq_true ?_⟩
    · rw [hmeasure]
      norm_num [slopeConfig, Config.default]
    · rw [slope_gradientScale]
      norm_num [slopeConfig, Config.default]
  have hrows : vectorOf? 1 ([(0 : ℝ)].take 1) = some #v[0] := rfl
  have hmultipliers : updateMultipliers (slopeNext.rows #v[.atMost]) #v[0] = #v[2] :=
    slope_updateMultipliers (by norm_num)
  refine (run_outerIteration_succeeded hminimised (by decide) hrows hsuccess).trans ?_
  rw [Outer.ended, hmultipliers]
  rfl

theorem run_slope_solve :
    slopeCallbacks.run (solve slopeConfig slope) =
      some (.ok ⟨0, [1 / 4], -1 / 2, [0], [2], 2, [-1, -1 / 2]⟩) := by
  rw [solve, slope, unit_checkedStart ⟨by norm_num, by norm_num⟩]
  refine PureCallbacks.run_bind_eq_ok.mpr ⟨_, run_slope_first, ?_⟩
  exact PureCallbacks.run_bind_eq_ok.mpr ⟨_, run_slope_second, rfl⟩

/-- Both runs succeed, and so are certified: the one with its variable on a bound and its row slack,
the other after two steps, with the multiplier of its row. -/
theorem segments_certified :
    (segmentCallbacks.run (solve Config.default segment) =
        some (.ok ⟨0, [0], 0, [0 - 1 / 2], [0], 1, [0]⟩) ∧
      ∃ (start : Start ℝ segment.dimension) (outer : Nat) (last : Outer ℝ _ segment.rows.length),
        start.lower.toList = segment.lower ∧ start.upper.toList = segment.upper ∧
        1 = outer + 1 ∧
        Reaches segmentCallbacks Config.default ⟨segment.rows.toArray, rfl⟩ start.lower start.upper
          (.first Config.default start.point) outer last ∧
        segmentCallbacks.run (outerIteration Config.default ⟨segment.rows.toArray, rfl⟩ start.lower
          start.upper outer last) = some (.ok (.ended ⟨0, [0], 0, [0 - 1 / 2], [0], 1, [0]⟩)) ∧
        Nonempty (Certificate segmentCallbacks Config.default ⟨segment.rows.toArray, rfl⟩
          start.lower start.upper last.point ⟨0, [0], 0, [0 - 1 / 2], [0], 1, [0]⟩)) ∧
    slopeCallbacks.run (solve slopeConfig slope) =
        some (.ok ⟨0, [1 / 4], -1 / 2, [0], [2], 2, [-1, -1 / 2]⟩) ∧
      ∃ (start : Start ℝ slope.dimension) (outer : Nat) (last : Outer ℝ _ slope.rows.length),
        start.lower.toList = slope.lower ∧ start.upper.toList = slope.upper ∧
        2 = outer + 1 ∧
        Reaches slopeCallbacks slopeConfig ⟨slope.rows.toArray, rfl⟩ start.lower start.upper
          (.first slopeConfig start.point) outer last ∧
        slopeCallbacks.run (outerIteration slopeConfig ⟨slope.rows.toArray, rfl⟩ start.lower
          start.upper outer last) =
            some (.ok (.ended ⟨0, [1 / 4], -1 / 2, [0], [2], 2, [-1, -1 / 2]⟩)) ∧
        Nonempty (Certificate slopeCallbacks slopeConfig ⟨slope.rows.toArray, rfl⟩
          start.lower start.upper last.point ⟨0, [1 / 4], -1 / 2, [0], [2], 2, [-1, -1 / 2]⟩) :=
  ⟨⟨run_segment_solve, solve_certified default_validate run_segment_solve rfl⟩,
    run_slope_solve, solve_certified slopeConfig_validate run_slope_solve rfl⟩

end

end Nlp.AugmentedLagrangian
