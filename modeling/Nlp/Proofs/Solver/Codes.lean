import Nlp.Proofs.Order
import Nlp.Proofs.Solver.Certificate
import Nlp.Proofs.Solver.Record

/-!
# What the codes of the solver for bounds say

The code of a run is chosen after its minimisation, from the reason it stopped and from the norm of
the projected gradient, which was measured before the last step or after it, depending on that
reason.  Where the code says success, the norm was measured at the point that is returned, and the
gradient there is small except where it holds a variable on its bound.  Where the code says that
steps became too small, either no step was made from that point and the norm is within a hundred
times the tolerance, or the last step hardly moved and hardly changed the objective.

The arithmetic is that of the reals or of the doubles: of the norm, only laws of the order are used.

## Main definitions

* `IsGradient`: the gradient of the objective, as the callbacks have it.
* `Stationary`: the gradient is small, except where it holds a variable on its bound.
* `LastStep`: the last step of a run.

## Main results

* `solve_eq_ok`: what a run of the solver comes to, and from what.
* `stationary_of_infNorm_le`: a small norm of the projected gradient.
* `code_explained`: what success and small steps mean.
-/

namespace Nlp.ProjectedBfgs

variable {α ε : Type} [Scalar α] {n : Nat} {P : PureCallbacks α ε} {config : Config α}
  {problem : Layout α} {t : Termination α}

/-! ## From a run to its minimisation, and back -/

/-- The gradient of the objective at a point: the only row of a Jacobian that has one row. -/
def IsGradient (P : PureCallbacks α ε) (x g : Vector α n) : Prop :=
  ∃ a entries, P.jacobian x.toList = .ok a ∧ a.shaped? 1 n = some entries ∧
    g = entries.get ⟨0, Nat.one_pos⟩

omit [Scalar α] in
theorem objective_gradient_iff {x g : Vector α n} :
    (objective P.contract n).replies (.gradient x) g ↔ IsGradient P x g := by
  constructor
  · rintro ⟨a, entries, ha, hentries, rfl⟩
    exact ⟨a, entries, Option.some.inj ha, hentries, rfl⟩
  · rintro ⟨a, entries, ha, hentries, rfl⟩
    exact ⟨a, entries, congrArg some ha, hentries, rfl⟩

omit [Scalar α] in
theorem objective_value_iff {x : Vector α n} {v : α} :
    (objective P.contract n).replies (.value x) v ↔
      ∃ values, P.evaluate x.toList = .ok values ∧ v = values.objective := by
  constructor
  · rintro ⟨values, hvalues, rfl⟩
    exact ⟨values, Option.some.inj hvalues, rfl⟩
  · rintro ⟨values, hvalues, rfl⟩
    exact ⟨values, congrArg some hvalues, rfl⟩

omit [Scalar α] in
theorem run_answer (c : MeritCall α n) (reply : (merit α n).Reply c)
    (h : (objective P.contract n).replies c reply) : P.run (answer c) = some (.ok reply) := by
  cases c with
  | value x =>
    obtain ⟨values, hvalues, rfl⟩ := objective_value_iff.mp h
    exact PureCallbacks.run_bind_eq_ok.mpr ⟨values, PureCallbacks.run_evaluate hvalues, rfl⟩
  | gradient x =>
    obtain ⟨a, entries, ha, hentries, rfl⟩ := objective_gradient_iff.mp h
    refine PureCallbacks.run_bind_eq_ok.mpr ⟨a, PureCallbacks.run_jacobian ha, ?_⟩
    exact PureCallbacks.run_bind_eq_ok.mpr ⟨entries, PureCallbacks.run_shaped hentries, rfl⟩
  | report event => rfl

/-- A run comes to the record of what its minimisation can come to on the objective and its
gradient. -/
theorem solve_eq_ok :
    P.run (solve config problem) = some (.ok t) ↔
      problem.rows = [] ∧ ∃ start initial o values, problem.checkedStart = .ok start ∧
        IsGradient P start.point initial ∧
        (minimize start.lower start.upper start.point (settings config initial)).Yields
          (objective P.contract problem.dimension) o ∧
        P.evaluate o.point.toList = .ok values ∧
        t = record (settings config initial).tolerance o values := by
  -- one direction judges the run by its contract, the other carries it out call by call
  constructor
  · intro hrun
    obtain ⟨hrows, start, initial, o, hstart, hinitial, h⟩ :=
      PureCallbacks.of_run (replying_solve (C := P.contract) (fun _ => trivial) problem) hrun
    refine ⟨hrows, start, initial, o, ⟨t.objective, t.constraints⟩, hstart,
      objective_gradient_iff.mp hinitial, h.minimised, h.point ▸ Option.some.inj h.values, ?_⟩
    rw [record, ← h.code, ← h.point, ← h.iterations, ← h.history, ← h.multipliers]
  · rintro ⟨hrows, start, initial, o, values, hstart, hinitial, hminimise, hvalues, rfl⟩
    obtain ⟨a, entries, ha, hentries, rfl⟩ := hinitial
    rw [solve, if_neg (not_not.mpr hrows), hstart]
    refine PureCallbacks.run_bind_eq_ok.mpr ⟨a, PureCallbacks.run_jacobian ha, ?_⟩
    refine PureCallbacks.run_bind_eq_ok.mpr ⟨entries, PureCallbacks.run_shaped hentries, ?_⟩
    refine PureCallbacks.run_bind_eq_ok.mpr
      ⟨o, PureCallbacks.run_interpret_of_yields run_answer hminimise, ?_⟩
    refine PureCallbacks.run_bind_eq_ok.mpr ⟨values, PureCallbacks.run_evaluate hvalues, ?_⟩
    dsimp only
    split
    · rfl
    · rfl

/-! ## A small norm -/

/-- Every entry of the gradient is at most `b` in size, or it is positive and its variable on the
lower bound, or negative and its variable on the upper one. -/
def Stationary (lower upper x g : Vector α n) (b : α) : Prop :=
  ∀ i : Fin n, Scalar.abs (g.get i) ≤ b ∨
    ((x.get i ≤ lower.get i ∧ lower.get i ≤ x.get i) ∧ 0 < g.get i) ∨
    ((x.get i ≤ upper.get i ∧ upper.get i ≤ x.get i) ∧ g.get i < 0)

section

variable {C : Contract (merit α n)} {lower upper start : Vector α n}
  {settings : Minimize.Settings α} {o : Minimize.Outcome α n}

/-- An entry of the projected gradient is that of the gradient, except where that holds its variable
on a bound; and a point of the box that is on a bound or beyond is on it. -/
theorem stationary_of_infNorm_le (hlaws : Scalar.Normed α)
    (hbounds : ∀ i : Fin n, lower.get i ≤ upper.get i) {x g : Vector α n} {b : α}
    (hx : Minimize.InBox lower upper x) (hnumbers : (g.any fun a => !Scalar.isFinite a) = false)
    (hnorm : infNorm (Minimize.projected lower upper x g) ≤ b) :
    Stationary lower upper x g b := by
  intro i
  have hinside : ¬ x.get i < lower.get i ∧ ¬ upper.get i < x.get i := by
    obtain ⟨y, rfl⟩ := hx
    rw [clampTo, entry_ofFn]
    exact hlaws.not_lt_clamp (hbounds i) (y.get i)
  by_cases hlow : x.get i ≤ lower.get i ∧ 0 < g.get i
  · exact .inr (.inl ⟨⟨hlow.1, hlaws.le_of_not_lt _ _ hlow.1 hinside.1⟩, hlow.2⟩)
  by_cases hhigh : upper.get i ≤ x.get i ∧ g.get i < 0
  · exact .inr (.inr ⟨⟨hlaws.le_of_not_lt _ _ hhigh.1 hinside.2, hhigh.1⟩, hhigh.2⟩)
  -- the bound does not hold the variable, and the entry is left in the projected gradient
  have hfree : (Minimize.projected lower upper x g).get i = g.get i := by
    rw [Minimize.projected_getElem, if_neg (not_or.mpr ⟨hlow, hhigh⟩)]
  have hfinite : Scalar.isFinite (g.get i) := by
    have hentry : Scalar.isFinite g[i.val] = true := by
      simpa using Vector.any_eq_false.mp hnumbers i i.isLt
    exact hentry
  rw [← hfree] at hfinite ⊢
  exact .inl (hlaws.abs_le_of_infNorm_le hnorm hfinite)

/-- A minimisation that stops before a step has measured the gradient where it ends. -/
theorem stationary_of_yields (hlaws : Scalar.Normed α)
    (hbounds : ∀ i : Fin n, lower.get i ≤ upper.get i)
    (h : (minimize lower upper start settings).Yields C o)
    (hstop : o.stop = .converged ∨ o.stop = .lineSearchFailed) {norm b : α}
    (hnorm : o.gradientNorm = some norm) (hle : norm ≤ b) :
    ∃ g, C.replies (.gradient o.point) g ∧ Stationary lower upper o.point g b := by
  obtain ⟨value, -, -, rfl⟩ | ⟨k, last, s, hs, hend | rfl⟩ := minimize_yields h
  · cases hnorm
  · cases iterateOnce_yields hend with
    | nonFinite => cases hnorm
    | converged _ hnumbers | lineSearchFailed _ hnumbers =>
      obtain rfl := Option.some.inj hnorm
      exact ⟨s.gradient, hs.standing.gradient,
        stationary_of_infNorm_le hlaws hbounds hs.standing.inBox hnumbers hle⟩
    | smallStep => rcases hstop with hstop | hstop <;> cases hstop
  · -- the norm is left from the top of the last iteration, and the point is that after its step
    rcases hstop with hstop | hstop <;> cases hstop

/-! ## The last step -/

/-- An accepted step led from the iterate of `s` to the point `x` with the merit `v`, hardly moved,
and hardly changed the merit; it was the last of so many. -/
structure LastStep (C : Contract (merit α n)) (lower upper start : Vector α n)
    (settings : Minimize.Settings α) (s : Minimize.Iterate α n) (x : Vector α n) (v : α)
    (iterations : Nat) : Prop where
  /-- The state is that at the top of the last iteration. -/
  reached : ∃ k norm, Minimize.Reaches C lower upper start settings k norm s ∧ iterations = k + 1
  /-- The step is one that this iteration accepts. -/
  taken : ∃ t, Minimize.Takes C lower upper settings s t ∧ x = t.point ∧ v = t.value
  /-- The point has hardly moved. -/
  moved : infNorm (x - s.point) ≤ 1e-12 * (1 + infNorm s.point)
  /-- The merit has hardly changed. -/
  changed : Scalar.abs (s.value - v) ≤ 1e-15 * (1 + Scalar.abs s.value)

theorem lastStep_of_yields (h : (minimize lower upper start settings).Yields C o)
    (hstop : o.stop = .smallStep) :
    ∃ s, LastStep C lower upper start settings s o.point o.value o.iterations := by
  obtain ⟨value, -, -, rfl⟩ | ⟨k, norm, s, hs, hend | rfl⟩ := minimize_yields h
  · cases hstop
  · cases iterateOnce_yields hend with
    | nonFinite | converged | lineSearchFailed => cases hstop
    | @smallStep t g _ ht _ _ hstalled =>
      rw [Minimize.isStalled, Bool.and_eq_true, decide_eq_true_iff, decide_eq_true_iff, ht.step]
        at hstalled
      exact ⟨s, ⟨k, norm, hs, rfl⟩, ⟨t, ht, rfl, rfl⟩, hstalled.2, hstalled.1⟩
  · cases hstop

end

/-! ## The codes -/

theorem code_eq_succeeded {tolerance : α} {o : Minimize.Outcome α n} :
    code tolerance o = .succeeded ↔ o.stop = .converged := by
  unfold code
  cases o.stop with
  | converged => exact ⟨fun _ => rfl, fun _ => rfl⟩
  | lineSearchFailed =>
    dsimp only
    split <;> exact ⟨nofun, nofun⟩
  | smallStep | iterationLimit | nonFinite => exact ⟨nofun, nofun⟩

theorem code_eq_smallStep {tolerance : α} {o : Minimize.Outcome α n}
    (h : code tolerance o = .smallStep) :
    o.stop = .smallStep ∨ o.stop = .lineSearchFailed ∧
      ∃ norm, o.gradientNorm = some norm ∧ norm ≤ 100.0 * tolerance := by
  unfold code at h
  split at h
  · cases h
  · exact .inl ‹_›
  · next hstop =>
    split at h
    · next hnorm =>
      obtain ⟨norm, hsome, hle⟩ := (Option.any_eq_true _ _).mp hnorm
      exact .inr ⟨hstop, norm, hsome, of_decide_eq_true hle⟩
    · cases h
  · cases h
  · cases h

/-- What the code of a run says of the point `x` that it returns, where the run has begun at this
start and found the gradient `initial` there. -/
structure Explained (P : PureCallbacks α ε) (config : Config α) (problem : Layout α)
    (t : Termination α) (start : Start α problem.dimension)
    (initial x : Vector α problem.dimension) : Prop where
  checked : problem.checkedStart = .ok start
  box : start.lower.toList = problem.lower ∧ start.upper.toList = problem.upper
  begun : IsGradient P start.point initial
  point : t.point = x.toList
  values : P.evaluate t.point = .ok ⟨t.objective, t.constraints⟩
  /-- Success is that of the gradient at the point returned. -/
  succeeded : t.code = ReturnCode.succeeded.toInt → ∃ g, IsGradient P x g ∧
    Stationary start.lower start.upper x g (config.tolerance * Scalar.max (infNorm initial) 1)
  /-- Steps were too small where the gradient is nearly as small as that, or the last step was. -/
  smallStep : t.code = ReturnCode.smallStep.toInt →
    (∃ g, IsGradient P x g ∧ Stationary start.lower start.upper x g
      (100.0 * (config.tolerance * Scalar.max (infNorm initial) 1))) ∨
    ∃ s, LastStep (objective P.contract problem.dimension) start.lower start.upper start.point
        (settings config initial) s x t.objective t.iterations ∧
      ∃ before, P.evaluate s.point.toList = .ok before ∧ s.value = before.objective

/-- What the code of a run on pure callbacks says, in any arithmetic that has the laws of a norm. -/
theorem code_explained (hlaws : Scalar.Normed α)
    (hrun : P.run (solve config problem) = some (.ok t)) :
    ∃ start initial x, Explained P config problem t start initial x := by
  obtain ⟨-, start, initial, o, values, hstart, hinitial, hminimise, hvalues, rfl⟩ :=
    solve_eq_ok.mp hrun
  obtain ⟨hlower, hupper, hbounds, -⟩ := Layout.checkedStart_eq_ok hstart
  -- the run asks for the values at its end once more, and is given those that it has already
  have hobjective : o.value = values.objective := by
    obtain ⟨found, hfound, hmerit⟩ := objective_value_iff.mp (end_of_yields hminimise).2
    obtain rfl := Except.ok.inj (hfound.symm.trans hvalues)
    exact hmerit
  refine ⟨start, initial, o.point, hstart, ⟨hlower, hupper⟩, hinitial, rfl, hvalues,
    fun hcode => ?_, fun hcode => ?_⟩
  · have hstop := code_eq_succeeded.mp (ReturnCode.toInt_inj hcode)
    obtain ⟨norm, hnorm, hle⟩ := (converged_iff_of_yields hminimise).mp hstop
    obtain ⟨g, hg, hstationary⟩ :=
      stationary_of_yields hlaws hbounds hminimise (.inl hstop) hnorm hle
    exact ⟨g, objective_gradient_iff.mp hg, hstationary⟩
  · rcases code_eq_smallStep (ReturnCode.toInt_inj hcode) with hstop | ⟨hstop, norm, hnorm, hle⟩
    · obtain ⟨s, hlast⟩ := lastStep_of_yields hminimise hstop
      obtain ⟨k, norm, hs, -⟩ := hlast.reached
      rw [hobjective] at hlast
      exact .inr ⟨s, hlast, objective_value_iff.mp hs.standing.value⟩
    · obtain ⟨g, hg, hstationary⟩ :=
        stationary_of_yields hlaws hbounds hminimise (.inr hstop) hnorm hle
      exact .inl ⟨g, objective_gradient_iff.mp hg, hstationary⟩

/-! ## A ramp

The number `x` is minimised on `[0, 1]`, from `0`, which is where the minimum is.
-/

/-- The layout of the problem. -/
noncomputable def ramp : Layout ℝ :=
  ⟨1, [0], [1], [0], []⟩

/-- The objective `x`. -/
noncomputable def rampCallbacks : PureCallbacks ℝ Empty where
  evaluate x := .ok ⟨x.headD 0, []⟩
  jacobian _ := .ok ⟨1, 1, .replicate 1 (.replicate 1 1)⟩

theorem ramp_isGradient (x : Vector ℝ 1) : IsGradient rampCallbacks x #v[1] :=
  ⟨_, .replicate 1 (.replicate 1 1), rfl, Matrix.shaped?_mk _, rfl⟩

theorem run_ramp_solve :
    rampCallbacks.run (solve Config.default ramp) = some (.ok ⟨0, [0], 0, [], [], 0, [0]⟩) := by
  have htolerance : 0 ≤ (settings (Config.default : Config ℝ) #v[1]).tolerance :=
    mul_nonneg (by norm_num [Config.default]) (zero_le_one.trans (le_max_right _ _))
  have hminimise := AugmentedLagrangian.minimize_held (C := objective rampCallbacks.contract 1)
    rfl htolerance (objective_value_iff.mpr ⟨_, rfl, rfl⟩)
    (objective_gradient_iff.mpr (ramp_isGradient _))
  exact solve_eq_ok.mpr ⟨rfl, _, _, _, _, AugmentedLagrangian.segment_checkedStart [],
    ramp_isGradient _, hminimise, rfl, rfl⟩

/-! ## Two runs on doubles

The number `2 (x - 1/4)²` is minimised on `[0, 1]` from `0`, where a step of a quarter leads to the
minimum, and `-x / 1000` on `[0, 1e-13]`, which is too short for a step that counts.
-/

/-- The layout of the first problem. -/
def bowl : Layout Double :=
  ⟨1, [0], [1], [0], []⟩

/-- The objective `2 (x - 1/4)²`. -/
def bowlCallbacks : PureCallbacks Double Empty where
  evaluate x := .ok ⟨2.0 * (x.headD 0 - 0.25) * (x.headD 0 - 0.25), []⟩
  jacobian x := .ok ⟨1, 1, #v[#v[4.0 * (x.headD 0 - 0.25)]]⟩

/-- The layout of the second problem. -/
def ledge : Layout Double :=
  ⟨1, [0], [1e-13], [0], []⟩

/-- The objective `-x / 1000`. -/
def ledgeCallbacks : PureCallbacks Double Empty where
  evaluate x := .ok ⟨-(0.001 * x.headD 0), []⟩
  jacobian _ := .ok ⟨1, 1, #v[#v[-0.001]]⟩

/-- A run that comes to a termination with this code after so many iterations. -/
theorem exists_of_summary {P : PureCallbacks Double Empty} {config : Config Double}
    {problem : Layout Double} {code : Int} {iterations : Nat}
    (h : (P.run (solve config problem)).map
      (fun r => r.toOption.map fun t => (t.code, t.iterations)) = some (some (code, iterations))) :
    ∃ t, P.run (solve config problem) = some (.ok t) ∧ t.code = code ∧
      t.iterations = iterations := by
  obtain ⟨_ | t, hrun, hsummary⟩ := Option.map_eq_some_iff.mp h
  · cases hsummary
  · obtain ⟨hcode, hiterations⟩ := Prod.mk.inj (Option.some.inj hsummary)
    exact ⟨t, hrun, hcode, hiterations⟩

theorem run_bowl_solve :
    ∃ t, bowlCallbacks.run (solve .default bowl) = some (.ok t) ∧
      t.code = ReturnCode.succeeded.toInt ∧ t.iterations = 1 :=
  exists_of_summary (by decide +kernel)

theorem run_ledge_solve :
    ∃ t, ledgeCallbacks.run (solve .default ledge) = some (.ok t) ∧
      t.code = ReturnCode.smallStep.toInt ∧ t.iterations = 1 :=
  exists_of_summary (by decide +kernel)

/-- The run on the ramp succeeds at its start, with the gradient holding the variable on its lower
bound, that in the bowl after a step, and that on the ledge makes a step that is too small.  The
laws hold in either arithmetic. -/
theorem runs_explained :
    Scalar.Normed ℝ ∧ Scalar.Normed Double ∧
      (rampCallbacks.run (solve Config.default ramp) =
          some (.ok ⟨ReturnCode.succeeded.toInt, [0], 0, [], [], 0, [0]⟩) ∧
        ∃ start initial x,
          Explained rampCallbacks Config.default ramp ⟨0, [0], 0, [], [], 0, [0]⟩ start initial x) ∧
      (∃ t, bowlCallbacks.run (solve .default bowl) = some (.ok t) ∧
        t.code = ReturnCode.succeeded.toInt ∧ t.iterations = 1 ∧
        ∃ start initial x, Explained bowlCallbacks .default bowl t start initial x) ∧
      ∃ t, ledgeCallbacks.run (solve .default ledge) = some (.ok t) ∧
        t.code = ReturnCode.smallStep.toInt ∧ t.iterations = 1 ∧
        ∃ start initial x, Explained ledgeCallbacks .default ledge t start initial x := by
  obtain ⟨t, hbowl, hsucceeded, hone⟩ := run_bowl_solve
  obtain ⟨t', hledge, hsmall, hone'⟩ := run_ledge_solve
  exact ⟨Exact.normed, Double.normed,
    ⟨run_ramp_solve, code_explained Exact.normed run_ramp_solve⟩,
    ⟨t, hbowl, hsucceeded, hone, code_explained Double.normed hbowl⟩,
    t', hledge, hsmall, hone', code_explained Double.normed hledge⟩

end Nlp.ProjectedBfgs
