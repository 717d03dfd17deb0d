import Nlp.Proofs.Solver.Codes
import Nlp.Proofs.Solver.Consistency

/-!
# The two solvers without constraints

Without constraint rows the merit of the augmented Lagrangian solver is the objective, its measure
is zero, and its first outer iteration is the whole run of the solver for bounds.  The two reach the
minimisation by different ways: one remembers the values it was given last, asks for values before
it asks for a gradient, and looks at the norm afterwards; the other asks for each as it comes, and
looks at the reason of the stop.  On pure callbacks that do not tell the two zeros apart, both
succeed on the same problems, at the same point.

The one exception is a run for which there is no room: the augmented Lagrangian solver takes room
for its whole history before its first iteration, the solver for bounds does not.

## Main definitions

* `AugmentedLagrangian.objectives`: the objective and its gradient, where the callbacks have values.
* `Termination.Succeeds`: success at a point, with an objective.
* `Layout.Converges`: the minimisation of the objective, from the start of a problem, converges.

## Main results

* `AugmentedLagrangian.minimised_iff`: the minimisation of an outer iteration is that of the
  objective.
* `ProjectedBfgs.solve_succeeds_iff`, `AugmentedLagrangian.solve_succeeds_iff`: when a run of either
  solver succeeds.
* `solvers_agree`: both solvers together.
-/

namespace Nlp

variable {α ε : Type}

/-- The run has succeeded, at this point and with this objective. -/
structure Termination.Succeeds (t : Termination α) (x : List α) (f : α) : Prop where
  code : t.code = ReturnCode.succeeded.toInt
  point : t.point = x
  objective : t.objective = f

variable [Scalar α] {n : Nat} {P : PureCallbacks α ε}

/-- The minimisation of the objective from the start of the problem converges, at this point and
with this objective.  Its settings may depend on the gradient at the start. -/
def Layout.Converges (problem : Layout α) (P : PureCallbacks α ε)
    (settings : Vector α problem.dimension → Minimize.Settings α) (x : List α) (f : α) : Prop :=
  ∃ start initial o values, problem.checkedStart = .ok start ∧
    ProjectedBfgs.IsGradient P start.point initial ∧
    (minimize start.lower start.upper start.point (settings initial)).Yields
      (ProjectedBfgs.objective P.contract problem.dimension) o ∧
    P.evaluate o.point.toList = .ok values ∧
    o.stop = .converged ∧ o.point.toList = x ∧ values.objective = f

/-- It does so whether it reports or not. -/
theorem Layout.Converges.reporting {problem : Layout α}
    {settings : Vector α problem.dimension → Minimize.Settings α} {x : List α} {f : α}
    (h : problem.Converges P settings x f) (verbose : Bool) :
    problem.Converges P (fun initial => { settings initial with verbose }) x f := by
  obtain ⟨start, initial, o, values, hstart, hinitial, hyields, hend⟩ := h
  have hsame : Minimize.Carries (ProjectedBfgs.objective P.contract problem.dimension)
      (ProjectedBfgs.objective P.contract problem.dimension) :=
    ⟨fun _ _ hv => hv, fun _ _ _ _ hg => hg, fun _ => trivial⟩
  exact ⟨start, initial, o, values, hstart, hinitial,
    minimize_yields_of_carries hsame verbose hyields, hend⟩

/-! ## The solver for bounds -/

/-- A run of the solver for bounds succeeds where its minimisation converges. -/
theorem ProjectedBfgs.solve_succeeds_iff {config : Config α} {problem : Layout α} {x : List α}
    {f : α} :
    (∃ t, P.run (solve config problem) = some (.ok t) ∧ t.Succeeds x f) ↔
      problem.rows = [] ∧ problem.Converges P (settings config) x f := by
  constructor
  · rintro ⟨t, hrun, hcode, rfl, rfl⟩
    obtain ⟨hrows, start, initial, o, values, hstart, hinitial, hminimise, hvalues, rfl⟩ :=
      solve_eq_ok.mp hrun
    exact ⟨hrows, start, initial, o, values, hstart, hinitial, hminimise, hvalues,
      code_eq_succeeded.mp (ReturnCode.toInt_inj hcode), rfl, rfl⟩
  · rintro ⟨hrows, start, initial, o, values, hstart, hinitial, hminimise, hvalues, hstop, rfl, rfl⟩
    exact ⟨_, solve_eq_ok.mpr ⟨hrows, start, initial, o, values, hstart, hinitial, hminimise,
      hvalues, rfl⟩, congrArg ReturnCode.toInt (code_eq_succeeded.mpr hstop), rfl, rfl⟩

namespace AugmentedLagrangian

/-! ## The merit without rows -/

/-- The objective and its gradient, where the callbacks have values. -/
def objectives (P : PureCallbacks α ε) (n : Nat) : Contract (merit α n) where
  asks _ := True
  replies
    | .value x, v => ∃ values, P.evaluate x.toList = .ok values ∧ v = values.objective
    | .gradient x, g => (∃ values, P.evaluate x.toList = .ok values) ∧
        ProjectedBfgs.IsGradient P x g
    | .report _, _ => True

omit [Scalar α] in
/-- A minimisation relies on the gradients where it has found values only. -/
theorem carries_objectives :
    Minimize.Carries (ProjectedBfgs.objective P.contract n) (objectives P n) where
  value _ _ hv := ProjectedBfgs.objective_value_iff.mp hv
  gradient _ _ _ hv hg :=
    have ⟨values, hvalues, _⟩ := ProjectedBfgs.objective_value_iff.mp hv
    ⟨⟨values, hvalues⟩, ProjectedBfgs.objective_gradient_iff.mp hg⟩
  report _ := trivial

omit [Scalar α] in
theorem carries_objective :
    Minimize.Carries (objectives P n) (ProjectedBfgs.objective P.contract n) where
  value _ _ hv := ProjectedBfgs.objective_value_iff.mpr hv
  gradient _ _ _ _ hg := ProjectedBfgs.objective_gradient_iff.mpr hg.2
  report _ := trivial

/-- Every result is as given, and leaves values in the cache that are those at their point. -/
abbrev ensuresKnown (P : PureCallbacks α ε) (n : Nat) : Always (StateT (Cache α n) (Run α ε)) :=
  P.ensures.state (Cache.Holds fun x values => P.evaluate x = .ok values)

section

variable (hnumeric : P.Numeric)
  (hempty : ∀ x values, P.evaluate x = .ok values → values.constraints = [])
include hnumeric

theorem ensures_valuesAt_of_numeric (x : Vector α n) :
    (ensuresKnown P n).holds (valuesAt x) fun values => P.evaluate x.toList = .ok values := by
  refine (ensuresKnown P n).mono _ ?_ (holds_valuesAt_of_evaluate P.ensures _
    (PureCallbacks.ensures_evaluate x.toList))
  rintro values ⟨y, rfl | hsame, hvalues⟩
  · exact hvalues
  · rwa [← hnumeric y _ hsame]

theorem run_valuesAt_of_numeric {x : Vector α n} {values : Values α}
    (hvalues : P.evaluate x.toList = .ok values) {cache : Cache α n}
    (hcache : Cache.Holds (fun y v => P.evaluate y = .ok v) cache) :
    ∃ cache', Cache.Holds (fun y v => P.evaluate y = .ok v) cache' ∧
      P.run ((valuesAt x).run cache) = some (.ok (values, cache')) :=
  run_valuesAt_of_same hvalues (fun y hsame => hnumeric y _ hsame) hcache

include hempty

omit hnumeric in
/-- Without rows there is nothing that a merit adds to the objective. -/
theorem meritValue_of_empty (p : Penalised α 0) {x : List α} {values : Values α}
    (hvalues : P.evaluate x = .ok values) : meritValue p values = values.objective := by
  rw [meritValue, hempty _ _ hvalues]
  rfl

omit hnumeric in
theorem meritGradient_of_empty (p : Penalised α 0) {x : List α} {values : Values α}
    (hvalues : P.evaluate x = .ok values) (jacobian : Vector (Vector α n) (1 + 0)) :
    meritGradient p values.constraints jacobian = objectiveGradient jacobian := by
  rw [meritGradient, hempty _ _ hvalues]
  rfl

omit [Scalar α] hnumeric in
theorem length_le_of_empty {x : List α} {values : Values α} (hvalues : P.evaluate x = .ok values) :
    values.constraints.length ≤ 0 := by
  rw [hempty _ _ hvalues]
  exact Nat.le_refl 0

/-- Without rows, the answers to a minimisation are the objective and its gradient. -/
theorem ensures_objectives (p : Penalised α 0) (c : MeritCall α n) :
    (ensuresKnown P n).holds (answer p c) ((objectives P n).replies c) := by
  -- without rows the merit is the objective, and its gradient the first row
  cases c with
  | value x =>
    refine (ensuresKnown P n).mono _ ?_ (holds_answer_value_of_parts P.ensures p
      (ensures_valuesAt_of_numeric hnumeric x)
      fun _ _ _ _ => PureCallbacks.ensures_outOfRange _ _ _)
    rintro _ ⟨values, hvalues, -, rfl⟩
    exact ⟨values, hvalues, meritValue_of_empty hempty p hvalues⟩
  | gradient x =>
    have hjacobian : P.ensures.holds (do Run.shaped (← Run.jacobian x.toList) (1 + 0) n)
        fun entries => ∃ a, P.jacobian x.toList = .ok a ∧ a.shaped? (1 + 0) n = some entries := by
      refine P.ensures.chain (PureCallbacks.ensures_jacobian x.toList) fun a ha => ?_
      exact P.ensures.mono _ (fun entries hentries => ⟨a, ha, hentries⟩)
        (PureCallbacks.ensures_shaped a (1 + 0) n)
    refine (ensuresKnown P n).mono _ ?_ (holds_answer_gradient_of_parts P.ensures p
      (ensures_valuesAt_of_numeric hnumeric x) hjacobian
      fun _ _ _ _ => PureCallbacks.ensures_outOfRange _ _ _)
    rintro _ ⟨values, entries, hvalues, -, ⟨a, ha, hentries⟩, rfl⟩
    exact ⟨⟨values, hvalues⟩, a, entries, ha, hentries, meritGradient_of_empty hempty p hvalues _⟩
  | report event => exact P.ensures.holds_lift_state _ (PureCallbacks.ensures_report event)

/-- And there are these answers. -/
theorem run_objectives (p : Penalised α 0) (c : MeritCall α n) (reply : (merit α n).Reply c)
    (cache : Cache α n) (hcache : Cache.Holds (fun x values => P.evaluate x = .ok values) cache)
    (h : (objectives P n).replies c reply) :
    ∃ cache', Cache.Holds (fun x values => P.evaluate x = .ok values) cache' ∧
      P.run ((answer p c).run cache) = some (.ok (reply, cache')) := by
  cases c with
  | value x =>
    obtain ⟨values, hvalues, rfl⟩ := h
    obtain ⟨cache', hcache', hrun⟩ := run_valuesAt_of_numeric hnumeric hvalues hcache
    refine ⟨cache', hcache', ?_⟩
    rw [← meritValue_of_empty hempty p hvalues]
    exact run_answer_value hrun (length_le_of_empty hempty hvalues)
  | gradient x =>
    obtain ⟨⟨values, hvalues⟩, a, entries, ha, hentries, rfl⟩ := h
    obtain ⟨cache', hcache', hrun⟩ := run_valuesAt_of_numeric hnumeric hvalues hcache
    refine ⟨cache', hcache', ?_⟩
    refine (run_answer_gradient (p := p) hrun (length_le_of_empty hempty hvalues)
      (run_shaped_jacobian ha hentries)).trans ?_
    rw [meritGradient_of_empty hempty p hvalues]
    rfl
  | report event => exact ⟨cache, hcache, rfl⟩

/-! ## The first outer iteration -/

variable {config : Config α} {senses : Vector Sense 0} {lower upper : Vector α n}
  {s : Outer α n 0}

/-- The minimisation of an outer iteration is that of the objective. -/
theorem minimised_iff {jacobian : Vector (Vector α n) (1 + 0)} {inner : Minimize.Outcome α n}
    {values : Values α} :
    Minimised P config senses lower upper s jacobian inner values ↔
      (∃ a, P.jacobian s.point.toList = .ok a ∧ a.shaped? (1 + 0) n = some jacobian) ∧
      (minimize lower upper s.point (innerSettings config jacobian)).Yields
        (ProjectedBfgs.objective P.contract n) inner ∧
      P.evaluate inner.point.toList = .ok values := by
  constructor
  · -- the cache is empty at first, and so holds only what the callbacks have at its point
    rintro ⟨hbegun, cache, cache', hminimize, hvalues⟩
    have hyields := Program.yields_interpret (ensuresKnown P n) (fun _ => trivial)
      (ensures_objectives hnumeric hempty (s.rows senses))
      (minimize lower upper s.point (innerSettings config jacobian))
    obtain ⟨hinner, hcache⟩ := PureCallbacks.of_run (hyields none Cache.holds_none) hminimize
    have hfound := PureCallbacks.of_run
      (ensures_valuesAt_of_numeric hnumeric inner.point cache hcache) hvalues
    exact ⟨hbegun, minimize_yields_of_carries carries_objective _ hinner, hfound.1⟩
  · rintro ⟨hbegun, hyields, hvalues⟩
    have hobjectives := minimize_yields_of_carries carries_objectives
      (innerSettings config jacobian).verbose hyields
    obtain ⟨cache, hcache, hminimize⟩ := PureCallbacks.run_interpret_state_of_yields
      (run_objectives hnumeric hempty (s.rows senses)) hobjectives Cache.holds_none
    obtain ⟨cache', -, hrun⟩ := run_valuesAt_of_numeric hnumeric hvalues hcache
    exact ⟨hbegun, cache, cache', hminimize, hrun⟩

/-- An outer iteration succeeds exactly if its minimisation converges: its measure is zero, and what
has converged has ended in numbers. -/
theorem outerIteration_succeeds_iff (hlaws : Scalar.Normed α) (hconfig : config.Valid)
    (outer : Nat) {t : Termination α} :
    (P.run (outerIteration config senses lower upper outer s) = some (.ok (.ended t)) ∧
        t.code = ReturnCode.succeeded.toInt) ↔
      ∃ jacobian inner values, Minimised P config senses lower upper s jacobian inner values ∧
        inner.stop = .converged ∧ t = s.ended senses outer inner values #v[] .succeeded := by
  have hother (code : ReturnCode) (h : code ≠ .succeeded) :
      code.toInt ≠ ReturnCode.succeeded.toInt :=
    fun heq => h (ReturnCode.toInt_inj heq)
  constructor
  · rintro ⟨hrun, hcode⟩
    cases outerIteration_turn hrun with
    | nonFinite => exact absurd hcode (hother .diverging (by decide))
    | @numbers jacobian inner values constraints _ h _ _ hconclusion =>
      -- of the three ends in numbers only one has this code
      cases hconclusion with
      | succeeded hsuccess =>
        obtain ⟨-, hyields, -⟩ := (minimised_iff hnumeric hempty).mp h
        obtain ⟨norm, hnorm, hle⟩ := (Option.any_eq_true _ _).mp hsuccess.2
        have hstop := (converged_iff_of_yields hyields).mpr ⟨norm, hnorm, of_decide_eq_true hle⟩
        obtain rfl : constraints = #v[] := Vector.eq_empty
        exact ⟨jacobian, inner, values, h, hstop, rfl⟩
      | unbounded => exact absurd hcode (hother .diverging (by decide))
      | infeasible => exact absurd hcode (hother .infeasible (by decide))
  · rintro ⟨jacobian, inner, values, h, hstop, rfl⟩
    obtain ⟨-, hyields, hvalues⟩ := (minimised_iff hnumeric hempty).mp h
    -- the values at the end are those that the minimisation has tested, and rows there are none
    have hfinite : values.isFinite = true := by
      obtain ⟨found, hfound, hobjective⟩ :=
        ProjectedBfgs.objective_value_iff.mp (end_of_yields hyields).2
      obtain rfl := Except.ok.inj (hfound.symm.trans hvalues)
      have hvalue := (Minimize.entries_of_yields hyields).2 (by rw [hstop]; exact nofun)
      rw [Values.isFinite_iff, ← hobjective, hempty _ _ hvalues]
      exact ⟨hvalue, nofun⟩
    have hnumber : ¬ (inner.stop = .nonFinite ∨ ¬ values.isFinite) := by
      rw [hstop]
      exact not_or.mpr ⟨nofun, not_not.mpr hfinite⟩
    -- the measure of no rows is zero
    have hsuccess : s.Succeeds config senses jacobian inner #v[] := by
      obtain ⟨norm, hnorm, hle⟩ := (converged_iff_of_yields hyields).mp hstop
      exact ⟨hlaws.le_of_lt _ _ hconfig.constraintTolerance.1,
        (Option.any_eq_true _ _).mpr ⟨norm, hnorm, decide_eq_true hle⟩⟩
    exact ⟨run_of_turn (.numbers h hnumber rfl (.succeeded hsuccess)), rfl⟩

/-- The settings of a minimisation that begins with this gradient of the objective. -/
def objectiveSettings (config : Config α) (initial : Vector α n) : Minimize.Settings α where
  maxIterations := config.maxInner
  tolerance := config.tolerance * Scalar.max (infNorm initial) 1
  maxStepRatio := config.maxStepRatio
  verbose := decide (5 ≤ config.printLevel)

/-- A run succeeds in its first outer iteration exactly if the minimisation of that converges. -/
theorem solve_succeeds_iff (hlaws : Scalar.Normed α) (hvalid : config.validate = .ok ())
    (hroom : config.maxOuter ≤ historyCapacity) {problem : Layout α} (hrows : problem.rows = [])
    {x : List α} {f : α} :
    (∃ t, P.run (solve config problem) = some (.ok t) ∧ t.Succeeds x f ∧ t.iterations = 1) ↔
      problem.Converges P (objectiveSettings config) x f := by
  obtain ⟨n, lower, upper, point, rows⟩ := problem
  obtain rfl : rows = [] := hrows
  have hconfig := Config.valid_of_validate hvalid
  constructor
  · rintro ⟨t, hrun, ⟨hcode, rfl, rfl⟩, hiterations⟩
    obtain ⟨start, hstart, hrun⟩ := solve_eq_ok hrun
    obtain ⟨k, last, hlast, hend | ⟨-, hend⟩⟩ := outerIterations_ended .start hrun
    · obtain ⟨jacobian, inner, values, h, hstop, rfl⟩ :=
        (outerIteration_succeeds_iff hnumeric hempty hlaws hconfig k).mp ⟨hend, hcode⟩
      -- it was the first iteration, and so began at the start
      obtain rfl : k = 0 := Nat.succ.inj hiterations
      cases hlast
      obtain ⟨⟨a, ha, hshaped⟩, hyields, hvalues⟩ := (minimised_iff hnumeric hempty).mp h
      exact ⟨start, _, inner, values, hstart, ⟨a, jacobian, ha, hshaped, rfl⟩, hyields, hvalues,
        hstop, rfl, rfl⟩
    · -- a run whose iterations are used up has another code
      exact absurd hcode (PureCallbacks.of_run (ensures_exhausted config k last) hend)
  · rintro ⟨start, _, inner, values, hstart, ⟨a, jacobian, ha, hshaped, rfl⟩, hyields, hvalues,
      hstop, rfl, rfl⟩
    have hfirst : Minimised P config (⟨[].toArray, rfl⟩ : Vector Sense 0) start.lower start.upper
        (.first config start.point) jacobian inner values :=
      (minimised_iff hnumeric hempty).mpr ⟨⟨a, ha, hshaped⟩, hyields, hvalues⟩
    obtain ⟨hrun, hcode⟩ := (outerIteration_succeeds_iff hnumeric hempty hlaws hconfig 0).mpr
      ⟨jacobian, inner, values, hfirst, hstop, rfl⟩
    obtain ⟨k, hmost⟩ := Nat.exists_eq_succ_of_ne_zero hconfig.limits.1
    refine ⟨_, ?_, ⟨hcode, rfl, rfl⟩, rfl⟩
    rw [solve, hstart]
    dsimp only
    rw [if_neg (Nat.not_lt.mpr hroom), hmost, outerIterations]
    exact PureCallbacks.run_bind_eq_ok.mpr ⟨_, hrun, rfl⟩

end

/-- Where there is no room for a full history, a run does not come to its first iteration. -/
theorem run_solve_without_room {config : Config α} (hroom : historyCapacity < config.maxOuter)
    {problem : Layout α} {start : Start α problem.dimension}
    (hstart : problem.checkedStart = .ok start) : P.run (solve config problem) = none := by
  rw [solve, hstart]
  dsimp only
  rw [if_pos hroom]
  rfl

end AugmentedLagrangian

/-! ## Both solvers -/

/-- Without constraints, and with the same tolerance, step ratio and number of iterations, a run of
the solver for bounds succeeds exactly if one of the augmented Lagrangian solver succeeds in its
first outer iteration, at the same point and with the same objective, provided that the latter has
room for its history.  If it has not, the latter comes to nothing, whatever the former does. -/
theorem solvers_agree (hlaws : Scalar.Normed α) (hnumeric : P.Numeric)
    (hempty : ∀ x values, P.evaluate x = .ok values → values.constraints = [])
    {problem : Layout α} (hrows : problem.rows = []) {outer : AugmentedLagrangian.Config α}
    {bounds : ProjectedBfgs.Config α} (hvalid : outer.validate = .ok ())
    (htolerance : outer.tolerance = bounds.tolerance)
    (hratio : outer.maxStepRatio = bounds.maxStepRatio)
    (hmost : outer.maxInner = bounds.maxIterations) :
    (outer.maxOuter ≤ AugmentedLagrangian.historyCapacity → ∀ x f,
      (∃ t, P.run (ProjectedBfgs.solve bounds problem) = some (.ok t) ∧ t.Succeeds x f) ↔
        ∃ t, P.run (AugmentedLagrangian.solve outer problem) = some (.ok t) ∧ t.Succeeds x f ∧
          t.iterations = 1) ∧
    (AugmentedLagrangian.historyCapacity < outer.maxOuter → ∀ start,
      problem.checkedStart = .ok start →
        P.run (AugmentedLagrangian.solve outer problem) = none) := by
  refine ⟨fun hroom x f => ?_, fun hroom _ hstart =>
    AugmentedLagrangian.run_solve_without_room hroom hstart⟩
  -- the two minimisations have the same settings, up to their reports
  have hsettings (verbose : Bool) :
      (fun initial : Vector α problem.dimension =>
        { AugmentedLagrangian.objectiveSettings outer initial with verbose }) =
      fun initial => { ProjectedBfgs.settings bounds initial with verbose } := by
    simp only [AugmentedLagrangian.objectiveSettings, ProjectedBfgs.settings, hmost, htolerance,
      hratio]
  rw [ProjectedBfgs.solve_succeeds_iff,
    AugmentedLagrangian.solve_succeeds_iff hnumeric hempty hlaws hvalid hroom hrows]
  constructor
  · rintro ⟨-, hconverges⟩
    have h := hconverges.reporting (decide (5 ≤ outer.printLevel))
    rwa [← hsettings] at h
  · intro hconverges
    have h := hconverges.reporting (decide (5 ≤ bounds.printLevel))
    rw [hsettings] at h
    exact ⟨hrows, h⟩

/-! ## Both solvers on the ramp -/

/-- Default settings, except for so many outer iterations, and as many inner ones as the solver for
bounds makes by default. -/
noncomputable def rampConfig (maxOuter : Nat) : AugmentedLagrangian.Config ℝ :=
  { AugmentedLagrangian.Config.default with maxOuter, maxInner := 500 }

theorem rampConfig_validate {maxOuter : Nat} (h : maxOuter ≠ 0) :
    (rampConfig maxOuter).validate = .ok () := by
  simp [AugmentedLagrangian.Config.validate, rampConfig, AugmentedLagrangian.Config.default,
    requirePositive, h]
  norm_num
  rfl

/-- With fifty outer iterations the augmented Lagrangian solver succeeds on the ramp in the first of
them, because the solver for bounds does; with `2 ^ 60` of them it comes to nothing. -/
theorem ramp_agrees :
    (∃ t, ProjectedBfgs.rampCallbacks.run
        (AugmentedLagrangian.solve (rampConfig 50) ProjectedBfgs.ramp) = some (.ok t) ∧
      t.Succeeds [0] 0 ∧ t.iterations = 1) ∧
    ProjectedBfgs.rampCallbacks.run
      (AugmentedLagrangian.solve (rampConfig (2 ^ 60)) ProjectedBfgs.ramp) = none := by
  have hempty (x : List ℝ) (values : Values ℝ)
      (h : ProjectedBfgs.rampCallbacks.evaluate x = .ok values) : values.constraints = [] := by
    obtain rfl := Except.ok.inj h
    rfl
  have hsucceeds : ∃ t, ProjectedBfgs.rampCallbacks.run
      (ProjectedBfgs.solve .default ProjectedBfgs.ramp) = some (.ok t) ∧ t.Succeeds [0] 0 :=
    ⟨_, ProjectedBfgs.run_ramp_solve, rfl, rfl, rfl⟩
  have htolerance (maxOuter : Nat) : (rampConfig maxOuter).tolerance =
      (ProjectedBfgs.Config.default : ProjectedBfgs.Config ℝ).tolerance := rfl
  have hrows : ProjectedBfgs.ramp.rows = [] := rfl
  obtain ⟨hagree, -⟩ := solvers_agree Exact.normed (Exact.numeric _) hempty hrows
    (rampConfig_validate (by decide)) (htolerance 50) rfl rfl
  obtain ⟨-, hastray⟩ := solvers_agree Exact.normed (Exact.numeric _) hempty hrows
    (rampConfig_validate (by decide)) (htolerance (2 ^ 60)) rfl rfl
  exact ⟨(hagree (by decide) _ _).mp hsucceeds,
    hastray (by decide) _ (AugmentedLagrangian.segment_checkedStart [])⟩

/-- Valid settings, the same for both solvers, with which one succeeds and the other has no room. -/
theorem ramp_without_room :
    (rampConfig (2 ^ 60)).validate = .ok () ∧
      (ProjectedBfgs.Config.default : ProjectedBfgs.Config ℝ).validate = .ok () ∧
      (∃ t, ProjectedBfgs.rampCallbacks.run
          (ProjectedBfgs.solve .default ProjectedBfgs.ramp) = some (.ok t) ∧
        t.code = ReturnCode.succeeded.toInt) ∧
      ProjectedBfgs.rampCallbacks.run
        (AugmentedLagrangian.solve (rampConfig (2 ^ 60)) ProjectedBfgs.ramp) = none := by
  have hbounds : (ProjectedBfgs.Config.default : ProjectedBfgs.Config ℝ).validate = .ok () :=
    bind_eq_ok.mpr
      ⟨(), requirePositive_eq_ok.mpr ⟨by norm_num [ProjectedBfgs.Config.default], rfl⟩,
        requirePositive_eq_ok.mpr ⟨by norm_num [ProjectedBfgs.Config.default], rfl⟩⟩
  exact ⟨rampConfig_validate (by decide), hbounds, ⟨_, ProjectedBfgs.run_ramp_solve, rfl⟩,
    AugmentedLagrangian.run_solve_without_room (by decide)
      (AugmentedLagrangian.segment_checkedStart [])⟩

end Nlp
