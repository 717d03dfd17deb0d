import Nlp.Solver.Config
import Nlp.Solver.Minimize

/-!
# The projected BFGS solver

The inner minimisation applied to the objective alone, for problems whose only constraints are
bounds.  The tolerance is relative to the size of the gradient at the start.
-/

namespace Nlp.ProjectedBfgs

variable {α ε : Type} [Scalar α]

/-- The objective as a merit: its value is the objective, its gradient the only row of the
Jacobian. -/
def answer {n : Nat} : (c : MeritCall α n) → Run α ε ((merit α n).Reply c)
  | .value x => return (← Run.evaluate x.toList).objective
  | .gradient x => do
    let entries ← Run.shaped (← Run.jacobian x.toList) 1 n
    return entries.get ⟨0, Nat.one_pos⟩
  | .report p => Run.report p

/-- The return code of an outcome.  A failed line search counts as a small step where the
projected gradient is within a hundred times the tolerance. -/
def code {n : Nat} (tolerance : α) (outcome : Minimize.Outcome α n) : ReturnCode :=
  match outcome.stop with
  | .converged => .succeeded
  | .smallStep => .smallStep
  | .lineSearchFailed =>
    if outcome.gradientNorm.any fun norm => decide (norm ≤ 100.0 * tolerance) then .smallStep
    else .lineSearchFailed
  | .iterationLimit => .iterationLimit
  | .nonFinite => .diverging

/-- A run of the solver.  Constraint rows are refused before anything else is looked at. -/
def solve (config : Config α) (problem : Layout α) : Run α ε (Termination α) := do
  if problem.rows ≠ [] then
    Run.refuse (.unsupported (.constraintRows problem.rows.length))
  match problem.checkedStart with
  | .error e => Run.refuse e
  | .ok start =>
    let initial ← Run.shaped (← Run.jacobian start.point.toList) 1 problem.dimension
    let size := Scalar.max (infNorm (initial.get ⟨0, Nat.one_pos⟩)) 1
    let tolerance := config.tolerance * size
    let outcome ← (minimize start.lower start.upper start.point
      { maxIterations := config.maxIterations
        tolerance
        maxStepRatio := config.maxStepRatio
        verbose := decide (5 ≤ config.printLevel) }).interpret answer
    let values ← Run.evaluate outcome.point.toList
    let code := code tolerance outcome
    if 1 ≤ config.printLevel then
      Run.report (.finished .projectedBfgs code outcome.iterations values.objective)
    return {
      code := code.toInt
      point := outcome.point.toList
      objective := values.objective
      constraints := values.constraints
      multipliers := []
      iterations := outcome.iterations
      history := outcome.trace.toList }

/-- A run of the solver whose configuration is tested first. -/
def run (config : Config α) (problem : Layout α) : Run α ε (Termination α) :=
  match config.validate with
  | .error e => Run.refuse e
  | .ok () => solve config problem

end Nlp.ProjectedBfgs
