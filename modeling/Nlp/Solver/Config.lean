import Nlp.Solver.Basic

/-!
# Solver configurations

The settings of the two solvers, their defaults, and the test a configuration has to pass before
a run.  Settings are tested in a fixed order, and the first fault is the error.
-/

namespace Nlp

variable {α : Type} [Scalar α]

/-- A setting has to be a positive finite number. -/
def requirePositive (field : String) (value : α) : Except (SolverError α) Unit :=
  if 0 < value ∧ Scalar.isFinite value then .ok ()
  else .error (.invalidConfig (.notPositive field value))

namespace AugmentedLagrangian

/-- Settings of the augmented Lagrangian solver. -/
structure Config (α : Type) where
  /-- 0 silent, 1 final status, 3 outer iterations, 5 every inner step. -/
  printLevel : Nat
  /-- Most outer iterations. -/
  maxOuter : Nat
  /-- Most inner iterations per outer one. -/
  maxInner : Nat
  /-- Stationarity tolerance, relative to the scale of the objective gradient. -/
  tolerance : α
  /-- Absolute tolerance on feasibility and complementarity. -/
  constraintTolerance : α
  /-- The looser tolerance of an acceptable point. -/
  acceptableTolerance : α
  /-- The first penalty. -/
  penaltyInit : α
  /-- The factor by which the penalty grows. -/
  penaltyGrowth : α
  /-- The ceiling of the penalty. -/
  penaltyMax : α
  /-- Longest trial step as a fraction of the point's size, at least one. -/
  maxStepRatio : α
deriving DecidableEq

/-- The default settings. -/
def Config.default : Config α where
  printLevel := 0
  maxOuter := 50
  maxInner := 200
  tolerance := 1e-6
  constraintTolerance := 1e-6
  acceptableTolerance := 1e-4
  penaltyInit := 10.0
  penaltyGrowth := 10.0
  penaltyMax := 1e8
  maxStepRatio := 0.25

/-- Both iteration limits are positive, every tolerance, the first penalty and the step ratio
are positive and finite, the penalty grows, and its ceiling is not below its start. -/
def Config.validate (c : Config α) : Except (SolverError α) Unit := do
  if c.maxOuter = 0 ∨ c.maxInner = 0 then
    throw (.invalidConfig .iterationLimits)
  requirePositive "tolerance" c.tolerance
  requirePositive "constraint_tolerance" c.constraintTolerance
  requirePositive "acceptable_tolerance" c.acceptableTolerance
  requirePositive "penalty_init" c.penaltyInit
  requirePositive "max_step_ratio" c.maxStepRatio
  if ¬ (1 < c.penaltyGrowth) then
    throw (.invalidConfig (.growth c.penaltyGrowth))
  if ¬ (c.penaltyInit ≤ c.penaltyMax) then
    throw (.invalidConfig (.ceiling c.penaltyMax c.penaltyInit))

end AugmentedLagrangian

namespace ProjectedBfgs

/-- Settings of the projected BFGS solver. -/
structure Config (α : Type) where
  /-- 0 silent, 1 final status, 5 every step. -/
  printLevel : Nat
  /-- Most iterations. -/
  maxIterations : Nat
  /-- Stationarity tolerance, relative to the scale of the objective gradient. -/
  tolerance : α
  /-- Longest trial step as a fraction of the point's size, at least one. -/
  maxStepRatio : α
deriving DecidableEq

/-- The default settings. -/
def Config.default : Config α where
  printLevel := 0
  maxIterations := 500
  tolerance := 1e-6
  maxStepRatio := 0.25

/-- The iteration limit is positive, and tolerance and step ratio are positive and finite. -/
def Config.validate (c : Config α) : Except (SolverError α) Unit := do
  if c.maxIterations = 0 then
    throw (.invalidConfig .iterationLimit)
  requirePositive "tolerance" c.tolerance
  requirePositive "max_step_ratio" c.maxStepRatio

end ProjectedBfgs

end Nlp
