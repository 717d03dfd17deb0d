import Nlp.Decimal.Style
import Nlp.Json.Basic
import Nlp.Solver.Config

/-!
# Configurations as records

The fields of a solver's configuration by name, in order: as text for people, and as JSON.

## Main definitions

* `Quantity`: what a field holds.
* `Configuration`: a configuration with its fields; `Configuration.describe`,
  `Configuration.toJson`, `Configuration.ofJson?`.
-/

namespace Nlp

/-- What a field of a configuration holds. -/
inductive Quantity where
  /-- A count. -/
  | natural (n : Nat)
  /-- A number. -/
  | number (d : Double)

namespace Quantity

/-- The quantity in words. -/
def text : Quantity → String
  | natural n => toString n
  | number d => d.text .field

/-- The quantity as a JSON value. -/
def toJson : Quantity → Json
  | natural n => .ofNat n
  | number d => .ofDouble d

end Quantity

/-- A configuration with its fields. -/
class Configuration (κ : Type) where
  /-- The name of the configuration. -/
  title : String
  /-- The names of the fields. -/
  fieldNames : List String
  /-- The fields, in the order of their names. -/
  quantities : κ → List Quantity
  /-- The configuration with these fields. -/
  ofFields? : List Json → Option κ

namespace Configuration

variable {κ : Type} [Configuration κ]

/-- The fields with their names. -/
def fields (c : κ) : List (String × Quantity) :=
  (fieldNames κ).zip (quantities c)

/-- The configuration in words, on one line. -/
def describe (c : κ) : String :=
  title κ ++ " \x7b " ++
    ", ".intercalate ((fields c).map fun (name, q) => name ++ ": " ++ q.text) ++ " \x7d"

/-- The configuration as an object. -/
def toJson (c : κ) : Json :=
  .object ((fields c).map fun (name, q) => (name, q.toJson))

/-- The configuration of an object. -/
def ofJson? (j : Json) : Option κ := do
  ofFields? (← j.record? (fieldNames κ))

end Configuration

instance : Configuration (AugmentedLagrangian.Config Double) where
  title := "AlmConfig"
  fieldNames := ["print_level", "max_outer_iterations", "max_inner_iterations", "tolerance",
    "constraint_tolerance", "acceptable_tolerance", "penalty_init", "penalty_growth",
    "penalty_max", "max_step_ratio"]
  quantities c := [.natural c.printLevel, .natural c.maxOuter, .natural c.maxInner,
    .number c.tolerance, .number c.constraintTolerance, .number c.acceptableTolerance,
    .number c.penaltyInit, .number c.penaltyGrowth, .number c.penaltyMax, .number c.maxStepRatio]
  ofFields?
    | [printLevel, maxOuter, maxInner, tolerance, constraintTolerance, acceptableTolerance,
        penaltyInit, penaltyGrowth, penaltyMax, maxStepRatio] => do
      return {
        printLevel := ← printLevel.natural? 8
        maxOuter := ← maxOuter.natural? 64
        maxInner := ← maxInner.natural? 64
        tolerance := ← tolerance.double?
        constraintTolerance := ← constraintTolerance.double?
        acceptableTolerance := ← acceptableTolerance.double?
        penaltyInit := ← penaltyInit.double?
        penaltyGrowth := ← penaltyGrowth.double?
        penaltyMax := ← penaltyMax.double?
        maxStepRatio := ← maxStepRatio.double? }
    | _ => none

instance : Configuration (ProjectedBfgs.Config Double) where
  title := "BfgsConfig"
  fieldNames := ["print_level", "max_iterations", "tolerance", "max_step_ratio"]
  quantities c := [.natural c.printLevel, .natural c.maxIterations, .number c.tolerance,
    .number c.maxStepRatio]
  ofFields?
    | [printLevel, maxIterations, tolerance, maxStepRatio] => do
      return {
        printLevel := ← printLevel.natural? 8
        maxIterations := ← maxIterations.natural? 64
        tolerance := ← tolerance.double?
        maxStepRatio := ← maxStepRatio.double? }
    | _ => none

end Nlp
