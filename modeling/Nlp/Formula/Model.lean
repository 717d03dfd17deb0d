import Nlp.Formula.Basic
import Nlp.Problem.Evaluation

/-!
# Models made of formulas

A model whose values are formulas, which fails with a code where a condition is positive, and
which ends its rank where another one is.

## Main definitions

* `FormulaModel`, `FormulaModel.answer`.
-/

namespace Nlp

/-- Conditions with codes: a call fails with the code of the first condition that is positive. -/
abbrev Failures (α : Type) : Type :=
  List (Formula α × Int)

/-- The derivatives of a model, as formulas. -/
structure FormulaGradient (α : Type) where
  /-- The gradient of the objective. -/
  objective : List (Formula α)
  /-- The gradient of each constraint row. -/
  constraints : List (List (Formula α))
  /-- Where it fails. -/
  failures : Failures α

/-- A model made of formulas. -/
structure FormulaModel (α : Type) where
  /-- Whether it takes complex arguments. -/
  isHolomorphic : Bool
  /-- The objective. -/
  objective : Formula α
  /-- The constraint rows. -/
  constraints : List (Formula α)
  /-- Where it fails. -/
  failures : Failures α
  /-- Where it ends the rank that asks. -/
  ends : Formula α
  /-- Its derivatives, if it has any. -/
  gradient : Option (FormulaGradient α)

namespace FormulaModel

variable {α : Type} [Scalar α]

/-- The code of the first condition whose value is positive. -/
def failureAt (failures : Failures α) (value : Formula α → α) : Option Int :=
  (failures.find? fun (condition, _) => decide (0 < value condition)).map Prod.snd

/-- The values at a point, or none where the model ends its rank. -/
def evaluate (m : FormulaModel α) (x : List α) : Option (Evaluation α) :=
  let value := Formula.value x
  if 0 < value m.ends then none
  else
    match failureAt m.failures value with
    | some code => some (.failed 0 code)
    | none => some ⟨value m.objective, m.constraints.map value, 0⟩

/-- The real part of a value at a complex point, and zero without one. -/
def realPart (z : List (Complex α)) (f : Formula α) : α :=
  match f.complexValue? z with
  | some v => v.re
  | none => 0

/-- The values at a complex point, or none where the model ends its rank. -/
def evaluateComplex (m : FormulaModel α) (z : List (Complex α)) :
    Option (Option (Evaluation (Complex α))) :=
  if ¬ m.isHolomorphic then some none
  else if 0 < realPart z m.ends then none
  else
    match failureAt m.failures (realPart z) with
    | some code => some (some (.failed (.ofReal 0) code))
    | none => some do
      let objective ← m.objective.complexValue? z
      let constraints ← m.constraints.mapM fun g => g.complexValue? z
      return ⟨objective, constraints, 0⟩

/-- The derivatives at a point.  A failure of code zero is none, and has no entries. -/
def sensitivity (g : FormulaGradient α) (x : List α) : Sensitivity α :=
  let value := Formula.value x
  match failureAt g.failures value with
  | some code => ⟨[], [], code⟩
  | none => ⟨g.objective.map value, g.constraints.map (·.map value), 0⟩

/-- The answers of the model; none where it ends its rank. -/
def answer (m : FormulaModel α) : (c : ModelCall α) → Option ((modelAccess α).Reply c)
  | .evaluate x => m.evaluate x
  | .evaluateComplex z => m.evaluateComplex z
  | .gradient x => some (m.gradient.map fun g => sensitivity g x)
  | .note _ => some ()
  | .outOfRange _ _ => none

end FormulaModel

end Nlp
