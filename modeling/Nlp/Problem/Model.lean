import Nlp.Complex
import Nlp.Error

/-!
# Models

A model is the user's function from a point to objective and constraint values.  It may be
continued to complex points and may have a gradient of its own, and at any point it may fail with
a code.

## Main definitions

* `Evaluation`, `Sensitivity`: the answers of a model.
* `Model`: a model as a function, for models that always answer alike.
-/

namespace Nlp

/-- The answer of one model call. -/
structure Evaluation (β : Type) where
  /-- The objective. -/
  objective : β
  /-- The constraint rows. -/
  constraints : List β
  /-- Zero, or the code of the failure; a failure's values mean nothing. -/
  fail : Int

/-- A model's own derivatives at a point. -/
structure Sensitivity (α : Type) where
  /-- The gradient of the objective. -/
  objective : List α
  /-- The gradient of each constraint row. -/
  constraints : List (List α)
  /-- Zero, or the code of the failure. -/
  fail : Int

/-- A failed evaluation.  A failure has a code other than zero, so zero stands for one. -/
def Evaluation.failed {β : Type} (objective : β) (code : Int) : Evaluation β :=
  ⟨objective, [], if code = 0 then 1 else code⟩

/-- A model that answers alike whenever it is asked. -/
structure Model (α : Type) where
  /-- The values at a point. -/
  evaluate : List α → Evaluation α
  /-- The values at a complex point, for a model that has them. -/
  evaluateComplex : List (Complex α) → Option (Evaluation (Complex α))
  /-- The derivatives at a point, for a model that has them. -/
  gradient : List α → Option (Sensitivity α)

end Nlp
