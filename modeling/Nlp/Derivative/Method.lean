import Nlp.Error
import Nlp.Text.Lower

/-!
# Sensitivity methods and modes

How derivatives are obtained, where perturbed columns are evaluated, and what happens when a
model has no complex continuation.
-/

namespace Nlp

/-- How derivatives are obtained. -/
inductive Method (α : Type) where
  /-- The forward difference `(F(x + h eⱼ) - F(x)) / h`. -/
  | finiteDifference (step : α)
  /-- The imaginary part of `F(x + i h eⱼ) / h`. -/
  | complexStep (step : α)
  /-- The model's own gradient. -/
  | analytic
deriving DecidableEq

namespace Method

variable {α : Type} [Scalar α]

/-- The step of a finite difference unless another one is asked for. -/
def defaultDifference : α := 1e-6

/-- The step of a complex step unless another one is asked for. -/
def defaultComplex : α := 1e-20

/-- The method of a name. -/
def parse (text : String) : Except (Error α) (Method α) :=
  let text := lowerAscii text
  if text = "fd" ∨ text = "finite-difference" then .ok (finiteDifference defaultDifference)
  else if text = "cs" ∨ text = "complex-step" then .ok (complexStep defaultComplex)
  else if text = "analytic" ∨ text = "user" then .ok analytic
  else .error (.invalidOption "sensitivity type" (.unknownSensitivity text))

/-- The method in words. -/
def text : Method Double → String
  | finiteDifference step => "FD (h = " ++ step.scientific ++ ")"
  | complexStep step => "CS (h = " ++ step.scientific ++ ")"
  | analytic => "analytic"

end Method

/-- Where perturbed columns are evaluated. -/
inductive Mode where
  /-- One after another by the rank that asks. -/
  | sequential
  /-- On the pool of the rank that asks. -/
  | threads
  /-- By the ranks of the group, each a block of columns. -/
  | parallel
deriving DecidableEq, Repr, Inhabited

namespace Mode

/-- The mode in words. -/
def text : Mode → String
  | sequential => "sequential"
  | threads => "threads"
  | parallel => "pgc"

/-- The name a mode is stored under. -/
def name : Mode → String
  | sequential => "Sequential"
  | threads => "Threads"
  | parallel => "Parallel"

/-- All modes by name. -/
def table : List (String × Mode) :=
  [sequential, threads, parallel].map fun m => (m.name, m)

/-- The mode of a name. -/
def parse {α : Type} (text : String) : Except (Error α) Mode :=
  let text := lowerAscii text
  if text = "" ∨ text = "sequential" then .ok sequential
  else if text = "threads" then .ok threads
  else if text = "pgc" ∨ text = "parallel" then .ok parallel
  else .error (.invalidOption "sensitivity mode" (.unknownMode text))

end Mode

/-- What happens when complex step is asked for and the model takes no complex arguments. -/
inductive Fallback where
  /-- The request fails. -/
  | error
  /-- Forward differences with the default step, after a warning. -/
  | finiteDifference
deriving DecidableEq, Repr, Inhabited

end Nlp
