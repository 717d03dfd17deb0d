import Nlp.Linear
import Nlp.Program

/-!
# What a solver is given and what it returns

A solver sees a nonlinear program as a layout (bounds, start and the sense of each constraint
row) and two callbacks: values and Jacobian at a point.  The layout and the replies are taken as
they come, also with lengths that do not fit; the solvers check what they rely on.

## Main definitions

* `Sense`, `Values`, `Layout`, `Termination`, `ReturnCode`.
* `SolverError`, `Failure`: why a solver gives no termination.
* `callbacks`: the interface of a solver run, and `Run`, its monad.
* `Layout.start`: the checked box and starting point.
-/

namespace Nlp

/-- The sense of a constraint row `c(x)`. -/
inductive Sense where
  /-- The row asks for `c(x) ≤ 0`. -/
  | atMost
  /-- The row asks for `c(x) = 0`. -/
  | equal
deriving DecidableEq, Repr, Inhabited

/-- Objective and constraint values at one point. -/
structure Values (α : Type) where
  /-- The objective. -/
  objective : α
  /-- The constraint rows. -/
  constraints : List α

/-- Every value is a number. -/
def Values.isFinite {α : Type} [Scalar α] (v : Values α) : Bool :=
  Scalar.isFinite v.objective && v.constraints.all Scalar.isFinite

/-- A nonlinear program without its functions. -/
structure Layout (α : Type) where
  /-- Number of variables. -/
  dimension : Nat
  /-- Lower bounds. -/
  lower : List α
  /-- Upper bounds. -/
  upper : List α
  /-- The starting point. -/
  start : List α
  /-- The sense of each constraint row. -/
  rows : List Sense

/-- How a solver stopped. -/
inductive ReturnCode where
  /-- First-order optimality and feasibility within the tolerances. -/
  | succeeded
  /-- The looser acceptable tolerance was met. -/
  | acceptable
  /-- The penalty reached its ceiling and the infeasibility stayed. -/
  | infeasible
  /-- Steps became too small to make progress. -/
  | smallStep
  /-- The objective is unbounded below, or a value is no number. -/
  | diverging
  /-- The iterations ran out. -/
  | iterationLimit
  /-- No trial of the line search was accepted. -/
  | lineSearchFailed
deriving DecidableEq, Repr, Inhabited

/-- The number a return code travels as. -/
def ReturnCode.toInt : ReturnCode → Int
  | succeeded => 0
  | acceptable => 1
  | infeasible => 2
  | smallStep => 3
  | diverging => 4
  | iterationLimit => -1
  | lineSearchFailed => -2

/-- The record a solver run ends with. -/
structure Termination (α : Type) where
  /-- How the run stopped: the number of a `ReturnCode`, or any other number of an adapter. -/
  code : Int
  /-- The final point. -/
  point : List α
  /-- The objective there. -/
  objective : α
  /-- The constraint rows there. -/
  constraints : List α
  /-- Lagrange multiplier estimates, one per constraint row. -/
  multipliers : List α
  /-- Major iterations. -/
  iterations : Nat
  /-- Objective values along the run. -/
  history : List α

/-! ## Errors -/

/-- What is wrong with a configuration. -/
inductive ConfigFault (α : Type) where
  /-- One of the two iteration limits is zero. -/
  | iterationLimits
  /-- The iteration limit is zero. -/
  | iterationLimit
  /-- A field that has to be positive and finite is not. -/
  | notPositive (field : String) (value : α)
  /-- The penalty does not grow. -/
  | growth (value : α)
  /-- The penalty starts above its ceiling. -/
  | ceiling (most start : α)
  /-- Any other fault, in words. -/
  | described (text : String)

/-- What a solver does not handle. -/
inductive Unsupported where
  /-- Constraint rows given to the solver for bounds. -/
  | constraintRows (count : Nat)
  /-- A problem with constraints given to the adapter for bounds. -/
  | generalConstraints (count : Nat)
  /-- Anything else, in words. -/
  | described (text : String)
deriving DecidableEq

/-- Errors of a solver itself, as opposed to those of a callback. -/
inductive SolverError (α : Type) where
  /-- The configuration is not valid. -/
  | invalidConfig (fault : ConfigFault α)
  /-- A length is not the one it has to be. -/
  | dimension (what : String) (expected found : Nat)
  /-- A lower bound is not at most its upper bound. -/
  | invalidBounds (index : Nat) (lower upper : α)
  /-- The solver does not handle this problem. -/
  | unsupported (reason : Unsupported)

/-- Why a run gives no termination: a callback failed, or the solver refuses. -/
inductive Failure (α ε : Type) where
  /-- The error of a callback, untouched. -/
  | callback (error : ε)
  /-- The solver's own error. -/
  | solver (error : SolverError α)

/-! ## Callbacks -/

/-- Why the inner minimisation stopped. -/
inductive InnerStop where
  /-- The projected gradient is within the tolerance. -/
  | converged
  /-- The last step changed neither point nor value. -/
  | smallStep
  /-- No trial of the line search was accepted. -/
  | lineSearchFailed
  /-- The iterations ran out. -/
  | iterationLimit
  /-- A value or a gradient entry is no number. -/
  | nonFinite
deriving DecidableEq, Repr, Inhabited

/-- The solvers. -/
inductive Algorithm where
  /-- Penalty and multipliers around the bound-constrained minimisation. -/
  | augmentedLagrangian
  /-- The bound-constrained minimisation alone. -/
  | projectedBfgs
deriving DecidableEq, Repr, Inhabited

/-- What a solver reports while it runs. -/
inductive Progress (α : Type) where
  /-- An accepted step of the inner minimisation. -/
  | innerStep (iteration : Nat) (merit gradientNorm length : α)
  /-- An outer iteration, in full. -/
  | outerReport (outer : Nat) (objective merit measure : α) (gradientNorm : Option α)
      (penalty : α) (inner : Nat) (stop : InnerStop)
  /-- An outer iteration, in short. -/
  | outerTrace (outer : Nat) (objective merit measure penalty : α)
  /-- An outer iteration met a value that is no number. -/
  | nonFinite (outer : Nat)
  /-- The end of a run. -/
  | finished (algorithm : Algorithm) (code : ReturnCode) (iterations : Nat) (objective : α)

/-- The calls of a solver run. -/
inductive CallbackCall (α : Type) where
  /-- Objective and constraints at a point. -/
  | evaluate (x : List α)
  /-- The Jacobian at a point: row 0 is the objective's. -/
  | jacobian (x : List α)
  /-- A report, which nothing depends on. -/
  | report (p : Progress α)
  /-- An index fell outside its vector, or a length is beyond any memory; there is no reply, and the
  run ends here. -/
  | outOfRange (index size : Nat)

/-- The interface of a solver run whose callbacks fail with `ε`. -/
@[reducible] def callbacks (α ε : Type) : Interface where
  Call := CallbackCall α
  Reply
    | .evaluate _ => Except ε (Values α)
    | .jacobian _ => Except ε (Matrix α)
    | .report _ => Unit
    | .outOfRange _ _ => Empty

/-- A solver run: a program over the callbacks that may fail. -/
abbrev Run (α ε : Type) : Type → Type :=
  ExceptT (Failure α ε) (Program (callbacks α ε))

namespace Run

variable {α ε β : Type}

/-- The solver refuses. -/
def refuse (e : SolverError α) : Run α ε β :=
  throw (.solver e)

/-- The values at a point, or the callback's error. -/
def evaluate (x : List α) : Run α ε (Values α) :=
  ExceptT.mk <| (Program.perform (I := callbacks α ε) (.evaluate x)).bind fun
    | .ok values => .done (.ok values)
    | .error e => .done (.error (.callback e))

/-- The Jacobian at a point, or the callback's error. -/
def jacobian (x : List α) : Run α ε (Matrix α) :=
  ExceptT.mk <| (Program.perform (I := callbacks α ε) (.jacobian x)).bind fun
    | .ok matrix => .done (.ok matrix)
    | .error e => .done (.error (.callback e))

/-- A report. -/
def report (p : Progress α) : Run α ε Unit :=
  ExceptT.mk <| (Program.perform (I := callbacks α ε) (.report p)).bind fun _ => .done (.ok ())

/-- The end of a run whose index fell outside its vector or whose length is beyond any memory. -/
def outOfRange (index size : Nat) : Run α ε β :=
  ExceptT.mk <| .call (I := callbacks α ε) (.outOfRange index size) fun e => nomatch e

/-- The entries of a Jacobian that has the expected shape; rows are checked first. -/
def shaped (a : Matrix α) (rows cols : Nat) : Run α ε (Vector (Vector α cols) rows) :=
  match a.shaped? rows cols with
  | some entries => pure entries
  | none =>
    if a.rows ≠ rows then refuse (.dimension "jacobian rows" rows a.rows)
    else refuse (.dimension "jacobian columns" cols a.cols)

end Run

/-! ## The checked start -/

/-- A box and a point of it. -/
structure Start (α : Type) (n : Nat) where
  /-- Lower bounds. -/
  lower : Vector α n
  /-- Upper bounds. -/
  upper : Vector α n
  /-- The starting point, moved into the box. -/
  point : Vector α n

/-- A list as a vector of `n` entries, or the error that names it. -/
def checkedVector {α : Type} (what : String) (n : Nat) (l : List α) :
    Except (SolverError α) (Vector α n) :=
  match vectorOf? n l with
  | some v => .ok v
  | none => .error (.dimension what n l.length)

/-- The box and starting point of a layout: both bounds and the start have one entry per
variable, and no lower bound fails to be at most its upper bound.  The first fault in that order,
with the bounds tested before the start's length, is the error. -/
def Layout.checkedStart {α : Type} [Scalar α] (p : Layout α) :
    Except (SolverError α) (Start α p.dimension) := do
  let lower ← checkedVector "lower bounds" p.dimension p.lower
  let upper ← checkedVector "upper bounds" p.dimension p.upper
  match (List.finRange p.dimension).find? fun i => !decide (lower.get i ≤ upper.get i) with
  | some i => throw (.invalidBounds i (lower.get i) (upper.get i))
  | none =>
    let start ← checkedVector "initial point" p.dimension p.start
    return { lower, upper, point := clampTo lower upper start }

end Nlp
