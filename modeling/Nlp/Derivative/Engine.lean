import Nlp.Derivative.Session

/-!
# Derivative engine

An engine is a sensitivity method with a mode, a fallback and a partition.  It remembers whether
the model takes complex arguments, once a complex-step request has found out.

## Main definitions

* `Engine`, `Engine.Memory`.
* `Engine.resolve`: the scheme a request is carried out with.
* `Engine.jacobianAt`: the Jacobian at a point, with or without values known there.
-/

namespace Nlp

/-- How an engine obtains Jacobians. -/
structure Engine where
  /-- How derivatives are obtained. -/
  method : Method Double
  /-- Where columns are evaluated. -/
  mode : Mode
  /-- What happens when a model takes no complex arguments. -/
  fallback : Fallback
  /-- Which rank evaluates which columns. -/
  partition : Partition

namespace Engine

/-- An engine with no fallback and contiguous blocks. -/
def new (method : Method Double) (mode : Mode) : Engine :=
  ⟨method, mode, .error, .contiguous⟩

/-- Whether the model takes complex arguments, once known. -/
abbrev Memory : Type := Option Bool

/-- Requests to an engine: tasks that keep its memory, also when they fail. -/
abbrev Request : Type → Type :=
  ExceptT (Error Double) (StateT Memory (Program rankAccess))

/-- A task as part of a request. -/
def Request.ofTask {τ : Type} (t : Task τ) : Request τ :=
  ExceptT.mk (StateT.lift t.run)

/-- The scheme of a request. -/
inductive Scheme where
  /-- Forward differences. -/
  | forward (step : Double)
  /-- Complex step. -/
  | complex (step : Double)
  /-- The model's own gradient. -/
  | analytic

/-- Whether the model takes complex arguments: as remembered, or as one complex call at `x` says.
A failure of that call is remembered as nothing. -/
def complexSupport (e : Engine) (problem : Problem Double) (x : List Double) : Request Bool := do
  match ← getThe Memory with
  | some known => return known
  | none =>
    let answer ← Request.ofTask
      (Task.ofLocal (problem.evaluateComplex (x.map Complex.ofReal)))
    let known := answer.isSome
    set (some known : Memory)
    if !known && e.fallback = .finiteDifference then
      Request.ofTask (Task.note (.complexRejected problem.name))
    return known

/-- The scheme the engine's method comes down to for this model. -/
def resolve (e : Engine) (problem : Problem Double) (x : List Double) : Request Scheme := do
  match e.method with
  | .finiteDifference step => return .forward step
  | .analytic => return .analytic
  | .complexStep step =>
    if ← e.complexSupport problem x then return .complex step
    else
      match e.fallback with
      | .finiteDifference => return .forward Method.defaultDifference
      | .error => throw .complexStepUnsupported

/-- All columns of a request, where the mode says.  A pool takes two columns or more; a single
column is evaluated where it is asked for.  Of what a pool can come to this is one outcome: its
columns are always in order, but where some fail it may have evaluated others after the first of
them, and may tell the error of any. -/
def columns (e : Engine) (problem : Problem Double) (kernel : Kernel Double) (x : List Double)
    (here : Place) : Task (List (Column Double)) :=
  let all := kernel.columns problem x (List.range x.length)
  match e.mode with
  | .sequential => Task.ofLocal all
  | .threads => Task.ofLocal (if 2 ≤ x.length then ExceptT.mk all.run.muted else all)
  | .parallel => Session.request problem kernel x e.partition here

/-- The Jacobian from the model's own gradient. -/
def analyticJacobian (problem : Problem Double) (x : List Double) :
    Local Double (Jacobian Double) := do
  match ← problem.gradient x with
  | none => throw .missingGradient
  | some s =>
    let rows := 1 + problem.constraints.length
    match Jacobian.ofRows? rows problem.vars.length (s.objective :: s.constraints) with
    | some matrix => return ⟨matrix, 1⟩
    | none => Local.outOfRange s.constraints.length rows

/-- The Jacobian at `x`.  Values known at exactly `x` serve as the baseline of forward
differences; without them the baseline costs one more evaluation.  In parallel mode only the root
may ask. -/
def jacobianAt (e : Engine) (problem : Problem Double) (x : List Double)
    (known : Option (Evaluation Double)) (here : Place) : Request (Jacobian Double) := do
  let n := problem.vars.length
  let rows := 1 + problem.constraints.length
  if x.length ≠ n then
    throw (.shapeMismatch "x" n x.length)
  if e.mode = .parallel ∧ ¬ here.isRoot then
    throw (.communication (.notRoot here.rank))
  Request.ofTask (Task.note (.jacobianRequest e.method e.mode))
  match ← e.resolve problem x with
  | .analytic => Request.ofTask (Task.ofLocal (analyticJacobian problem x))
  | .forward step =>
    let (values, spent) ←
      match known with
      | some values => pure (values, 0)
      | none => do pure (← Request.ofTask (Task.ofLocal (problem.evaluate x)), 1)
    let columns ← Request.ofTask
      (e.columns problem (.forward step (.ofEvaluation values)) x here)
    Request.ofTask (liftM (Jacobian.ofColumns rows n columns (spent + n)))
  | .complex step =>
    let columns ← Request.ofTask (e.columns problem (.complex step) x here)
    Request.ofTask (liftM (Jacobian.ofColumns rows n columns n))

end Engine

end Nlp
