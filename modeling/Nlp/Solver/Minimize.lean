import Nlp.Solver.Basic

/-!
# Minimising a merit function over a box

A projected quasi-Newton method.  Variables on a bound whose gradient pushes outward are frozen
for the step; the inverse Hessian approximation is reset to the identity whenever the masked
direction is not one of descent; the step is cut to a fraction of the point's size and then
halved until the Armijo condition holds.

## Main definitions

* `merit`: the interface of a minimisation, a value and a gradient at a point of the box.
* `active`, `direction`, `steer`, `lineSearch`, `updateInverse`, `Iterate.advance`: the parts of
  one iteration.
* `iterateOnce`: one iteration.
* `minimize`: the whole method.
-/

namespace Nlp

/-- The calls of a minimisation over `n` variables. -/
inductive MeritCall (α : Type) (n : Nat) where
  /-- The merit at a point. -/
  | value (x : Vector α n)
  /-- The gradient of the merit at a point. -/
  | gradient (x : Vector α n)
  /-- A report, which nothing depends on. -/
  | report (p : Progress α)

/-- The interface of a minimisation. -/
def merit (α : Type) (n : Nat) : Interface where
  Call := MeritCall α n
  Reply
    | .value _ => α
    | .gradient _ => Vector α n
    | .report _ => Unit

namespace Merit

variable {α : Type} {n : Nat}

/-- The merit at a point. -/
def value (x : Vector α n) : Program (merit α n) α :=
  Program.perform (I := merit α n) (.value x)

/-- The gradient of the merit at a point. -/
def gradient (x : Vector α n) : Program (merit α n) (Vector α n) :=
  Program.perform (I := merit α n) (.gradient x)

/-- A report. -/
def report (p : Progress α) : Program (merit α n) Unit :=
  Program.perform (I := merit α n) (.report p)

end Merit

namespace Minimize

/-- What a minimisation is told besides its merit and its box. -/
structure Settings (α : Type) where
  /-- Most iterations. -/
  maxIterations : Nat
  /-- Absolute bound on the projected gradient. -/
  tolerance : α
  /-- Longest trial step as a fraction of the point's size, at least one. -/
  maxStepRatio : α
  /-- Every accepted step is reported. -/
  verbose : Bool

/-- What a minimisation ends with. -/
structure Outcome (α : Type) (n : Nat) where
  /-- The last iterate. -/
  point : Vector α n
  /-- The merit there. -/
  value : α
  /-- Norm of the projected gradient when it was last measured; none if no iteration measured
  it, or a value was no number. -/
  gradientNorm : Option α
  /-- Iterations begun and finished. -/
  iterations : Nat
  /-- Why it stopped. -/
  stop : InnerStop
  /-- The merit at the start and at every accepted iterate. -/
  trace : Array α

/-- The state at the top of an iteration. -/
structure Iterate (α : Type) (n : Nat) where
  /-- The iterate. -/
  point : Vector α n
  /-- The merit there. -/
  value : α
  /-- The gradient there. -/
  gradient : Vector α n
  /-- The inverse Hessian approximation. -/
  inverse : Square α n
  /-- No curvature has been seen since the last reset. -/
  fresh : Bool
  /-- The merit at the start and at every accepted iterate. -/
  trace : Array α

/-- An accepted trial of the line search. -/
structure Trial (α : Type) (n : Nat) where
  /-- The new point. -/
  point : Vector α n
  /-- The step that leads to it. -/
  step : Vector α n
  /-- The merit there. -/
  value : α
  /-- The step length that was accepted. -/
  length : α

section

variable {α : Type} [Scalar α] {n : Nat}

/-- The slope fraction of the Armijo condition. -/
def armijo : α := 1e-4

/-- How often a step is tried. -/
def maxTrials : Nat := 60

/-- The least relative curvature an update uses. -/
def curvatureFloor : α := 1e-10

/-- The variables held on a bound by a gradient that points outward. -/
def active (lower upper x g : Vector α n) : Vector Bool n :=
  Vector.ofFn fun i =>
    decide (x.get i ≤ lower.get i ∧ 0 < g.get i) || decide (upper.get i ≤ x.get i ∧ g.get i < 0)

/-- A vector with zeros at the frozen entries. -/
def mask (frozen : Vector Bool n) (v : Vector α n) : Vector α n :=
  Vector.ofFn fun i => if frozen.get i then 0 else v.get i

/-- The quasi-Newton direction of the projected gradient `pg`, zero at the frozen entries. -/
def direction (h : Square α n) (frozen : Vector Bool n) (pg : Vector α n) : Vector α n :=
  mask frozen (-(mulVec h pg))

/-- The first step length: one, or less where the step would be longer than `ratio` times the
size of the point (at least one). -/
def firstLength (ratio : α) (x d : Vector α n) : α :=
  let cap := ratio * Scalar.max (infNorm x) 1
  let length := infNorm d
  if cap < length then cap / length else 1

/-- The point a step length leads to. -/
def trialPoint (lower upper x d : Vector α n) (length : α) : Vector α n :=
  clampTo lower upper (x + scale d length)

/-- The inverse BFGS update `(I - r s yᵀ) H (I - r y sᵀ) + r s sᵀ` with `r = 1 / sᵀy`, entry by
entry in its expanded form. -/
def updateInverse (h : Square α n) (s y : Vector α n) (sy : α) : Square α n :=
  let hy := mulVec h y
  let coef := (sy + dot y hy) / (sy * sy)
  Vector.ofFn fun i => Vector.ofFn fun j =>
    (h.get i).get j + (coef * s.get i * s.get j - (hy.get i * s.get j + s.get i * hy.get j) / sy)

/-- The inverse Hessian approximation after a step `s` that changed the gradient by `y`: too
little curvature changes nothing, and the first update since a reset starts from a multiple of
the identity. -/
def learn (h : Square α n) (fresh : Bool) (s y : Vector α n) : Square α n × Bool :=
  let sy := dot s y
  if curvatureFloor * Scalar.sqrt (dot s s) * Scalar.sqrt (dot y y) < sy then
    (updateInverse (if fresh then scaleAll identity (sy / dot y y) else h) s y sy, false)
  else (h, fresh)

/-- The direction of the next step, and the state it is taken from: where the quasi-Newton
direction is not one of descent, the inverse Hessian approximation is forgotten and the step goes
against the projected gradient. -/
def steer (s : Iterate α n) (frozen : Vector Bool n) (pg : Vector α n) :
    Vector α n × Iterate α n :=
  let d := direction s.inverse frozen pg
  if 0 ≤ dot d pg then (-pg, { s with inverse := identity, fresh := true }) else (d, s)

/-- The state after an accepted trial, at whose point the gradient is `gradient`. -/
def Iterate.advance (s : Iterate α n) (trial : Trial α n) (gradient : Vector α n) :
    Iterate α n :=
  let (inverse, fresh) := learn s.inverse s.fresh trial.step (gradient - s.gradient)
  ⟨trial.point, trial.value, gradient, inverse, fresh, s.trace.push trial.value⟩

/-- The step changed neither the value nor the point to speak of. -/
def isStalled (x : Vector α n) (value newValue : α) (step : Vector α n) : Bool :=
  decide (Scalar.abs (value - newValue) ≤ 1e-15 * (1 + Scalar.abs value)) &&
    decide (infNorm step ≤ 1e-12 * (1 + infNorm x))

end

end Minimize

open Minimize

variable {α : Type} [Scalar α] {n : Nat}

/-- The first trial among `trials` that is a number and low enough, with the step length halved
after each one that is not. -/
def lineSearch (lower upper : Vector α n) (here : Iterate α n) (d : Vector α n) :
    Nat → α → Program (merit α n) (Option (Trial α n))
  | 0, _ => pure none
  | trials + 1, length => do
    let point := trialPoint lower upper here.point d length
    let step := point - here.point
    let value ← Merit.value point
    if Scalar.isFinite value ∧ value ≤ here.value + armijo * dot here.gradient step then
      return some { point, step, value, length }
    else
      lineSearch lower upper here d trials (length * 0.5)

/-- What an iteration comes to. -/
inductive Minimize.Next (α : Type) (n : Nat) where
  /-- The minimisation is at its end. -/
  | ended (outcome : Outcome α n)
  /-- There is another iteration, from this state; `norm` is that of the projected gradient
  before the step. -/
  | goesOn (norm : α) (s : Iterate α n)

/-- The iteration of number `iteration`. -/
def iterateOnce (lower upper : Vector α n) (settings : Settings α) (iteration : Nat)
    (s : Iterate α n) : Program (merit α n) (Next α n) := do
  if s.gradient.any fun g => !Scalar.isFinite g then
    return .ended ⟨s.point, s.value, none, iteration, .nonFinite, s.trace⟩
  let frozen := active lower upper s.point s.gradient
  let pg := mask frozen s.gradient
  let norm := infNorm pg
  if norm ≤ settings.tolerance then
    return .ended ⟨s.point, s.value, some norm, iteration, .converged, s.trace⟩
  let (d, s) := steer s frozen pg
  match ← lineSearch lower upper s d maxTrials (firstLength settings.maxStepRatio s.point d) with
  | none => return .ended ⟨s.point, s.value, some norm, iteration, .lineSearchFailed, s.trace⟩
  | some trial =>
    let next := s.advance trial (← Merit.gradient trial.point)
    if settings.verbose then
      Merit.report (.innerStep iteration trial.value norm trial.length)
    if isStalled s.point s.value trial.value trial.step then
      return .ended ⟨next.point, next.value, some norm, iteration + 1, .smallStep, next.trace⟩
    else
      return .goesOn norm next

/-- The iterations from `iteration` on, of which `remaining` are left; `norm` is the projected
gradient measured last. -/
def iterate (lower upper : Vector α n) (settings : Settings α) :
    (remaining iteration : Nat) → (norm : Option α) → Iterate α n →
      Program (merit α n) (Outcome α n)
  | 0, iteration, norm, s =>
    return ⟨s.point, s.value, norm, iteration, .iterationLimit, s.trace⟩
  | remaining + 1, iteration, _, s => do
    match ← iterateOnce lower upper settings iteration s with
    | .ended outcome => return outcome
    | .goesOn norm next => iterate lower upper settings remaining (iteration + 1) (some norm) next

/-- The minimisation of a merit over the box `[lower, upper]`, from the point of the box nearest
to `start`. -/
def minimize (lower upper start : Vector α n) (settings : Settings α) :
    Program (merit α n) (Outcome α n) := do
  let point := clampTo lower upper start
  let value ← Merit.value point
  if Scalar.isFinite value then
    let gradient ← Merit.gradient point
    iterate lower upper settings settings.maxIterations 0 none
      ⟨point, value, gradient, identity, true, #[value]⟩
  else
    return ⟨point, value, none, 0, .nonFinite, #[value]⟩

end Nlp
