import Nlp.Derivative.Engine

/-!
# Requests to an engine, part by part

## Main definitions

* `Engine.baseline`, `Engine.carryOut`: the baseline of a request, and what follows its scheme.

## Main results

* `Engine.jacobianAt_eq`: a request in terms of its parts.
-/

namespace Nlp.Engine

/-- The baseline of forward differences, with the model calls it costs. -/
def baseline (problem : Problem Double) (x : List Double) :
    Option (Evaluation Double) → Request (Evaluation Double × Nat)
  | some values => pure (values, 0)
  | none => do return (← Request.ofTask (Task.ofLocal (problem.evaluate x)), 1)

/-- The Jacobian of some columns. -/
def assemble (e : Engine) (problem : Problem Double) (kernel : Kernel Double) (x : List Double)
    (here : Place) (evaluations : Nat) : Request (Jacobian Double) := do
  let columns ← Request.ofTask (e.columns problem kernel x here)
  Request.ofTask (liftM (Jacobian.ofColumns (1 + problem.constraints.length) problem.vars.length
    columns evaluations))

/-- A request whose scheme is known. -/
def carryOut (e : Engine) (problem : Problem Double) (x : List Double)
    (known : Option (Evaluation Double)) (here : Place) : Scheme → Request (Jacobian Double)
  | .analytic => Request.ofTask (Task.ofLocal (analyticJacobian problem x))
  | .forward step => do
    let (values, spent) ← baseline problem x known
    e.assemble problem (.forward step (.ofEvaluation values)) x here (spent + problem.vars.length)
  | .complex step => e.assemble problem (.complex step) x here problem.vars.length

theorem jacobianAt_eq (e : Engine) (problem : Problem Double) (x : List Double)
    (known : Option (Evaluation Double)) (here : Place) :
    e.jacobianAt problem x known here =
      if x.length ≠ problem.vars.length then
        throw (.shapeMismatch "x" problem.vars.length x.length)
      else if e.mode = .parallel ∧ ¬ here.isRoot then
        throw (.communication (.notRoot here.rank))
      else (do
        Request.ofTask (Task.note (.jacobianRequest e.method e.mode))
        let scheme ← e.resolve problem x
        e.carryOut problem x known here scheme) := by
  rw [jacobianAt]
  by_cases hx : x.length ≠ problem.vars.length
  · rw [if_pos hx, if_pos hx]
    rfl
  rw [if_neg hx, if_neg hx]
  by_cases hmode : e.mode = .parallel ∧ ¬ here.isRoot
  · rw [if_pos hmode]
    simp only [if_pos hmode]
    rfl
  rw [if_neg hmode]
  simp only [if_neg hmode]
  refine congrArg (_ >>= ·) (funext fun _ => congrArg (_ >>= ·) (funext fun scheme => ?_))
  -- the baseline and the columns are the same calls, but for the order of the brackets
  cases scheme with
  | analytic => rfl
  | forward step =>
    cases known with
    | some values => rfl
    | none =>
      exact (bind_assoc (Request.ofTask (Task.ofLocal (problem.evaluate x)))
        (fun values => pure (values, 1)) _).symm
  | complex step => rfl

end Nlp.Engine
