import Nlp.Derivative.Engine
import Nlp.Solver.Basic

/-!
# From solvers to problems

A bridge answers the callbacks of a solver run from a problem and an engine.  It moves the
targets of the constraints to zero, remembers the last evaluation, which is the baseline of a
Jacobian at the same point, and counts what the solver asked for.

## Main definitions

* `Bridge`: what is remembered between two callbacks.
* `Bridge.answer`: the answer to a callback.
-/

namespace Nlp

/-- What a solver run has asked for. -/
structure Counters where
  /-- Evaluations. -/
  evaluations : Nat
  /-- Jacobians. -/
  jacobians : Nat
  /-- Model calls spent on the Jacobians, over all ranks. -/
  sensitivityEvaluations : Nat
deriving DecidableEq, Repr

/-- What is remembered between two callbacks. -/
structure Bridge where
  /-- The last evaluation, with its point. -/
  last : Option (List Double × Evaluation Double)
  /-- What has been asked for. -/
  counters : Counters
  /-- What the engine has found out about the model. -/
  memory : Engine.Memory

namespace Bridge

/-- A bridge nothing has crossed, with an engine that may remember earlier requests. -/
def new (memory : Engine.Memory) : Bridge :=
  ⟨none, ⟨0, 0, 0⟩, memory⟩

/-- The last evaluation, if it was at a numerically equal point. -/
def known (b : Bridge) (x : List Double) : Option (Evaluation Double) :=
  match b.last with
  | some (point, e) => if samePoint point x then some e else none
  | none => none

/-- The bridge after a successful evaluation. -/
def evaluated (b : Bridge) (x : List Double) (e : Evaluation Double) : Bridge :=
  { b with
    last := some (x, e)
    counters := { b.counters with evaluations := b.counters.evaluations + 1 } }

/-- The bridge after a successful Jacobian that took this many model calls. -/
def differentiated (b : Bridge) (spent : Nat) : Bridge :=
  { b with
    counters := { b.counters with
      jacobians := b.counters.jacobians + 1
      sensitivityEvaluations := b.counters.sensitivityEvaluations + spent } }

/-- The values a solver sees: the rows with their targets moved to zero. -/
def shifted (problem : Problem Double) (e : Evaluation Double) : Values Double :=
  ⟨e.objective, List.zipWith (fun g c => g - c.target) e.constraints problem.constraints⟩

/-- Answers to callbacks: programs of the rank that keep the bridge. -/
abbrev Answer : Type → Type :=
  StateT Bridge (Program rankAccess)

/-- A program over the model as part of an answer. -/
def Answer.ofModel {τ : Type} (p : Program (modelAccess Double) τ) : Answer τ :=
  StateT.lift p.onRank

/-- The values at a point. -/
def evaluate (problem : Problem Double) (x : List Double) :
    Answer (Except (Error Double) (Values Double)) := do
  match ← Answer.ofModel (problem.evaluate x).run with
  | .error e => return .error e
  | .ok e =>
    modify fun b => b.evaluated x e
    return .ok (shifted problem e)

/-- The Jacobian at a point. -/
def jacobian (problem : Problem Double) (engine : Engine) (here : Place) (x : List Double) :
    Answer (Except (Error Double) (Matrix Double)) := do
  let b ← get
  let (result, memory) ←
    StateT.lift ((engine.jacobianAt problem x (b.known x) here).run.run b.memory)
  modify fun b => { b with memory }
  match result with
  | .error e => return .error e
  | .ok jacobian =>
    modify fun b => b.differentiated jacobian.evaluations
    return .ok jacobian.matrix

/-- The answer to a callback. -/
def answer (problem : Problem Double) (engine : Engine) (here : Place) :
    (c : CallbackCall Double) → Answer ((callbacks Double (Error Double)).Reply c)
  | .evaluate x => evaluate problem x
  | .jacobian x => jacobian problem engine here x
  | .report progress =>
    Answer.ofModel (Program.perform (I := modelAccess Double) (.note (.solver progress)))
  | .outOfRange index size =>
    Answer.ofModel (Program.perform (I := modelAccess Double) (.outOfRange index size))

end Bridge

end Nlp
