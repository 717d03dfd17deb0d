import Nlp.History.Solution
import Nlp.Solve.Adapter
import Nlp.Solve.Bridge

/-!
# Solves on record

A solve carries out an adapter's run on a problem and records its outcome in the problem's
history.  A run that comes to an end is recorded whatever its status; a failure of the model, the
derivatives or the ranks records nothing.  In parallel mode the root opens a session before the
run and releases the other ranks after it, also when the run has failed.

## Main definitions

* `Solution.ofTermination`: the record of a run.
* `Solved`, `Adapter.solve`.
-/

namespace Nlp

namespace Solution

/-- The variables with the values of a final point. -/
def solvedVariables (problem : Problem Double) (point : List Double) : List (Variable Double) :=
  List.zipWith (fun v value => { v with value }) problem.vars point

/-- The constraints with their final values, targets added back, and multipliers. -/
def solvedConstraints (problem : Problem Double) (rows multipliers : List Double) :
    List SolvedConstraint :=
  List.zipWith
    (fun c (value, multiplier) => ⟨c.name, c.kind, c.target, value + c.target, multiplier⟩)
    problem.constraints (rows.zip multipliers)

/-- The record of a run that took this long, before it has its place in a history. -/
def ofTermination {τ : Type} (adapter : Adapter τ) (problem : Problem Double) (engine : Engine)
    (here : Place) (elapsed : Duration) (t : Termination Double) (counters : Counters) :
    Solution where
  index := 0
  problem := problem.name
  optimizer := adapter.name
  status := .ofCode t.code
  message := describeCode t.code
  objectiveName := problem.objectives.headD ""
  objective := t.objective
  vars := solvedVariables problem t.point
  constraints := solvedConstraints problem t.constraints t.multipliers
  objectiveHistory := t.history
  statistics := {
    wallTime := elapsed
    iterations := t.iterations
    evaluations := counters.evaluations
    jacobians := counters.jacobians
    sensitivityEvaluations := counters.sensitivityEvaluations
    method := engine.method
    mode := engine.mode
    ranks := if engine.mode = .parallel then here.size else 1 }
  options := adapter.options

end Solution

/-- What a rank has after a solve. -/
structure Solved (τ : Type) where
  /-- The history of the problem. -/
  history : History
  /-- The index of the solution, at the root, or why there is none to go on with. -/
  result : Except (Error Double) (Option Nat)
  /-- The findings of the run, if there was one here. -/
  findings : Option τ

namespace Adapter

variable {τ : Type}

/-- The part of a rank other than the root: it serves the session of a parallel solve. -/
def assist (problem : Problem Double) (engine : Engine) (here : Place) : Task (Option Nat) := do
  if engine.mode = .parallel then
    Session.handshake problem here
    let _ ← Session.serve problem here
  return none

/-- The warnings about variables that a solver treats as continuous. -/
def relaxations (problem : Problem Double) : List (Event Double) :=
  (problem.vars.filter fun v => !v.isContinuous).map fun v => .relaxing v.name v.kind

/-- Some events, in order. -/
def noteAll : List (Event Double) → Task Unit
  | [] => pure ()
  | event :: events => do
    Task.note event
    noteAll events

/-- The session of a parallel solve, and the warnings before a run. -/
def prepare (problem : Problem Double) (engine : Engine) (here : Place) : Task Unit := do
  if engine.mode = .parallel then
    Session.handshake problem here
  noteAll (relaxations problem)

/-- What came of a run: its termination with what it asked for, and its findings. -/
structure Outcome (τ : Type) where
  /-- The termination, or why there is none. -/
  result : Except (Error Double) (Termination Double × Counters)
  /-- The findings, if the run began. -/
  findings : Option τ

/-- The run on the root. -/
def runAtRoot (adapter : Adapter τ) (problem : Problem Double) (engine : Engine)
    (memory : Engine.Memory) (here : Place) : Program rankAccess (Outcome τ) := do
  match ← (prepare problem engine here).run with
  | .error e => return ⟨.error e, none⟩
  | .ok () =>
    let ((result, findings), bridge) ←
      ((adapter.run problem.layout).interpret (Bridge.answer problem engine here)).run
        (.new memory)
    return ⟨result.map fun t => (t, bridge.counters), some findings⟩

/-- The error of an outcome. -/
def Outcome.error? (o : Outcome τ) : Option (Error Double) :=
  match o.result with
  | .ok _ => none
  | .error e => some e

/-- The end of the session of a parallel solve.  Where it fails after a run that succeeded, its
failure is the error of the solve; after a run that failed, it is only reported. -/
def finish (engine : Engine) (here : Place) (o : Outcome τ) :
    Task (Termination Double × Counters) := do
  if engine.mode = .parallel then
    match ← ExceptT.lift (Session.release here o.error?).run with
    | .ok () => pure ()
    | .error e =>
      match o.result with
      | .ok _ => throw e
      | .error _ => Task.note (.releaseFailed e)
  Task.ofExcept o.result

/-- The result of a recorded run of this status. -/
def verdict (index : Nat) : Status → Except (Error Double) (Option Nat)
  | .optimal | .acceptable => .ok (some index)
  | .infeasible => .error (.solverInfeasible index)
  | status => .error (.solverDiverged index status)

/-- A solve: the run on the root, recorded in the history, or the part of another rank in it.  The
engine may remember earlier requests, and `elapsed` is what a clock says of the run. -/
def solve (adapter : Adapter τ) (problem : Problem Double) (history : History) (engine : Engine)
    (memory : Engine.Memory) (here : Place) (elapsed : Duration) :
    Program rankAccess (Solved τ) := do
  if here.isRoot then
    let _ ← (Task.note (.solveStarted problem.name adapter.name engine.method engine.mode
      here.size)).run
    let outcome ← adapter.runAtRoot problem engine memory here
    match ← (finish engine here outcome).run with
    | .error e => return ⟨history, .error e, outcome.findings⟩
    | .ok (t, counters) =>
      let solution := Solution.ofTermination adapter problem engine here elapsed t counters
      let index := history.count
      let _ ← (Task.note (.solveFinished problem.name index solution.status t.objective)).run
      return ⟨history.append solution, verdict index solution.status, outcome.findings⟩
  else
    return ⟨history, ← (assist problem engine here).run, none⟩

end Adapter

end Nlp
