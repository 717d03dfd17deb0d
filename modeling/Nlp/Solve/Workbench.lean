import Nlp.Solve.Record

/-!
# Workbenches

A problem on which a rank works for a while: with its history, an engine that keeps its memory
from request to request, and a count of the model calls so far.

## Main definitions

* `Workbench`, `Work`: what is kept, and work that may fail.
* `Work.task`, `Work.request`, `Work.solveWith`: what can be done.
-/

namespace Nlp

/-- Calls of a model. -/
structure ModelCalls where
  /-- Calls at real points. -/
  real : Nat
  /-- Calls at complex points. -/
  complex : Nat
  /-- Calls of the gradient. -/
  gradient : Nat
deriving DecidableEq, Repr

namespace ModelCalls

/-- No calls. -/
def none : ModelCalls :=
  ⟨0, 0, 0⟩

/-- The calls with one more, if it is one of the model. -/
def add (n : ModelCalls) : RankCall → ModelCalls
  | .model (.evaluate _) => { n with real := n.real + 1 }
  | .model (.evaluateComplex _) => { n with complex := n.complex + 1 }
  | .model (.gradient _) => { n with gradient := n.gradient + 1 }
  | _ => n

end ModelCalls

/-- A problem that is worked on. -/
structure Workbench where
  /-- The problem. -/
  problem : Problem Double
  /-- Its history. -/
  history : History
  /-- The engine. -/
  engine : Engine
  /-- What the engine remembers. -/
  memory : Engine.Memory
  /-- The model calls so far. -/
  calls : ModelCalls

/-- A workbench for a problem, with forward differences one after another. -/
def Workbench.new (problem : Problem Double) : Workbench :=
  ⟨problem, ⟨[]⟩, .new (.finiteDifference Method.defaultDifference) .sequential, none, .none⟩

/-- Work at a workbench, which may fail; what is kept is kept then too. -/
abbrev Work : Type → Type :=
  ExceptT (Error Double) (StateT Workbench (Program rankAccess))

namespace Work

variable {τ : Type}

/-- A call of the rank, counted if it is one of the model. -/
def call (c : RankCall) : StateT Workbench (Program rankAccess) (rankAccess.Reply c) := do
  modify fun w => { w with calls := w.calls.add c }
  StateT.lift (Program.perform (I := rankAccess) c)

/-- A program of the rank. -/
def perform (p : Program rankAccess τ) : Work τ :=
  ExceptT.lift (p.interpret call)

/-- A result. -/
def ofExcept : Except (Error Double) τ → Work τ
  | .ok a => pure a
  | .error e => throw e

/-- A task of the rank. -/
def task (t : Task τ) : Work τ := do
  ofExcept (← perform t.run)

/-- Some events, in order. -/
def noteAll (events : List (Event Double)) : Work Unit :=
  task (Adapter.noteAll events)

/-- A request to the engine. -/
def request (r : Engine.Request τ) : Work τ := do
  let w ← getThe Workbench
  let (result, memory) ← perform (r.run.run w.memory)
  modify fun w => { w with memory }
  ofExcept result

/-- The Jacobian at a point. -/
def jacobianAt (x : List Double) (known : Option (Evaluation Double)) (here : Place) :
    Work (Jacobian Double) := do
  let w ← getThe Workbench
  request (w.engine.jacobianAt w.problem x known here)

/-- Another engine, which remembers nothing. -/
def useEngine (engine : Engine) : Work Unit :=
  modify fun w => { w with engine, memory := none }

/-- Another problem, with no history. -/
def useProblem (problem : Problem Double) : Work Unit :=
  modify fun w => { w with problem, history := ⟨[]⟩ }

/-- One more entry of a registry of the problem, and its position. -/
def declare (r : Except (Error Double) (Problem Double × Nat)) : Work Nat := do
  let (problem, index) ← ofExcept r
  modify fun w => { w with problem }
  return index

/-- A solve with an engine of its own, which may remember earlier requests, and a clock: its result,
and the findings of the run. -/
def solveWith (adapter : Adapter τ) (engine : Engine) (memory : Engine.Memory) (here : Place)
    (elapsed : Duration) : Work (Except (Error Double) (Option Nat) × Option τ) := do
  let w ← getThe Workbench
  let solved ← perform (adapter.solve w.problem w.history engine memory here elapsed)
  modify fun w => { w with history := solved.history }
  return (solved.result, solved.findings)

/-- A solve with a new engine, on a clock that stands still. -/
def solve (adapter : Adapter τ) (engine : Engine) (here : Place) :
    Work (Except (Error Double) (Option Nat) × Option τ) :=
  solveWith adapter engine none here ⟨0, 0⟩

end Work

end Nlp
