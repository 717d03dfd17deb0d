import Nlp.Derivative.Method
import Nlp.Options.Table
import Nlp.Problem.Basic
import Nlp.Status

/-!
# Solutions and their history

A solution is the frozen record of one solve that came to a definite end.  A problem's history
keeps its solutions in the order of the solves, and nothing is ever taken out of it.

## Main definitions

* `Duration`, `SolvedConstraint`, `Statistics`, `Solution`.
* `History`, `History.append`, `History.get`.

## Main results

* `History.get_append_count`, `History.get_append_of_lt`: what an append adds, and what it keeps.
-/

namespace Nlp

/-- A span of time. -/
structure Duration where
  /-- Whole seconds. -/
  seconds : Nat
  /-- Nanoseconds within the last second. -/
  nanoseconds : Nat
deriving DecidableEq, Inhabited

/-- A constraint with what a solve made of it. -/
structure SolvedConstraint where
  /-- The constraint's name. -/
  name : String
  /-- Its kind. -/
  kind : ConstraintKind
  /-- Its target. -/
  target : Double
  /-- The row's value at the solution. -/
  value : Double
  /-- The Lagrange multiplier estimate. -/
  multiplier : Double
deriving DecidableEq, Inhabited

/-- What a solve took. -/
structure Statistics where
  /-- Time from start to end. -/
  wallTime : Duration
  /-- Major iterations. -/
  iterations : Nat
  /-- Evaluations the solver asked for. -/
  evaluations : Nat
  /-- Jacobians the solver asked for. -/
  jacobians : Nat
  /-- Model calls spent on those Jacobians, over all ranks. -/
  sensitivityEvaluations : Nat
  /-- How derivatives were obtained. -/
  method : Method Double
  /-- Where columns were evaluated. -/
  mode : Mode
  /-- The number of ranks that took part. -/
  ranks : Nat
deriving DecidableEq

/-- The record of one solve. -/
structure Solution where
  /-- The position in the history. -/
  index : Nat
  /-- The problem's name. -/
  problem : String
  /-- The solver's name. -/
  optimizer : String
  /-- The outcome. -/
  status : Status
  /-- The outcome in the solver's words. -/
  message : String
  /-- The name of the objective. -/
  objectiveName : String
  /-- The objective at the solution. -/
  objective : Double
  /-- The variables, each with its value at the solution. -/
  vars : List (Variable Double)
  /-- The constraints, each with its value and multiplier. -/
  constraints : List SolvedConstraint
  /-- The objective along the solve. -/
  objectiveHistory : List Double
  /-- What the solve took. -/
  statistics : Statistics
  /-- The options in effect. -/
  options : OptionTable
deriving DecidableEq

namespace Solution

/-- The values of the variables. -/
def x (s : Solution) : List Double :=
  s.vars.map Variable.value

/-- The variable of a name. -/
def variableNamed? (s : Solution) (name : String) : Option (Variable Double) :=
  s.vars.find? fun v => v.name == name

/-- The constraint of a name. -/
def constraintNamed? (s : Solution) (name : String) : Option SolvedConstraint :=
  s.constraints.find? fun c => c.name == name

end Solution

/-- The solutions of a problem, in the order of the solves. -/
structure History where
  /-- The solutions. -/
  solutions : List Solution := []
deriving DecidableEq, Inhabited

namespace History

/-- The number of solutions. -/
def count (h : History) : Nat := h.solutions.length

/-- The history with one more solution.  Its index is its position, whatever it was before. -/
def append (h : History) (s : Solution) : History :=
  ⟨h.solutions ++ [{ s with index := h.count }]⟩

/-- The solution of an index. -/
def get {α : Type} (h : History) (index : Nat) : Except (Error α) Solution :=
  match h.solutions[index]? with
  | some s => .ok s
  | none => .error (.indexOutOfRange index h.count)

@[simp] theorem count_append (h : History) (s : Solution) : (h.append s).count = h.count + 1 := by
  simp [append, count]

/-- The solution that was put in last is found at its index, which is its position. -/
theorem get_append_count {α : Type} (h : History) (s : Solution) :
    (h.append s).get (α := α) h.count = .ok { s with index := h.count } := by
  simp [get, append, count]

/-- The solutions that were there before stay where they are. -/
theorem get_append_of_lt {α : Type} (h : History) (s : Solution) {i : Nat} (hi : i < h.count) :
    (h.append s).get (α := α) i = h.get i := by
  have hs : h.solutions[i]? = some h.solutions[i] := List.getElem?_eq_getElem hi
  simp only [get, append, List.getElem?_append_left hi, hs]

end History

end Nlp
