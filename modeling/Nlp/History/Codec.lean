import Nlp.History.Solution
import Nlp.Json.Parser
import Nlp.Json.Printer

/-!
# Stored problems and solutions

Snapshots and solutions as JSON.  Every record is an object with the fields in a fixed order; in
reading it may also be a list of them.  A number that is none is stored as `null`, which does not
read back.

## Main definitions

* `Snapshot.toJson`, `Snapshot.ofJson?`, and the same for the records inside.
* `Solution.toJson`, `Solution.ofJson?`.
-/

namespace Nlp

/-! ## Problems -/

namespace Variable

/-- A variable as a record. -/
def toJson (v : Variable Double) : Json :=
  .object [("name", .text v.name), ("kind", .text v.kind.name), ("lower", .ofDouble v.lower),
    ("upper", .ofDouble v.upper), ("value", .ofDouble v.value)]

/-- A variable from its record. -/
def ofJson? (j : Json) : Option (Variable Double) := do
  let [name, kind, lower, upper, value] ← j.record? ["name", "kind", "lower", "upper", "value"]
    | none
  return ⟨← name.text?, ← kind.variant? VariableKind.table, ← lower.double?, ← upper.double?,
    ← value.double?⟩

end Variable

namespace Constraint

/-- A constraint as a record. -/
def toJson (c : Constraint Double) : Json :=
  .object [("name", .text c.name), ("kind", .text c.kind.name), ("target", .ofDouble c.target)]

/-- A constraint from its record. -/
def ofJson? (j : Json) : Option (Constraint Double) := do
  let [name, kind, target] ← j.record? ["name", "kind", "target"] | none
  return ⟨← name.text?, ← kind.variant? ConstraintKind.table, ← target.double?⟩

end Constraint

/-- An objective as a record. -/
def objectiveToJson (name : String) : Json :=
  .object [("name", .text name)]

/-- An objective from its record. -/
def objectiveOfJson? (j : Json) : Option String := do
  let [name] ← j.record? ["name"] | none
  name.text?

namespace Snapshot

/-- A snapshot as a record. -/
def toJson (s : Snapshot Double) : Json :=
  .object [("name", .text s.name), ("variables", .array (s.vars.map Variable.toJson)),
    ("objectives", .array (s.objectives.map objectiveToJson)),
    ("constraints", .array (s.constraints.map Constraint.toJson))]

/-- A snapshot from its record. -/
def ofJson? (j : Json) : Option (Snapshot Double) := do
  let [name, vars, objectives, constraints] ←
    j.record? ["name", "variables", "objectives", "constraints"] | none
  return ⟨← name.text?, ← vars.list? Variable.ofJson?, ← objectives.list? objectiveOfJson?,
    ← constraints.list? Constraint.ofJson?⟩

/-- The stored text of a snapshot. -/
def store (s : Snapshot Double) : String :=
  s.toJson.pretty

/-- A snapshot from a stored text. -/
def load (text : String) : Except (Error Double) (Snapshot Double) :=
  match Json.parse? text >>= ofJson? with
  | some s => .ok s
  | none => .error .serialization

end Snapshot

/-! ## Solutions -/

namespace Duration

/-- A span of time as a record. -/
def toJson (d : Duration) : Json :=
  .object [("secs", .ofNat d.seconds), ("nanos", .ofNat d.nanoseconds)]

/-- A span of time from its record, which has no other fields.  Nanoseconds beyond a second are
carried over; the seconds have to fit 64 bits then. -/
def ofJson? (j : Json) : Option Duration := do
  let closed : Bool :=
    match j with
    | .object fields => fields.all fun (name, _) => name == "secs" || name == "nanos"
    | _ => true
  let [seconds, nanoseconds] ← j.record? ["secs", "nanos"] | none
  let seconds ← seconds.natural? 64
  let nanoseconds ← nanoseconds.natural? 32
  let carried := seconds + nanoseconds / 1_000_000_000
  if closed ∧ carried < UInt64.size then return ⟨carried, nanoseconds % 1_000_000_000⟩ else none

end Duration

namespace SolvedConstraint

/-- A solved constraint as a record. -/
def toJson (c : SolvedConstraint) : Json :=
  .object [("name", .text c.name), ("kind", .text c.kind.name), ("target", .ofDouble c.target),
    ("value", .ofDouble c.value), ("multiplier", .ofDouble c.multiplier)]

/-- A solved constraint from its record. -/
def ofJson? (j : Json) : Option SolvedConstraint := do
  let [name, kind, target, value, multiplier] ←
    j.record? ["name", "kind", "target", "value", "multiplier"] | none
  return ⟨← name.text?, ← kind.variant? ConstraintKind.table, ← target.double?, ← value.double?,
    ← multiplier.double?⟩

end SolvedConstraint

namespace Method

/-- The record of a method with a step. -/
def stepToJson (name : String) (step : Double) : Json :=
  .object [(name, .object [("step", .ofDouble step)])]

/-- A method as a tagged value. -/
def toJson : Method Double → Json
  | finiteDifference step => stepToJson "FiniteDifference" step
  | complexStep step => stepToJson "ComplexStep" step
  | analytic => .text "Analytic"

/-- A method from a tagged value. -/
def ofJson? (j : Json) : Option (Method Double) :=
  match j with
  | .object [(name, payload)] =>
    if name = "FiniteDifference" ∨ name = "ComplexStep" then do
      let [step] ← payload.record? ["step"] | none
      let step ← step.double?
      return if name = "FiniteDifference" then finiteDifference step else complexStep step
    else j.variant? [("Analytic", analytic)]
  | _ => j.variant? [("Analytic", analytic)]

end Method

namespace Statistics

/-- Statistics as a record. -/
def toJson (s : Statistics) : Json :=
  .object [("wall_time", s.wallTime.toJson), ("iterations", .ofNat s.iterations),
    ("evaluations", .ofNat s.evaluations), ("jacobian_evaluations", .ofNat s.jacobians),
    ("sensitivity_evaluations", .ofNat s.sensitivityEvaluations),
    ("sensitivity", s.method.toJson), ("mode", .text s.mode.name), ("ranks", .ofNat s.ranks)]

/-- Statistics from their record. -/
def ofJson? (j : Json) : Option Statistics := do
  let [wallTime, iterations, evaluations, jacobians, sensitivityEvaluations, method, mode, ranks] ←
    j.record? ["wall_time", "iterations", "evaluations", "jacobian_evaluations",
      "sensitivity_evaluations", "sensitivity", "mode", "ranks"] | none
  return ⟨← Duration.ofJson? wallTime, ← iterations.natural? 64, ← evaluations.natural? 64,
    ← jacobians.natural? 64, ← sensitivityEvaluations.natural? 64, ← Method.ofJson? method,
    ← mode.variant? Mode.table, ← ranks.natural? 64⟩

end Statistics

namespace Solution

/-- A solution as a record. -/
def toJson (s : Solution) : Json :=
  .object [("index", .ofNat s.index), ("problem", .text s.problem),
    ("optimizer", .text s.optimizer), ("status", .text s.status.name),
    ("message", .text s.message), ("objective_name", .text s.objectiveName),
    ("objective", .ofDouble s.objective),
    ("variables", .array (s.vars.map Variable.toJson)),
    ("constraints", .array (s.constraints.map SolvedConstraint.toJson)),
    ("objective_history", .array (s.objectiveHistory.map Json.ofDouble)),
    ("stats", s.statistics.toJson),
    ("options", s.options.toJson)]

/-- A solution from its record. -/
def ofJson? (j : Json) : Option Solution := do
  let [index, problem, optimizer, status, message, objectiveName, objective, vars,
      constraints, objectiveHistory, statistics, options] ←
    j.record? ["index", "problem", "optimizer", "status", "message", "objective_name",
      "objective", "variables", "constraints", "objective_history", "stats", "options"] | none
  return ⟨← index.natural? 64, ← problem.text?, ← optimizer.text?, ← status.variant? Status.table,
    ← message.text?, ← objectiveName.text?, ← objective.double?,
    ← vars.list? Variable.ofJson?, ← constraints.list? SolvedConstraint.ofJson?,
    ← objectiveHistory.list? Json.double?, ← Statistics.ofJson? statistics,
    ← OptionTable.ofJson? options⟩

/-- The stored text of a solution. -/
def store (s : Solution) : String :=
  s.toJson.pretty

/-- A solution from a stored text. -/
def load (text : String) : Except (Error Double) Solution :=
  match Json.parse? text >>= ofJson? with
  | some s => .ok s
  | none => .error .serialization

end Solution

end Nlp
