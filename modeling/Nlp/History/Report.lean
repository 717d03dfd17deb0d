import Nlp.History.Solution
import Nlp.Text.Column
import Nlp.Text.Escaped

/-!
# Reports

Problems and solutions as text for people.
-/

namespace Nlp

/-- Lines with a line break after each. -/
def unlines (lines : List String) : String :=
  String.join (lines.map fun line => line ++ "\n")

/-- A number in scientific writing with six places, at the right end of a column. -/
def numberColumn (width : Nat) (d : Double) : String :=
  alignRight width (d.inScientific 6)

namespace Problem

/-- The line of a variable: name, kind, and value between its bounds. -/
def variableLine (v : Variable Double) : String :=
  "        " ++ alignLeft 12 v.name ++ " " ++ String.singleton v.kind.code ++ "  " ++
    numberColumn 12 v.lower ++ " <= " ++ numberColumn 12 v.value ++ " <= " ++
    numberColumn 12 v.upper

/-- The line of a constraint: name, kind, sense and target. -/
def constraintLine (c : Constraint Double) : String :=
  let sense :=
    match c.kind with
    | .inequality => "<="
    | .equality => "=="
  "        " ++ alignLeft 12 c.name ++ " " ++ String.singleton c.kind.code ++ "  g " ++ sense ++
    " " ++ c.target.inScientific 6

/-- The report of a problem. -/
def report (p : Problem Double) : String :=
  unlines <|
    ["Optimization Problem -- " ++ p.name, "    Objectives:"] ++
      p.objectives.map ("        " ++ ·) ++
      ["    Variables (c - continuous, i - integer, d - discrete):"] ++
      p.vars.map variableLine ++
      if p.constraints.isEmpty then []
      else "    Constraints (i - inequality, e - equality):" :: p.constraints.map constraintLine

/-- A problem with the sizes of its registries and of its history, in one line. -/
def summary (p : Problem Double) (solutions : Nat) : String :=
  "Problem \x7b name: " ++ quoteText p.name ++
    ", variables: " ++ toString p.vars.length ++
    ", objectives: " ++ toString p.objectives.length ++
    ", constraints: " ++ toString p.constraints.length ++
    ", solutions: " ++ toString solutions ++ " \x7d"

end Problem

/-- The seconds of a span of time. -/
def Duration.inSeconds (d : Duration) : Double :=
  Double.ofNat d.seconds + Double.ofNat d.nanoseconds / 1e9

namespace Solution

/-- A line of six columns; the third is not filled up where it holds a kind. -/
def columns (index name kind a b c : String) : String :=
  "    " ++ alignRight 5 index ++ "  " ++ alignLeft 12 name ++ " " ++ kind ++ "  " ++
    alignRight 14 a ++ " " ++ alignRight 14 b ++ " " ++ alignRight 14 c

/-- The line of a variable. -/
def variableLine (v : Variable Double) (index : Nat) : String :=
  columns (toString index) v.name (String.singleton v.kind.code) (v.lower.inScientific 6)
    (v.value.inScientific 6) (v.upper.inScientific 6)

/-- The line of a constraint. -/
def constraintLine (c : SolvedConstraint) (index : Nat) : String :=
  columns (toString index) c.name (String.singleton c.kind.code) (c.target.inScientific 6)
    (c.value.inScientific 6) (c.multiplier.inScientific 6)

/-- A line of 78 equals signs. -/
def rule : String :=
  String.ofList (List.replicate 78 '=')

/-- The lines about the solve as a whole. -/
def headLines (s : Solution) : List String :=
  ["Optimization Problem -- " ++ s.problem, rule,
    "    Solution #" ++ toString s.index ++ " from " ++ s.optimizer ++ ": " ++ s.status.text] ++
  (if s.message.isEmpty then [] else ["    " ++ s.message]) ++
  ["    Objective Function: " ++ s.objectiveName ++ " = " ++ s.objective.withPlaces 6,
    "    Wall time " ++ s.statistics.wallTime.inSeconds.withPlaces 4 ++ " s, " ++
      toString s.statistics.iterations ++ " iterations, " ++
      toString s.statistics.evaluations ++ " evaluations, " ++
      toString s.statistics.jacobians ++ " sensitivity requests",
    "    Sensitivities: " ++ s.statistics.method.text ++ " (" ++ s.statistics.mode.text ++
      ") over " ++ toString s.statistics.ranks ++ " rank(s), " ++
      toString s.statistics.sensitivityEvaluations ++ " model calls"]

/-- The table of variables. -/
def variableLines (s : Solution) : List String :=
  ["", "   Variables (c - continuous, i - integer, d - discrete)",
    columns "Index" "Name" "Type" "Lower Bound" "Value" "Upper Bound"] ++
  s.vars.mapIdx fun i v => variableLine v i

/-- The table of constraints, left out if there are none. -/
def constraintLines (s : Solution) : List String :=
  if s.constraints.isEmpty then []
  else
    ["", "   Constraints (i - inequality, e - equality)",
      columns "Index" "Name" "Type" "Target" "Value" "Multiplier"] ++
    s.constraints.mapIdx fun i c => constraintLine c i

/-- The report of a solution. -/
def report (s : Solution) : String :=
  unlines (s.headLines ++ s.variableLines ++ s.constraintLines) ++ rule

end Solution

end Nlp
