import Nlp.Solver.Basic

/-!
# Solve status

The outcome of a solve in words that no solver owns, and the map from a solver's return codes.
-/

namespace Nlp

/-- The outcome of a solve. -/
inductive Status where
  /-- A first-order optimum within the tolerances. -/
  | optimal
  /-- A point within looser tolerances, or one no step improves. -/
  | acceptable
  /-- The constraints could not be met. -/
  | infeasible
  /-- The run went astray. -/
  | diverged
  /-- The iterations ran out. -/
  | iterationLimit
deriving DecidableEq, Repr, Inhabited

namespace Status

/-- The status in words. -/
def text : Status → String
  | optimal => "optimal"
  | acceptable => "acceptable"
  | infeasible => "infeasible"
  | diverged => "diverged"
  | iterationLimit => "iteration limit"

/-- The name a status is stored under. -/
def name : Status → String
  | optimal => "Optimal"
  | acceptable => "Acceptable"
  | infeasible => "Infeasible"
  | diverged => "Diverged"
  | iterationLimit => "IterationLimit"

/-- All statuses by name. -/
def table : List (String × Status) :=
  [optimal, acceptable, infeasible, diverged, iterationLimit].map fun s => (s.name, s)

/-- An optimal or acceptable solve counts as a success. -/
def isSuccess : Status → Bool
  | optimal | acceptable => true
  | _ => false

/-- The status of a return code; a code no solver gives counts as diverged. -/
def ofCode (code : Int) : Status :=
  if code = ReturnCode.succeeded.toInt then optimal
  else if code = ReturnCode.acceptable.toInt ∨ code = ReturnCode.smallStep.toInt then acceptable
  else if code = ReturnCode.infeasible.toInt then infeasible
  else if code = ReturnCode.iterationLimit.toInt then iterationLimit
  else diverged

end Status

/-- A return code in words. -/
def describeCode (code : Int) : String :=
  let text :=
    if code = ReturnCode.succeeded.toInt then "Solve succeeded"
    else if code = ReturnCode.acceptable.toInt then "Solved to acceptable level"
    else if code = ReturnCode.infeasible.toInt then "Converged to a point of local infeasibility"
    else if code = ReturnCode.smallStep.toInt then "Search direction becomes too small"
    else if code = ReturnCode.diverging.toInt then "Iterates diverging"
    else if code = ReturnCode.iterationLimit.toInt then "Maximum number of iterations exceeded"
    else if code = ReturnCode.lineSearchFailed.toInt then "Line search failed"
    else "Unrecognized return code"
  text ++ " (code " ++ toString code ++ ")"

end Nlp
