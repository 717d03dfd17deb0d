import Nlp.Decimal.Style
import Nlp.Solver.Basic
import Nlp.Status
import Nlp.Wire.Fault

/-!
# Errors

Everything that can go wrong outside a solver, as causes; the wording is in `Error.message` and
the functions before it.

## Main definitions

* `Reason`: why an option value is refused.
* `CommFault`: why ranks cannot talk.
* `RankFailure`: one rank's failure inside a parallel request.
* `Error`, `Error.message`, `Error.ofSolver`.
-/

namespace Nlp

/-- The index of a rank in its group. -/
abbrev Rank : Type := Nat

/-- Why a value is refused. -/
inductive Reason (α : Type) where
  /-- No kind has this name. -/
  | unknownKind (text : String)
  /-- No sensitivity method has this name. -/
  | unknownSensitivity (text : String)
  /-- No sensitivity mode has this name. -/
  | unknownMode (text : String)
  /-- A number is needed; `found` is the type there is. -/
  | notNumber (found : String)
  /-- An integer is needed; `found` is the type there is. -/
  | notInteger (found : String)
  /-- The number is not positive and finite. -/
  | notPositive (value : α)
  /-- The number does not exceed one. -/
  | notAboveOne (value : α)
  /-- The integer is outside its bounds. -/
  | outOfRange (low high found : Int)
  /-- A solver refuses its configuration. -/
  | solver (fault : ConfigFault α)
  /-- Any other reason, in words. -/
  | described (text : String)

/-- Why ranks cannot talk. -/
inductive CommFault where
  /-- A single rank has no rank `root`. -/
  | rootOfSingle (root : Rank)
  /-- A group of `size` ranks has no rank `root`. -/
  | rootOfGroup (root size : Nat)
  /-- The rank's inbox is gone. -/
  | hungUp (rank : Rank)
  /-- The rank `me` has learned that `peer` unwound. -/
  | terminated (me peer : Rank)
  /-- Nobody is left who could send. -/
  | everyPeerHungUp (me : Rank)
  /-- The root of a broadcast has nothing to send. -/
  | noValue
  /-- Only the root may ask for a parallel Jacobian. -/
  | notRoot (rank : Rank)
  /-- A gather at the root gave no acknowledgements. -/
  | noAcknowledgements
  /-- A gather at the root gave no column reports. -/
  | noReports
  /-- A column is out of range or was reported before. -/
  | columnRepeated (column : Nat)
  /-- Nobody reported a column. -/
  | columnMissing (column : Nat)
  /-- A message cannot be read. -/
  | encoding (fault : Wire.Fault)
  /-- Any other fault, in words. -/
  | described (text : String)
deriving DecidableEq

/-- One rank's failure inside a parallel request. -/
structure RankFailure where
  /-- The rank that failed. -/
  rank : Rank
  /-- Its error, in words. -/
  reason : String
deriving DecidableEq, Inhabited

/-- Everything that can go wrong outside a solver. -/
inductive Error (α : Type) where
  /-- The registry has an entry of this name. -/
  | duplicateName (registry name : String)
  /-- The lower bound of a variable is not at most its upper bound. -/
  | bounds (name : String) (lower upper : α)
  /-- A length is not the declared one. -/
  | shapeMismatch (what : String) (expected found : Nat)
  /-- The model could not be evaluated. -/
  | userFunction (code : Int)
  /-- No option has this key. -/
  | unknownOption (key : String)
  /-- The value of an option, or a name, is refused. -/
  | invalidOption (key : String) (reason : Reason α)
  /-- Some ranks failed in a parallel request. -/
  | derivativeEvaluation (failures : List RankFailure)
  /-- Complex step needs a model that accepts complex arguments. -/
  | complexStepUnsupported
  /-- Analytic sensitivities need a model with a gradient. -/
  | missingGradient
  /-- The solver did not converge; its solution is recorded. -/
  | solverDiverged (index : Nat) (status : Status)
  /-- The solver found the problem infeasible; its solution is recorded. -/
  | solverInfeasible (index : Nat)
  /-- There is no solution of this index. -/
  | indexOutOfRange (index count : Nat)
  /-- The problem is none the solver handles. -/
  | unsupported (reason : Unsupported)
  /-- The ranks cannot talk. -/
  | communication (fault : CommFault)
  /-- A text is not the JSON of what it should hold. -/
  | serialization

/-- A solver's own error, seen from outside. -/
def Error.ofSolver {α : Type} : SolverError α → Error α
  | .invalidConfig fault => .invalidOption "solver configuration" (.solver fault)
  | .dimension what expected found => .shapeMismatch what expected found
  | .invalidBounds index lower upper => .bounds ("#" ++ toString index) lower upper
  | .unsupported reason => .unsupported reason

/-! ## Wording -/

/-- What is wrong with a configuration, in words. -/
def ConfigFault.message : ConfigFault Double → String
  | .iterationLimits => "iteration limits must be positive"
  | .iterationLimit => "max_iterations must be positive"
  | .notPositive field value =>
    field ++ " must be positive and finite, got " ++ value.plain
  | .growth value => "penalty_growth must exceed 1, got " ++ value.plain
  | .ceiling most start =>
    "penalty_max (" ++ most.plain ++ ") below penalty_init (" ++ start.plain ++ ")"
  | .described text => text

/-- What a solver does not handle, in words. -/
def Unsupported.message : Unsupported → String
  | .constraintRows count =>
    "projected BFGS handles bounds only, problem has " ++ toString count ++ " constraint rows"
  | .generalConstraints count =>
    "bfgs handles bound constraints only, problem has " ++ toString count ++
      " general constraints"
  | .described text => text

/-- A solver's error in words. -/
def SolverError.message : SolverError Double → String
  | .invalidConfig fault => "Invalid solver configuration: " ++ fault.message
  | .dimension what expected found =>
    "Dimension mismatch for " ++ what ++ ": expected " ++ toString expected ++ ", found " ++
      toString found
  | .invalidBounds index lower upper =>
    "Invalid bounds for variable " ++ toString index ++ ": [" ++ lower.plain ++ ", " ++
      upper.plain ++ "]"
  | .unsupported reason => "Unsupported problem: " ++ reason.message

/-- Why a value is refused, in words. -/
def Reason.message : Reason Double → String
  | .unknownKind text => "unrecognized kind '" ++ text ++ "'"
  | .unknownSensitivity text => "expected FD, CS or analytic, got '" ++ text ++ "'"
  | .unknownMode text => "expected '', pgc or threads, got '" ++ text ++ "'"
  | .notNumber found => "expected a number, got " ++ found
  | .notInteger found => "expected an integer, got " ++ found
  | .notPositive value => "must be positive and finite, got " ++ value.plain
  | .notAboveOne value => "must exceed 1, got " ++ value.plain
  | .outOfRange low high found =>
    "must lie in [" ++ toString low ++ ", " ++ toString high ++ "], got " ++ toString found
  | .solver fault => fault.message
  | .described text => text

/-- Why ranks cannot talk, in words. -/
def CommFault.message : CommFault → String
  | .rootOfSingle root => "root " ++ toString root ++ " out of range for a single rank"
  | .rootOfGroup root size =>
    "root " ++ toString root ++ " out of range for " ++ toString size ++ " ranks"
  | .hungUp rank => "rank " ++ toString rank ++ " hung up"
  | .terminated me peer =>
    "rank " ++ toString me ++ ": rank " ++ toString peer ++ " terminated"
  | .everyPeerHungUp me => "rank " ++ toString me ++ ": every peer hung up"
  | .noValue => "root must supply the broadcast value"
  | .notRoot rank => "rank " ++ toString rank ++ " cannot request a parallel jacobian"
  | .noAcknowledgements => "root received no acknowledgements"
  | .noReports => "root received no column reports"
  | .columnRepeated column =>
    "column " ++ toString column ++ " reported out of range or twice"
  | .columnMissing column => "column " ++ toString column ++ " never reported"
  | .encoding fault => "message encoding: " ++ fault.message
  | .described text => text

/-- One rank's failure in words. -/
def RankFailure.message (f : RankFailure) : String :=
  "rank " ++ toString f.rank ++ ": " ++ f.reason

/-- An error in words. -/
def Error.message : Error Double → String
  | .duplicateName registry name => "Duplicate " ++ registry ++ " name: " ++ name
  | .bounds name lower upper =>
    "Invalid bounds for variable " ++ name ++ ": lower " ++ lower.plain ++ " > upper " ++
      upper.plain
  | .shapeMismatch what expected found =>
    "Shape mismatch for " ++ what ++ ": expected " ++ toString expected ++ ", found " ++
      toString found
  | .userFunction code => "User function signalled failure (fail = " ++ toString code ++ ")"
  | .unknownOption key => "Unknown option: " ++ key
  | .invalidOption key reason => "Invalid value for option " ++ key ++ ": " ++ reason.message
  | .derivativeEvaluation failures =>
    "Derivative evaluation failed: " ++ "; ".intercalate (failures.map RankFailure.message)
  | .complexStepUnsupported =>
    "Model does not accept complex arguments; complex-step sensitivities unavailable"
  | .missingGradient =>
    "Analytic sensitivities requested but the model provides no gradient"
  | .solverDiverged index status =>
    "Solver diverged (" ++ status.text ++ "); solution recorded at index " ++ toString index
  | .solverInfeasible index =>
    "Solver detected an infeasible problem; solution recorded at index " ++ toString index
  | .indexOutOfRange index count =>
    "Solution index " ++ toString index ++ " out of range (count " ++ toString count ++ ")"
  | .unsupported reason => "Unsupported problem: " ++ reason.message
  | .communication fault => "Communication error: " ++ fault.message
  | .serialization => "Serialization error: not the expected JSON"

end Nlp
