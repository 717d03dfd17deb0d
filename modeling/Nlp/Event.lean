import Nlp.Derivative.Method
import Nlp.Options.Value
import Nlp.Problem.Kind
import Nlp.Text.Column

/-!
# Log events

What the library reports while it works.  An event is data; its severity, message and fields are
functions of it.

## Main definitions

* `Event`: everything that is reported.
* `Event.level`, `Event.message`, `Event.fields`.
-/

namespace Nlp

/-- Severity of an event. -/
inductive Level where
  /-- Something is wrong. -/
  | warn
  /-- Something worth knowing happened. -/
  | info
  /-- Detail for whoever looks for a fault. -/
  | debug
  /-- Every step. -/
  | trace
deriving DecidableEq, Repr, Inhabited

namespace Level

/-- The name of a level. -/
def name : Level → String
  | warn => "WARN"
  | info => "INFO"
  | debug => "DEBUG"
  | trace => "TRACE"

/-- How many levels are more severe. -/
def rank : Level → Nat
  | warn => 0
  | info => 1
  | debug => 2
  | trace => 3

end Level

/-- What the library reports while it works. -/
inductive Event (α : Type) where
  /-- The model is about to be evaluated. -/
  | evaluating (problem : String)
  /-- The model is about to be evaluated at a complex point. -/
  | evaluatingComplex (problem : String)
  /-- A Jacobian is asked for. -/
  | jacobianRequest (method : Method α) (mode : Mode)
  /-- Finite differences take the place of complex step. -/
  | complexRejected (problem : String)
  /-- Every rank has the layout of the root. -/
  | sessionEstablished (ranks : Nat)
  /-- A rank does not have the layout of the root. -/
  | layoutDiffers (rank : Rank) (reason : String)
  /-- A rank could not evaluate its columns. -/
  | columnsFailed (rank : Rank) (reason : String)
  /-- The root has ended a rank's session. -/
  | released (rank : Rank) (served : Nat)
  /-- A solve begins. -/
  | solveStarted (problem optimizer : String) (method : Method α) (mode : Mode) (ranks : Nat)
  /-- A variable is treated as continuous. -/
  | relaxing (variableName : String) (kind : VariableKind)
  /-- The other ranks could not be told that a solve has ended. -/
  | releaseFailed (error : Error α)
  /-- A solution is recorded. -/
  | solveFinished (problem : String) (index : Nat) (status : Status) (objective : α)
  /-- No option has this key. -/
  | optionIgnored (key : String) (value : OptionValue)
  /-- A message for a later collective has come. -/
  | earlyMessage (rank source : Rank)
  /-- A peer has unwound. -/
  | peerTerminated (rank peer : Rank)
  /-- The rank itself unwinds. -/
  | unwinding (rank : Rank)
  /-- A report of a solver. -/
  | solver (progress : Progress α)

/-- A field of an event. -/
inductive Field where
  /-- A text. -/
  | text (s : String)
  /-- A count or an index. -/
  | natural (n : Nat)
  /-- A number. -/
  | number (d : Double)

/-- The name of an inner stop. -/
def InnerStop.name : InnerStop → String
  | converged => "Converged"
  | smallStep => "SmallStep"
  | lineSearchFailed => "LineSearchFailed"
  | iterationLimit => "IterationLimit"
  | nonFinite => "NonFinite"

/-- The text of a number in scientific writing with a sign and ten places. -/
def signedTen (d : Double) : String :=
  d.inSignedScientific true 10

/-- A report of a solver in words. -/
def Progress.message : Progress Double → String
  | .innerStep iteration merit gradientNorm length =>
    "inner " ++ alignRight 4 (toString iteration) ++ "  merit " ++ signedTen merit ++ "  |pg| " ++
      gradientNorm.inScientific 3 ++ "  alpha " ++ length.inScientific 3
  | .outerReport outer objective merit measure gradientNorm penalty inner stop =>
    "outer " ++ alignRight 3 (toString outer) ++ "  f " ++ signedTen objective ++ "  L " ++
      signedTen merit ++ "  infeas " ++ measure.inScientific 3 ++ "  |pg| " ++
      (gradientNorm.getD .infinity).inScientific 3 ++ "  rho " ++ penalty.inScientific 1 ++
      "  inner " ++ toString inner ++ " (" ++ stop.name ++ ")"
  | .outerTrace outer objective merit measure penalty =>
    "outer " ++ toString outer ++ " f=" ++ objective.plain ++ " merit=" ++ merit.plain ++
      " measure=" ++ measure.plain ++ " rho=" ++ penalty.plain
  | .nonFinite outer =>
    "augmented Lagrangian hit non-finite values at outer iteration " ++ toString outer
  | .finished .augmentedLagrangian code iterations objective =>
    "augmented Lagrangian finished: code " ++ toString code.toInt ++ " after " ++
      toString iterations ++ " outer iterations, f = " ++ objective.inScientific 10
  | .finished .projectedBfgs code iterations objective =>
    "projected BFGS finished: code " ++ toString code.toInt ++ " after " ++
      toString iterations ++ " iterations, f = " ++ objective.inScientific 10

/-- The severity of a solver's report. -/
def Progress.level {α : Type} : Progress α → Level
  | .innerStep .. | .outerTrace .. => .debug
  | .outerReport .. | .finished .. => .info
  | .nonFinite .. => .warn

namespace Event

/-- The severity of an event. -/
def level {α : Type} : Event α → Level
  | evaluating .. | evaluatingComplex .. | earlyMessage .. => .trace
  | jacobianRequest .. | sessionEstablished .. | columnsFailed .. | released .. => .debug
  | solveStarted .. | solveFinished .. => .info
  | complexRejected .. | layoutDiffers .. | relaxing .. | releaseFailed .. | optionIgnored ..
  | peerTerminated .. | unwinding .. => .warn
  | solver progress => progress.level

/-- The message of an event. -/
def message : Event Double → String
  | evaluating _ => "evaluate"
  | evaluatingComplex _ => "evaluate_complex"
  | jacobianRequest .. => "jacobian request"
  | complexRejected _ => "model rejects complex input; using finite differences"
  | sessionEstablished _ => "parallel sensitivity session established"
  | layoutDiffers .. => "problem layout differs from root"
  | columnsFailed .. => "column evaluation failed"
  | released .. => "released by root"
  | solveStarted .. => "solve started"
  | relaxing .. => "relaxing to a continuous variable"
  | releaseFailed _ => "failed to release worker ranks"
  | solveFinished .. => "solve finished"
  | optionIgnored .. => "ignoring unknown solver option"
  | earlyMessage .. => "buffering early message"
  | peerTerminated .. => "peer rank terminated"
  | unwinding _ => "rank unwinding, notifying peers"
  | solver progress => progress.message

/-- The fields of an event, by name. -/
def fields : Event Double → List (String × Field)
  | evaluating problem | evaluatingComplex problem | complexRejected problem =>
    [("problem", .text problem)]
  | jacobianRequest method mode =>
    [("sensitivity", .text method.text), ("mode", .text mode.text)]
  | sessionEstablished ranks => [("ranks", .natural ranks)]
  | layoutDiffers rank reason | columnsFailed rank reason =>
    [("rank", .natural rank), ("reason", .text reason)]
  | released rank served => [("rank", .natural rank), ("served", .natural served)]
  | solveStarted problem optimizer method mode ranks =>
    [("problem", .text problem), ("optimizer", .text optimizer),
      ("sensitivity", .text method.text), ("mode", .text mode.text), ("ranks", .natural ranks)]
  | relaxing variableName kind =>
    [("variable", .text variableName), ("kind", .text (String.singleton kind.code))]
  | releaseFailed error => [("error", .text error.message)]
  | solveFinished problem index status objective =>
    [("problem", .text problem), ("index", .natural index), ("status", .text status.text),
      ("objective", .number objective)]
  | optionIgnored key value => [("key", .text key), ("value", .text value.display)]
  | earlyMessage rank source => [("rank", .natural rank), ("source", .natural source)]
  | peerTerminated rank peer => [("rank", .natural rank), ("peer", .natural peer)]
  | unwinding rank => [("rank", .natural rank)]
  | solver _ => []

end Event

end Nlp
