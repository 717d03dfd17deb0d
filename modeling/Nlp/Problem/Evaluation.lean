import Nlp.Event
import Nlp.Linear
import Nlp.Problem.Basic
import Nlp.Problem.Model
import Nlp.Program

/-!
# Checked model calls

Every call of a model goes through its problem, which checks the point against the declared
variables and the answer against the declared objectives and constraints.  The model itself is
behind an interface: it may answer differently each time, and whoever answers for it may end the
program instead.

## Main definitions

* `modelAccess`: the interface to the model of a rank, and `Local`, programs over it that may
  fail.
* `Problem.evaluate`, `Problem.evaluateComplex`, `Problem.gradient`.
* `Model.answer`: a model that always answers alike, as an answer to the calls.
-/

namespace Nlp

/-- What a rank can do by itself. -/
inductive ModelCall (α : Type) where
  /-- The model at a point. -/
  | evaluate (x : List α)
  /-- The model at a complex point, if it has a complex continuation. -/
  | evaluateComplex (z : List (Complex α))
  /-- The model's own derivatives at a point, if it has any. -/
  | gradient (x : List α)
  /-- An event, which nothing depends on. -/
  | note (event : Event α)
  /-- An index fell outside its list; there is no reply, and the program ends here. -/
  | outOfRange (index size : Nat)

/-- The interface of a rank to its model. -/
@[reducible] def modelAccess (α : Type) : Interface where
  Call := ModelCall α
  Reply
    | .evaluate _ => Evaluation α
    | .evaluateComplex _ => Option (Evaluation (Complex α))
    | .gradient _ => Option (Sensitivity α)
    | .note _ => Unit
    | .outOfRange _ _ => Empty

/-- A program over the model that may fail. -/
abbrev Local (α : Type) : Type → Type :=
  ExceptT (Error α) (Program (modelAccess α))

namespace Local

variable {α β : Type}

/-- One call of the model. -/
def ask (c : ModelCall α) : Local α ((modelAccess α).Reply c) :=
  ExceptT.lift (Program.perform (I := modelAccess α) c)

/-- An event. -/
def note (event : Event α) : Local α Unit :=
  ask (.note event)

/-- The end of a program whose index fell outside its list. -/
def outOfRange (index size : Nat) : Local α β :=
  ExceptT.mk <| .call (I := modelAccess α) (.outOfRange index size) fun e => nomatch e

end Local

/-- The answers of a model that always answers alike.  Its program never ends early by itself, so
an index outside its list has no answer. -/
def Model.answer {α : Type} (m : Model α) :
    (c : (modelAccess α).Call) → Option ((modelAccess α).Reply c)
  | .evaluate x => some (m.evaluate x)
  | .evaluateComplex z => some (m.evaluateComplex z)
  | .gradient x => some (m.gradient x)
  | .note _ => some ()
  | .outOfRange _ _ => none

namespace Problem

variable {α : Type}

/-- A point has one entry per variable. -/
def checkPoint (p : Problem α) (found : Nat) : Except (Error α) Unit :=
  if found = p.vars.length then .ok ()
  else .error (.shapeMismatch "x" p.vars.length found)

/-- An answer is no failure, belongs to a problem with one objective, and has one row per
constraint. -/
def checkEvaluation {β : Type} (p : Problem α) (e : Evaluation β) : Except (Error α) Unit :=
  if e.fail ≠ 0 then .error (.userFunction e.fail)
  else if p.objectives.length ≠ 1 then
    .error (.shapeMismatch "objectives" 1 p.objectives.length)
  else if e.constraints.length ≠ p.constraints.length then
    .error (.shapeMismatch "g" p.constraints.length e.constraints.length)
  else .ok ()

/-- The model at a point. -/
def evaluate (p : Problem α) (x : List α) : Local α (Evaluation α) := do
  p.checkPoint x.length
  Local.note (.evaluating p.name)
  let e : Evaluation α ← Local.ask (.evaluate x)
  p.checkEvaluation e
  return e

/-- The model at a complex point; none for a model without complex continuation. -/
def evaluateComplex (p : Problem α) (z : List (Complex α)) :
    Local α (Option (Evaluation (Complex α))) := do
  p.checkPoint z.length
  Local.note (.evaluatingComplex p.name)
  let e : Option (Evaluation (Complex α)) ← Local.ask (.evaluateComplex z)
  match e with
  | none => return none
  | some e =>
    p.checkEvaluation e
    return some e

/-- A model's derivatives are no failure and have the declared shape. -/
def checkSensitivity (p : Problem α) (s : Sensitivity α) : Except (Error α) Unit :=
  let n := p.vars.length
  if s.fail ≠ 0 then .error (.userFunction s.fail)
  else if s.objective.length ≠ n then
    .error (.shapeMismatch "objective gradient" n s.objective.length)
  else if s.constraints.length ≠ p.constraints.length then
    .error (.shapeMismatch "constraint jacobian rows" p.constraints.length s.constraints.length)
  else
    match s.constraints.find? fun row => row.length != n with
    | some row => .error (.shapeMismatch "constraint jacobian columns" n row.length)
    | none => .ok ()

/-- The model's own derivatives at a point; none for a model without any. -/
def gradient (p : Problem α) (x : List α) : Local α (Option (Sensitivity α)) := do
  p.checkPoint x.length
  let s : Option (Sensitivity α) ← Local.ask (.gradient x)
  match s with
  | none => return none
  | some s =>
    p.checkSensitivity s
    return some s

end Problem

end Nlp
