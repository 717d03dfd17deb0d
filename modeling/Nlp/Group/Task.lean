import Nlp.Group.Parts
import Nlp.Problem.Evaluation

/-!
# Tasks of a rank

A rank calls its own model and takes part in two collectives of its group: the root broadcasts
bytes to every rank, and every rank's bytes are gathered at the root.  A task is a program over
these calls that may fail; how the bytes travel is left to whoever answers.

## Main definitions

* `rankAccess`, `Task`: the interface of a rank, and programs over it that may fail.
* `Place`: a rank within its group.
* `Place.broadcast`, `Place.gather`: the collectives for values with a wire format.
-/

namespace Nlp

/-- The rank that owns the problem and drives the solver. -/
def rootRank : Rank := 0

/-- The calls of a rank. -/
inductive RankCall where
  /-- A call of the rank's own model. -/
  | model (c : ModelCall Double)
  /-- The next collective distributes the root's bytes; other ranks pass none. -/
  | broadcast (payload : Bytes)
  /-- The next collective collects the bytes of all ranks at the root. -/
  | gather (payload : Bytes)

/-- The interface of a rank. -/
@[reducible] def rankAccess : Interface where
  Call := RankCall
  Reply
    | .model c => (modelAccess Double).Reply c
    | .broadcast _ => Except CommFault Bytes
    | .gather _ => Except CommFault (Option Parts)

/-- A program of a rank that may fail. -/
abbrev Task : Type → Type :=
  ExceptT (Error Double) (Program rankAccess)

/-- A program over the model as a program of its rank. -/
def Program.onRank {τ : Type} (p : Program (modelAccess Double) τ) : Program rankAccess τ :=
  p.interpret fun c => Program.perform (I := rankAccess) (.model c)

namespace Task

variable {τ : Type}

/-- A program over the model as a task of its rank. -/
def ofLocal (p : Local Double τ) : Task τ :=
  ExceptT.mk p.run.onRank

/-- A result as a task. -/
def ofExcept : Except (Error Double) τ → Task τ
  | .ok r => pure r
  | .error e => throw e

/-- An event. -/
def note (event : Event Double) : Task Unit :=
  ofLocal (Local.note event)

/-- The collectives fail with faults of communication. -/
def ofReply (p : Program rankAccess (Except CommFault τ)) : Task τ :=
  ExceptT.mk <| p.bind fun
    | .ok r => .done (.ok r)
    | .error fault => .done (.error (.communication fault))

/-- The bytes of the next broadcast. -/
def broadcastBytes (payload : Bytes) : Task Bytes :=
  ofReply (Program.perform (I := rankAccess) (.broadcast payload))

/-- The bytes of the next gather, by rank, at the root. -/
def gatherBytes (payload : Bytes) : Task (Option Parts) :=
  ofReply (Program.perform (I := rankAccess) (.gather payload))

/-- A value as a message.  Where a count or an index is no word, there is no such message, and the
program ends here. -/
def encode [Wire τ] (v : τ) : Task Bytes :=
  if Wire.extent v < Wire.wordLimit then pure (Wire.toBytes v)
  else ofLocal (Local.outOfRange (Wire.extent v) Wire.wordLimit)

/-- A message as a value. -/
def decode [Wire τ] (bytes : Bytes) : Task τ :=
  match Wire.ofBytes bytes with
  | .ok v => pure v
  | .error fault => throw (.communication (.encoding fault))

/-- The messages of some ranks as values, up to the first that is none. -/
def decodeAll [Wire τ] : Parts → Task (List (Rank × τ))
  | [] => pure []
  | (rank, bytes) :: parts => do
    let v ← decode bytes
    let vs ← decodeAll parts
    return (rank, v) :: vs

end Task

/-- A rank and the size of its group. -/
structure Place where
  /-- The rank. -/
  rank : Rank
  /-- The number of ranks. -/
  size : Nat
deriving DecidableEq, Repr, Inhabited

namespace Place

variable {τ : Type}

/-- The only rank of a group of one. -/
def single : Place := ⟨rootRank, 1⟩

/-- The rank is the root. -/
def isRoot (here : Place) : Bool := here.rank = rootRank

/-- The root's value, at every rank.  The root has to have one, and reads its own message like the
others. -/
def broadcast [Wire τ] (here : Place) (value : Option τ) : Task τ := do
  let bytes ←
    if here.isRoot then
      match value with
      | some v => Task.broadcastBytes (← Task.encode v)
      | none => throw (.communication .noValue)
    else Task.broadcastBytes []
  Task.decode bytes

/-- Every rank's value, by rank, at the root. -/
def gather [Wire τ] (value : τ) : Task (Option (List (Rank × τ))) := do
  match ← Task.gatherBytes (← Task.encode value) with
  | some parts => return some (← Task.decodeAll parts)
  | none => return none

end Place

end Nlp
