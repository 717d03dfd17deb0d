import Nlp.Derivative.Jacobian
import Nlp.Group.Task
import Nlp.Wire.Message

/-!
# Parallel sensitivity sessions

A session of the ranks of a group: a handshake in which every rank compares its layout with the
root's, column requests of the root, which every rank answers with a report of its block, and one
release that ends the session.  The root places each column by its index, so the order of the
reports does not matter.

## Main definitions

* `Session.handshake`, on every rank.
* `Session.request`, on the root, and `Session.serve`, on the other ranks.
* `Session.release`, on the root.
-/

namespace Nlp.Session

/-- The columns of a rank's block, or its error in words. -/
def ownBlock (problem : Problem Double) (kernel : Kernel Double) (x : List Double)
    (partition : Partition) (here : Place) : Program rankAccess ColumnReport :=
  (kernel.columns problem x (partition.columns x.length here.size here.rank)).run.onRank.bind fun
    | .ok columns => .done (.ok columns)
    | .error e => .done (.error e.message)

/-- The failures among the acknowledgements of a handshake. -/
def mismatches (acks : List (Rank × Option String)) : List RankFailure :=
  acks.filterMap fun (rank, mismatch) =>
    mismatch.map fun reason => ⟨rank, "problem layout differs from root: " ++ reason⟩

/-- Every rank learns the root's snapshot and acknowledges it, or says how its own layout differs.
A difference fails the handshake on the root alone. -/
def handshake (problem : Problem Double) (here : Place) : Task Unit := do
  if here.isRoot then
    let _ ← here.broadcast (some problem.toSnapshot)
    match ← Place.gather (none : Option String) with
    | none => throw (.communication .noAcknowledgements)
    | some acks =>
      match mismatches acks with
      | [] => Task.note (.sessionEstablished here.size)
      | failures => throw (.derivativeEvaluation failures)
  else
    let rootSnapshot : Snapshot Double ← here.broadcast none
    let mismatch := (rootSnapshot.mismatch? problem.toSnapshot).map LayoutMismatch.message
    match mismatch with
    | some reason => Task.note (.layoutDiffers here.rank reason)
    | none => pure ()
    let _ ← Place.gather mismatch

/-- The failures among some reports. -/
def reportFailures (reports : List (Rank × ColumnReport)) : List RankFailure :=
  reports.filterMap fun
    | (_, .ok _) => none
    | (rank, .error reason) => some ⟨rank, reason⟩

/-- The columns of some reports, in order. -/
def reportColumns (reports : List (Rank × ColumnReport)) : List (Column Double) :=
  reports.flatMap fun
    | (_, .ok columns) => columns
    | (_, .error _) => []

/-- The columns of one request, from every rank, or the failures of all ranks that failed. -/
def request (problem : Problem Double) (kernel : Kernel Double) (x : List Double)
    (partition : Partition) (here : Place) : Task (List (Column Double)) := do
  let _ ← here.broadcast (some (Command.columns x kernel partition))
  let own ← ExceptT.lift (ownBlock problem kernel x partition here)
  match ← Place.gather own with
  | none => throw (.communication .noReports)
  | some reports =>
    match reportFailures reports with
    | [] => return reportColumns reports
    | failures => throw (.derivativeEvaluation failures)

/-- The most requests a rank can count. -/
def countLimit : Nat := UInt64.size

/-- The commands of the root, one after another, until one ends the session; `served` requests
came before. -/
def serveFrom (problem : Problem Double) (here : Place) : (rounds served : Nat) → Task Nat
  | 0, served => Task.ofLocal (Local.outOfRange served countLimit)
  | rounds + 1, served => do
    match ← here.broadcast (none : Option Command) with
    | .columns x kernel partition =>
      let report ← ExceptT.lift (ownBlock problem kernel x partition here)
      match report with
      | .error reason => Task.note (.columnsFailed here.rank reason)
      | .ok _ => pure ()
      let _ ← Place.gather report
      serveFrom problem here rounds (served + 1)
    | .shutdown =>
      Task.note (.released here.rank served)
      return served
    | .abort failures => throw (.derivativeEvaluation failures)

/-- The part of a rank other than the root: it evaluates its columns of every request until the
root releases it, and gives the number of requests, or the failures the root ends with. -/
def serve (problem : Problem Double) (here : Place) : Task Nat :=
  serveFrom problem here countLimit 0

/-- The command that ends a session: with the failures of an error that has some, and with the
root's own error in words otherwise. -/
def releaseCommand : Option (Error Double) → Command
  | none => .shutdown
  | some (.derivativeEvaluation failures) => .abort failures
  | some e => .abort [⟨rootRank, e.message⟩]

/-- The end of a session, from the root. -/
def release (here : Place) (error : Option (Error Double)) : Task Unit := do
  let _ ← here.broadcast (some (releaseCommand error))

end Nlp.Session
