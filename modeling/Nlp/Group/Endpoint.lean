import Nlp.Group.Mailbox
import Nlp.Group.Task

/-!
# Endpoints

The collectives of a group carried out by messages.  Each endpoint counts its collectives, and a
message carries the count, so ranks may run ahead of each other by several calls.

## Main definitions

* `link`, `Exchange`: what an endpoint can do, and programs that count their collectives and may
  fail.
* `Place.sendToAll`, `Place.collect`: broadcast and gather by messages, with any root.
* `Program.overLink`: a program of a rank, carried out by an endpoint.
-/

namespace Nlp

/-- The calls of an endpoint. -/
inductive LinkCall where
  /-- A call of the rank's own model. -/
  | model (c : ModelCall Double)
  /-- A message to another rank; the reply says whether that rank was there. -/
  | send (dest : Rank) (m : Message)
  /-- A wait for a message. -/
  | receive (w : Wanted)

/-- The interface of an endpoint. -/
@[reducible] def link : Interface where
  Call := LinkCall
  Reply
    | .model c => (modelAccess Double).Reply c
    | .send _ _ => Bool
    | .receive _ => Except CommFault Message

/-- Programs of an endpoint that may fail; the state is the number of collectives so far. -/
abbrev Exchange : Type → Type :=
  ExceptT CommFault (StateT Nat (Program link))

namespace Exchange

/-- The position of the next collective.  There are `Message.sequenceLimit` positions; what a group
does after as many collectives is left out. -/
def nextSequence : Exchange Nat := do
  let sequence ← getThe Nat
  set (sequence + 1)
  return sequence

/-- A message to a rank that has to be there. -/
def send (dest : Rank) (m : Message) : Exchange Unit := do
  let delivered : Bool ←
    ExceptT.lift (StateT.lift (Program.perform (I := link) (.send dest m)))
  if delivered then return () else throw (.hungUp dest)

/-- A message to some ranks, up to the first that is gone. -/
def sendAll (m : Message) : List Rank → Exchange Unit
  | [] => return ()
  | dest :: dests => do
    send dest m
    sendAll m dests

/-- A message that is waited for. -/
def receive (w : Wanted) : Exchange Message :=
  ExceptT.mk (StateT.lift (Program.perform (I := link) (.receive w)))

/-- The parts of a gather, of which `missing` are still to come. -/
def collectParts (sequence : Nat) : (missing : Nat) → Parts → Exchange Parts
  | 0, parts => return parts
  | missing + 1, parts => do
    let m ← receive ⟨.gather, sequence, none⟩
    collectParts sequence missing (Ascending.insert m.source m.payload parts)

end Exchange

namespace Place

/-- A root has to be a rank of the group. -/
def checkRoot (here : Place) (root : Rank) : Exchange Unit :=
  if root < here.size then return () else throw (.rootOfGroup root here.size)

/-- The other ranks. -/
def peers (here : Place) : List Rank :=
  (List.range here.size).filter fun r => r ≠ here.rank

/-- A broadcast: the root sends its bytes to every other rank. -/
def sendToAll (here : Place) (root : Rank) (payload : Bytes) : Exchange Bytes := do
  here.checkRoot root
  let sequence ← Exchange.nextSequence
  if here.rank = root then
    Exchange.sendAll ⟨here.rank, .broadcast, sequence, payload⟩ here.peers
    return payload
  else
    let m ← Exchange.receive ⟨.broadcast, sequence, some root⟩
    return m.payload

/-- A gather: every other rank sends its bytes to the root, which has the parts by rank. -/
def collect (here : Place) (root : Rank) (payload : Bytes) : Exchange (Option Parts) := do
  here.checkRoot root
  let sequence ← Exchange.nextSequence
  if here.rank = root then
    let parts ← Exchange.collectParts sequence (here.size - 1) [(here.rank, payload)]
    return some parts
  else
    Exchange.send root ⟨here.rank, .gather, sequence, payload⟩
    return none

/-- The calls of a rank, carried out by its endpoint. -/
def overLink (here : Place) :
    (c : RankCall) → StateT Nat (Program link) (rankAccess.Reply c)
  | .model c => StateT.lift (Program.perform (I := link) (.model c))
  | .broadcast payload => (here.sendToAll rootRank payload).run
  | .gather payload => (here.collect rootRank payload).run

end Place

/-- A program of a rank, carried out by an endpoint that has taken part in nothing before. -/
def Program.overLink {τ : Type} (p : Program rankAccess τ) (here : Place) : Program link τ :=
  (p.interpret here.overLink).run' 0

end Nlp
