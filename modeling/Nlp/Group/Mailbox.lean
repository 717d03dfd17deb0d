import Nlp.Event
import Nlp.Wire.Codec

/-!
# Mailboxes

A mailbox is the receiving end of a rank: an inbox, which the other ranks fill, the messages that
were taken out of it before their collective began, and the first peer that is known to have
unwound.

## Main definitions

* `Message`, `Packet`, `Wanted`, `Mailbox`.
* `Mailbox.look`: one step of a receiver; `Mailbox.receive`: all steps that are possible now.

## Main results

* `Mailbox.receive_eq`: to receive is to look, and to look again where a message was put aside.
-/

namespace Nlp

/-- The two collectives. -/
inductive Collective where
  /-- One rank's bytes go to every rank. -/
  | broadcast
  /-- Every rank's bytes go to one rank. -/
  | gather
deriving DecidableEq, Repr, Inhabited

/-- The name of a collective. -/
def Collective.name : Collective → String
  | broadcast => "broadcast"
  | gather => "gather"

/-- What one rank sends another in a collective. -/
structure Message where
  /-- The sender. -/
  source : Rank
  /-- The collective. -/
  collective : Collective
  /-- The position of the collective among those of the sender, which is below
  `Message.sequenceLimit`. -/
  sequence : Nat
  /-- The bytes. -/
  payload : Bytes
deriving DecidableEq

/-- The number of collectives that an endpoint can count. -/
def Message.sequenceLimit : Nat := UInt64.size

/-- What an inbox holds. -/
inductive Packet where
  /-- A message. -/
  | message (m : Message)
  /-- The rank has unwound and takes part in nothing any more. -/
  | down (rank : Rank)
deriving DecidableEq

/-- What a receiver waits for. -/
structure Wanted where
  /-- The collective. -/
  collective : Collective
  /-- Its position. -/
  sequence : Nat
  /-- The sender, if only one will do. -/
  source : Option Rank
deriving DecidableEq

/-- The message is one that is waited for. -/
def Wanted.accepts (w : Wanted) (m : Message) : Bool :=
  m.collective = w.collective && m.sequence = w.sequence && w.source.all fun r => r = m.source

/-- The receiving end of a rank. -/
structure Mailbox where
  /-- The packets nobody has taken out, the oldest first. -/
  inbox : List Packet
  /-- The messages that came early, the oldest first. -/
  pending : List Message
  /-- The first peer known to have unwound. -/
  lost : Option Rank
deriving DecidableEq

namespace Mailbox

/-- A mailbox nothing has come to. -/
def empty : Mailbox :=
  ⟨[], [], none⟩

/-- The mailbox with one more packet. -/
def deliver (b : Mailbox) (p : Packet) : Mailbox :=
  { b with inbox := b.inbox ++ [p] }

/-- What one look into a mailbox finds. -/
inductive Found where
  /-- A message that is waited for; the mailbox is left without it. -/
  | message (m : Message) (left : Mailbox)
  /-- A message that came early and has been put aside. -/
  | early (m : Message) (left : Mailbox)
  /-- A peer unwound, which was not known before. -/
  | down (peer : Rank) (left : Mailbox)
  /-- A peer is known to have unwound. -/
  | lost (peer : Rank)
  /-- Nothing. -/
  | nothing
deriving DecidableEq

/-- One look: first for a message that came early, then at what is known about peers, then at the
oldest packet. -/
def look (w : Wanted) (b : Mailbox) : Found :=
  match b.pending.find? w.accepts with
  | some m => .message m { b with pending := b.pending.eraseP w.accepts }
  | none =>
    match b.lost with
    | some peer => .lost peer
    | none =>
      match b.inbox with
      | [] => .nothing
      | .down peer :: inbox => .down peer { b with inbox, lost := some peer }
      | .message m :: inbox =>
        if w.accepts m then .message m { b with inbox }
        else .early m { b with inbox, pending := b.pending ++ [m] }

/-- What a receiver comes to with the packets there are. -/
inductive Receipt where
  /-- The message that was waited for. -/
  | message (m : Message)
  /-- A peer has unwound. -/
  | lost (peer : Rank)
  /-- The inbox is empty. -/
  | nothing
deriving DecidableEq

/-- A receipt, what the rank reports on the way to it, and the mailbox afterwards. -/
structure Received where
  /-- The receipt. -/
  receipt : Receipt
  /-- The reports. -/
  events : List (Event Double)
  /-- The mailbox. -/
  mailbox : Mailbox

/-- The packets of an inbox taken out one by one, up to the first that ends the wait. -/
def search (me : Rank) (w : Wanted) : (inbox : List Packet) → (pending : List Message) → Received
  | [], pending => ⟨.nothing, [], ⟨[], pending, none⟩⟩
  | .down peer :: inbox, pending =>
    ⟨.lost peer, [.peerTerminated me peer], ⟨inbox, pending, some peer⟩⟩
  | .message m :: inbox, pending =>
    if w.accepts m then ⟨.message m, [], ⟨inbox, pending, none⟩⟩
    else
      let r := search me w inbox (pending ++ [m])
      { r with events := .earlyMessage me m.source :: r.events }

/-- The receiver of the rank `me` with the packets there are. -/
def receive (me : Rank) (w : Wanted) (b : Mailbox) : Received :=
  match b.pending.find? w.accepts with
  | some m => ⟨.message m, [], { b with pending := b.pending.eraseP w.accepts }⟩
  | none =>
    match b.lost with
    | some peer => ⟨.lost peer, [], b⟩
    | none => search me w b.inbox b.pending

/-- To receive is to look, and to look again where a message was put aside. -/
theorem receive_eq (me : Rank) (w : Wanted) (b : Mailbox) :
    b.receive me w =
      match b.look w with
      | .message m left => ⟨.message m, [], left⟩
      | .early m left =>
        let r := left.receive me w
        { r with events := .earlyMessage me m.source :: r.events }
      | .down peer left => ⟨.lost peer, [.peerTerminated me peer], left⟩
      | .lost peer => ⟨.lost peer, [], b⟩
      | .nothing => ⟨.nothing, [], b⟩ := by
  obtain ⟨inbox, pending, lost⟩ := b
  cases hp : pending.find? w.accepts with
  | some m => simp [receive, look, hp]
  | none =>
    cases lost with
    | some peer => simp [receive, look, hp]
    | none =>
      match inbox with
      | [] => simp [receive, look, search, hp]
      | .down peer :: inbox => simp [receive, look, search, hp]
      | .message m :: inbox =>
        by_cases hm : w.accepts m
        · simp [receive, look, search, hp, hm]
        · simp [receive, look, search, hp, hm, List.find?_append]

end Mailbox

end Nlp
