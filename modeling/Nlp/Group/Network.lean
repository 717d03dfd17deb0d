import Nlp.Group.Mailbox

/-!
# Networks

The mailboxes of the ranks of a group.  A rank that has left has none, and nothing can be sent to
it.

## Main definitions

* `Network`, `Network.send`, `Network.receive`.
* `Network.leave`, `Network.unwind`: the two ways in which a rank ends.

## Main results

* `Network.mailbox?_put`: a change at one rank leaves the mailboxes of the others alone.
-/

namespace Nlp

/-- The mailboxes of a group. -/
structure Network where
  /-- The mailbox of each rank, or none if it has left. -/
  mailboxes : List (Option Mailbox)

namespace Network

/-- The network of a group nobody of which has sent anything. -/
def new (size : Nat) : Network :=
  ⟨List.replicate size (some .empty)⟩

/-- The mailbox of a rank. -/
def mailbox? (net : Network) (r : Rank) : Option Mailbox :=
  net.mailboxes[r]?.join

/-- The network with another mailbox of a rank. -/
def put (net : Network) (r : Rank) (b : Option Mailbox) : Network :=
  ⟨net.mailboxes.set r b⟩

theorem mailbox?_put (net : Network) {r : Rank} (b : Option Mailbox) (other : Rank)
    (h : r < net.mailboxes.length) :
    (net.put r b).mailbox? other = if other = r then b else net.mailbox? other := by
  by_cases hr : other = r
  · subst hr
    simp [mailbox?, put, h]
  · rw [if_neg hr, mailbox?, put, List.getElem?_set_ne (Ne.symm hr)]
    rfl

@[simp] theorem length_mailboxes_put (net : Network) (r : Rank) (b : Option Mailbox) :
    (net.put r b).mailboxes.length = net.mailboxes.length := by
  simp [put]

/-- A packet sent to a rank, and whether the rank was there to take it. -/
def send (net : Network) (dest : Rank) (p : Packet) : Bool × Network :=
  match net.mailbox? dest with
  | some b => (true, net.put dest (some (b.deliver p)))
  | none => (false, net)

/-- The network a rank has left. -/
def leave (net : Network) (me : Rank) : Network :=
  net.put me none

/-- Every rank but `me` has left. -/
def isAlone (net : Network) (me : Rank) : Bool :=
  (net.leave me).mailboxes.all Option.isNone

/-- The network a rank has left by unwinding: every rank that is still there is told. -/
def unwind (net : Network) (me : Rank) : Network :=
  ⟨(net.leave me).mailboxes.map fun b => b.map (·.deliver (.down me))⟩

/-- The answer to a receiver. -/
inductive Answer where
  /-- A message, or why there will be none. -/
  | settled (result : Except CommFault Message)
  /-- What is waited for can still come. -/
  | unsettled

/-- What the rank `me` makes of its receipt: with an empty inbox it waits as long as there is
anybody who could send. -/
def answerTo (net : Network) (me : Rank) : Mailbox.Receipt → Answer
  | .message m => .settled (.ok m)
  | .lost peer => .settled (.error (.terminated me peer))
  | .nothing => if net.isAlone me then .settled (.error (.everyPeerHungUp me)) else .unsettled

/-- The answer to the receiver of the rank `me`, with its reports. -/
def receive (net : Network) (me : Rank) (w : Wanted) : Answer × List (Event Double) × Network :=
  match net.mailbox? me with
  | none => (.settled (.error (.everyPeerHungUp me)), [], net)
  | some b =>
    let r := b.receive me w
    (net.answerTo me r.receipt, r.events, net.put me (some r.mailbox))

end Network

end Nlp
