import Nlp.Group.Network
import Mathlib.Data.List.Nodup
import Mathlib.Tactic.Common

/-!
# What a look into a mailbox does

A look takes the message that is waited for out of the mailbox, or puts the oldest message aside,
or finds a peer gone.  The messages a mailbox holds, those put aside first, change by the first
alone.

## Main definitions

* `Mailbox.messages`: the messages a mailbox holds.
* `Mailbox.Finds`: what a look finds, and where.
* `Network.Holds`: a message is in the mailbox of a rank.
* `Network.untaken`: the number of packets nobody has taken out.

## Main results

* `Mailbox.look_message`, `Mailbox.look_early`, `Mailbox.look_down`, `Mailbox.look_nothing`: what
  is known of a mailbox after each kind of look.
* `Network.mailbox?_leave`, `Network.mailbox?_send`: what a rank that leaves changes, and what a
  packet changes.
* `Network.eq_of_mailbox?`: a network is its mailboxes.
-/

namespace Nlp

theorem foldr_set_lt {β : Type} (f : β → Nat) {l : List β} {i : Nat} {a b : β}
    (h : l[i]? = some a) (hlt : f b < f a) :
    (l.set i b).foldr (fun c n => f c + n) 0 < l.foldr (fun c n => f c + n) 0 := by
  induction l generalizing i with
  | nil => simp at h
  | cons c l ih =>
    cases i with
    | zero =>
      obtain rfl : c = a := by simpa using h
      simpa using hlt
    | succ i => simpa using ih (by simpa using h)

namespace Network

/-- The number of packets nobody has taken out. -/
def untaken (net : Network) : Nat :=
  net.mailboxes.foldr (fun b n => b.elim 0 (·.inbox.length) + n) 0

theorem getElem?_of_mailbox? {net : Network} {r : Rank} {b : Mailbox}
    (h : net.mailbox? r = some b) : net.mailboxes[r]? = some (some b) := by
  simpa [mailbox?, Option.join_eq_some_iff] using h

theorem untaken_put_lt {net : Network} {me : Rank} {b left : Mailbox}
    (hbox : net.mailbox? me = some b) (hlt : left.inbox.length < b.inbox.length) :
    (net.put me (some left)).untaken < net.untaken :=
  foldr_set_lt _ (getElem?_of_mailbox? hbox) hlt

end Network

theorem Wanted.accepts_iff {w : Wanted} {m : Message} :
    w.accepts m ↔ (m.collective = w.collective ∧ m.sequence = w.sequence) ∧
      w.source.all fun r => r = m.source := by
  simp [accepts]

/-- The message in a packet. -/
def Packet.message? : Packet → Option Message
  | .message m => some m
  | .down _ => none

namespace Mailbox

variable {w : Wanted} {b left : Mailbox} {m : Message} {peer : Rank}

/-- The messages a mailbox holds, those that were put aside first. -/
def messages (b : Mailbox) : List Message :=
  b.pending ++ b.inbox.filterMap Packet.message?

/-- No peer is known or said to have unwound. -/
def IsCalm (b : Mailbox) : Prop :=
  b.lost = none ∧ ∀ peer, Packet.down peer ∉ b.inbox

@[simp] theorem messages_deliver_message (b : Mailbox) (m : Message) :
    (b.deliver (.message m)).messages = b.messages ++ [m] := by
  simp [messages, deliver, Packet.message?]

@[simp] theorem messages_deliver_down (b : Mailbox) (peer : Rank) :
    (b.deliver (.down peer)).messages = b.messages := by
  simp [messages, deliver, Packet.message?]

theorem IsCalm.deliver (h : b.IsCalm) (m : Message) : (b.deliver (.message m)).IsCalm :=
  ⟨h.1, fun peer => by simpa [Mailbox.deliver] using h.2 peer⟩

theorem eq_empty (hcalm : b.IsCalm) (hmessages : b.messages = []) : b = .empty := by
  obtain ⟨inbox, pending, lost⟩ := b
  obtain ⟨hpending, hinbox⟩ := List.append_eq_nil_iff.mp hmessages
  obtain ⟨hlost, hdown⟩ := hcalm
  obtain rfl : pending = [] := hpending
  obtain rfl : lost = none := hlost
  cases inbox with
  | nil => rfl
  | cons p inbox =>
    cases p with
    | message m => simp [Packet.message?] at hinbox
    | down peer => exact absurd (List.mem_cons_self ..) (hdown peer)

/-- What a look finds, and where. -/
inductive Finds (w : Wanted) (b : Mailbox) : Found → Prop
  | pending {m : Message} (h : b.pending.find? w.accepts = some m) :
    Finds w b (.message m { b with pending := b.pending.eraseP w.accepts })
  | lost {peer : Rank} (hpending : b.pending.find? w.accepts = none) (hlost : b.lost = some peer) :
    Finds w b (.lost peer)
  | nothing (hpending : b.pending.find? w.accepts = none) (hlost : b.lost = none)
      (hinbox : b.inbox = []) :
    Finds w b .nothing
  | down {peer : Rank} {inbox : List Packet} (hpending : b.pending.find? w.accepts = none)
      (hlost : b.lost = none) (hinbox : b.inbox = .down peer :: inbox) :
    Finds w b (.down peer { b with inbox, lost := some peer })
  | message {m : Message} {inbox : List Packet} (hpending : b.pending.find? w.accepts = none)
      (hlost : b.lost = none) (hinbox : b.inbox = .message m :: inbox) (haccepts : w.accepts m) :
    Finds w b (.message m { b with inbox })
  | early {m : Message} {inbox : List Packet} (hpending : b.pending.find? w.accepts = none)
      (hlost : b.lost = none) (hinbox : b.inbox = .message m :: inbox)
      (haccepts : ¬ w.accepts m) :
    Finds w b (.early m { b with inbox, pending := b.pending ++ [m] })

theorem finds_of_look {found : Found} (h : b.look w = found) : b.Finds w found := by
  subst h
  unfold look
  split
  · next hfound => exact .pending hfound
  next hpending =>
  split
  · next hlost => exact .lost hpending hlost
  next hlost =>
  split
  · next hinbox => exact .nothing hpending hlost hinbox
  · next hinbox => exact .down hpending hlost hinbox
  next hinbox =>
  split
  · next haccepts => exact .message hpending hlost hinbox haccepts
  · next haccepts => exact .early hpending hlost hinbox haccepts

/-- A message that was waited for is accepted, and is no longer held. -/
theorem look_message (h : b.look w = .message m left) :
    w.accepts m ∧ (∃ before after, b.messages = before ++ m :: after ∧
      left.messages = before ++ after) ∧ (b.IsCalm → left.IsCalm) := by
  cases finds_of_look h with
  | pending hfound =>
    obtain ⟨haccepts, before, after, hpending, hbefore⟩ :=
      List.find?_eq_some_iff_append.mp hfound
    have herase : b.pending.eraseP w.accepts = before ++ after := by
      rw [hpending, List.eraseP_append_right _ (fun a ha => by simpa using hbefore a ha),
        List.eraseP_cons_of_pos haccepts]
    refine ⟨haccepts, ⟨before, after ++ b.inbox.filterMap Packet.message?, ?_, ?_⟩, id⟩
    · simp [messages, hpending]
    · simp [messages, herase]
  | @message _ inbox _ _ hinbox haccepts =>
    refine ⟨haccepts, ⟨b.pending, inbox.filterMap Packet.message?, ?_, rfl⟩, fun hcalm => ?_⟩
    · simp [messages, hinbox, Packet.message?]
    · exact ⟨hcalm.1, fun peer hp => hcalm.2 peer (by simp [hinbox, hp])⟩

/-- A message that is put aside has left the inbox. -/
theorem look_early (h : b.look w = .early m left) :
    ∃ inbox, b.inbox = .message m :: inbox ∧ ¬ w.accepts m ∧ b.lost = none ∧
      left = { b with inbox, pending := b.pending ++ [m] } := by
  cases finds_of_look h with
  | early hpending hlost hinbox haccepts => exact ⟨_, hinbox, haccepts, hlost, rfl⟩

theorem messages_of_look_early (h : b.look w = .early m left) : left.messages = b.messages := by
  obtain ⟨inbox, hinbox, -, -, rfl⟩ := look_early h
  simp [messages, hinbox, Packet.message?]

theorem isCalm_of_look_early (h : b.look w = .early m left) (hcalm : b.IsCalm) :
    left.IsCalm := by
  obtain ⟨inbox, hinbox, -, -, rfl⟩ := look_early h
  exact ⟨hcalm.1, fun peer hp => hcalm.2 peer (by simp [hinbox, hp])⟩

/-- A peer that is found gone has said so. -/
theorem look_down (h : b.look w = .down peer left) :
    .down peer ∈ b.inbox ∧ left.messages = b.messages := by
  cases finds_of_look h with
  | down hpending hlost hinbox =>
    exact ⟨by simp [hinbox], by simp [messages, hinbox, List.filterMap_cons, Packet.message?]⟩

theorem look_lost (h : b.look w = .lost peer) : b.lost = some peer := by
  cases finds_of_look h with
  | lost hpending hlost => exact hlost

/-- A message that is taken out or put aside says nothing of a peer that has unwound. -/
theorem isCalm_of_look (h : b.look w = .message m left ∨ b.look w = .early m left)
    (hcalm : left.IsCalm) : b.IsCalm := by
  rcases h with h | h
  · cases finds_of_look h with
    | pending hfound => exact hcalm
    | message hpending hlost hinbox haccepts =>
      exact ⟨hcalm.1, fun peer hp => hcalm.2 peer (by simpa [hinbox] using hp)⟩
  · obtain ⟨inbox, hinbox, -, -, rfl⟩ := look_early h
    exact ⟨hcalm.1, fun peer hp => hcalm.2 peer (by simpa [hinbox] using hp)⟩

/-- Where a look finds nothing, no message that is waited for is there. -/
theorem look_nothing (h : b.look w = .nothing) : ∀ m ∈ b.messages, ¬ w.accepts m := by
  cases finds_of_look h with
  | nothing hpending hlost hinbox =>
    intro m hm
    have hm' : m ∈ b.pending := by simpa [messages, hinbox] using hm
    simpa using List.find?_eq_none.mp hpending m hm'

/-- Who finds nothing does not know of a peer that has unwound. -/
theorem isCalm_of_look_nothing (h : b.look w = .nothing) : b.IsCalm := by
  cases finds_of_look h with
  | nothing hpending hlost hinbox => exact ⟨hlost, fun peer => by simp [hinbox]⟩

/-- A peer that is found gone is known to be from then on. -/
theorem not_isCalm_of_look_down (h : b.look w = .down peer left) : ¬ left.IsCalm := by
  cases finds_of_look h with
  | down hpending hlost hinbox => exact fun hcalm => nomatch hcalm.1

end Mailbox

namespace Network

/-- The message is in the mailbox of the rank. -/
def Holds (net : Network) (r : Rank) (m : Message) : Prop :=
  ∃ b, net.mailbox? r = some b ∧ m ∈ b.messages

theorem mailbox?_new {size : Nat} {r : Rank} (h : r < size) :
    (Network.new size).mailbox? r = some .empty := by
  simp [mailbox?, new, h]

theorem not_holds_new {size : Nat} {r : Rank} {m : Message} : ¬ (Network.new size).Holds r m := by
  rintro ⟨b, hbox, hm⟩
  by_cases hr : r < size
  · rw [mailbox?_new hr] at hbox
    obtain rfl := Option.some.inj hbox
    nomatch hm
  · simp [mailbox?, new, hr] at hbox

theorem isCalm_of_new {size : Nat} {r : Rank} {b : Mailbox}
    (hbox : (Network.new size).mailbox? r = some b) : b.IsCalm := by
  by_cases hr : r < size
  · rw [mailbox?_new hr] at hbox
    obtain rfl := Option.some.inj hbox
    exact ⟨rfl, fun peer => List.not_mem_nil⟩
  · simp [mailbox?, new, hr] at hbox

theorem lt_of_mailbox? {net : Network} {r : Rank} {b : Mailbox} (h : net.mailbox? r = some b) :
    r < net.mailboxes.length :=
  (List.getElem?_eq_some_iff.mp (getElem?_of_mailbox? h)).1

theorem mailbox?_put_of_some {net : Network} {me : Rank} {b : Mailbox}
    (hbox : net.mailbox? me = some b) (left : Option Mailbox) (r : Rank) :
    (net.put me left).mailbox? r = if r = me then left else net.mailbox? r :=
  net.mailbox?_put left r (lt_of_mailbox? hbox)

/-- Who leaves has no mailbox any more. -/
theorem mailbox?_leave (net : Network) (me r : Rank) :
    (net.leave me).mailbox? r = if r = me then none else net.mailbox? r := by
  by_cases hr : r = me
  · subst hr
    by_cases hlt : r < net.mailboxes.length
    · simp [mailbox?, leave, put, hlt]
    · simp [mailbox?, leave, put, hlt]
  · simp [mailbox?, leave, put, hr, List.getElem?_set_ne (Ne.symm hr)]

theorem send_of_some {net : Network} {dest : Rank} {b : Mailbox} (p : Packet)
    (hbox : net.mailbox? dest = some b) :
    net.send dest p = (true, net.put dest (some (b.deliver p))) := by
  rw [send, hbox]

theorem send_of_none {net : Network} {dest : Rank} (p : Packet) (hbox : net.mailbox? dest = none) :
    net.send dest p = (false, net) := by
  rw [send, hbox]

/-- A packet is delivered to its rank if that is there, and nothing else changes. -/
theorem mailbox?_send (net : Network) (dest : Rank) (p : Packet) (r : Rank) :
    (net.send dest p).2.mailbox? r =
      if r = dest then (net.mailbox? r).map (·.deliver p) else net.mailbox? r := by
  cases hbox : net.mailbox? dest with
  | none =>
    rw [send_of_none p hbox]
    split
    · next hr => rw [hr, hbox, Option.map_none]
    · rfl
  | some b =>
    rw [send_of_some p hbox]
    refine (mailbox?_put_of_some hbox _ r).trans ?_
    split
    · next hr => rw [hr, hbox, Option.map_some]
    · rfl

@[simp] theorem length_mailboxes_send (net : Network) (dest : Rank) (p : Packet) :
    (net.send dest p).2.mailboxes.length = net.mailboxes.length := by
  cases hbox : net.mailbox? dest with
  | none => rw [send_of_none p hbox]
  | some b => rw [send_of_some p hbox, length_mailboxes_put]

theorem eq_of_mailbox? {net net' : Network}
    (hlength : net.mailboxes.length = net'.mailboxes.length)
    (h : ∀ r < net.mailboxes.length, net.mailbox? r = net'.mailbox? r) : net = net' := by
  refine congrArg Network.mk (List.ext_getElem hlength fun r hr hr' => ?_)
  simpa [mailbox?, hr, hr'] using h r hr

end Network

end Nlp
