import Nlp.Proofs.Contract
import Nlp.Proofs.Group.Collectives

/-!
# What is left after a loss

An endpoint that has learned that a peer has unwound takes nothing out of its inbox any more. What
it waits for from then on is among the messages it had put aside before, or the wait fails. Nothing
of this is known to a call that only sends: it fails where a rank it sends to has left, and succeeds
otherwise.

## Main definitions

* `Loss`: an endpoint at the time it learns of a peer that has unwound.
* `Program.Fares`: what a program comes to at such an endpoint.
* `Loss.Allows`: what a call comes to there.

## Main results

* `Transfer.call_fares`: the four roles in a collective.
* `Hand.Bereft.step`: one step of the endpoint.
* `Crew.calls_after_loss`: all calls of the endpoint that begin after the loss.
-/

namespace Nlp

variable {τ υ : Type}

/-- An endpoint that has learned of a peer that has unwound. -/
structure Loss where
  /-- The endpoint. -/
  here : Place
  /-- The peer. -/
  peer : Rank
  /-- The ranks that have left by then. -/
  gone : Rank → Prop
  /-- The messages the endpoint has put aside by then. -/
  pending : List Message

variable {loss : Loss}

/-! ## Programs -/

namespace Program

/-- At an endpoint with these messages put aside, whatever the other ranks do, all results of the
program have a property. -/
def Fares (loss : Loss) (post : τ → List Message → Prop) :
    Program link τ → List Message → Prop
  | done r, pending => post r pending
  | call (.model _) next, pending => ∀ reply, (next reply).Fares loss post pending
  | call (.send dest _) next, pending => ∀ delivered : Bool, (loss.gone dest → delivered = false) →
      (next delivered).Fares loss post pending
  | call (.receive w) next, pending =>
    match pending.find? w.accepts with
    | some m => (next (.ok m)).Fares loss post (pending.eraseP w.accepts)
    | none => (next (.error (.terminated loss.here.rank loss.peer))).Fares loss post pending

theorem fares_receive {post : τ → List Message → Prop} {w : Wanted}
    {next : Except CommFault Message → Program link τ} {pending : List Message} :
    (Program.call (I := link) (.receive w) next).Fares loss post pending ↔
      match pending.find? w.accepts with
      | some m => (next (.ok m)).Fares loss post (pending.eraseP w.accepts)
      | none => (next (.error (.terminated loss.here.rank loss.peer))).Fares loss post pending := by
  rw [Fares]

/-- A sequence goes on from what its first part comes to. -/
theorem Fares.chain {post : τ → List Message → Prop} {post' : υ → List Message → Prop}
    {f : τ → Program link υ} (hf : ∀ r pending, post r pending → (f r).Fares loss post' pending)
    {p : Program link τ} {pending : List Message} (h : p.Fares loss post pending) :
    (p.bind f).Fares loss post' pending := by
  -- on the program, whatever is pending: a receive takes a message out of it
  induction p generalizing pending with
  | done r => exact hf r pending h
  | call c next ih =>
    cases c with
    | model c => exact fun reply => ih reply (h reply)
    | send dest m => exact fun delivered hgone => ih delivered (h delivered hgone)
    | receive w =>
      rw [fares_receive] at h
      rw [bind_call, fares_receive]
      cases hfind : pending.find? w.accepts with
      | some m =>
        rw [hfind] at h
        exact ih _ h
      | none =>
        rw [hfind] at h
        exact ih _ h

theorem Fares.mono {post post' : τ → List Message → Prop}
    (himp : ∀ r pending, post r pending → post' r pending) {p : Program link τ}
    {pending : List Message} (h : p.Fares loss post pending) : p.Fares loss post' pending := by
  rw [← bind_pure p]
  exact h.chain himp

theorem Fares.and {post post' : τ → List Message → Prop} {p : Program link τ}
    {pending : List Message} (h : p.Fares loss post pending) (h' : p.Fares loss post' pending) :
    p.Fares loss (fun r pending => post r pending ∧ post' r pending) pending := by
  induction p generalizing pending with
  | done r => exact ⟨h, h'⟩
  | call c next ih =>
    cases c with
    | model c => exact fun reply => ih reply (h reply) (h' reply)
    | send dest m =>
      exact fun delivered hgone => ih delivered (h delivered hgone) (h' delivered hgone)
    | receive w =>
      rw [fares_receive] at h h' ⊢
      cases hfind : pending.find? w.accepts with
      | some m =>
        rw [hfind] at h h'
        exact ih _ h h'
      | none =>
        rw [hfind] at h h'
        exact ih _ h h'

end Program

/-! ## The messages of one position -/

/-- The messages of this position and of later ones. -/
def Message.since (k : Nat) (messages : List Message) : List Message :=
  messages.filter fun m => k ≤ m.sequence

theorem Message.since_congr {k k' : Nat} {messages messages' : List Message}
    (h : since k messages = since k messages') (hle : k ≤ k') :
    since k' messages = since k' messages' := by
  -- later messages are among those since `k`, so a second filter takes nothing away
  have hlater : ∀ l : List Message, since k' l = since k' (since k l) := by
    intro l
    rw [since, since, since, List.filter_filter]
    refine List.filter_congr fun m _ => ?_
    by_cases hm : k' ≤ m.sequence
    · simp [hm, hle.trans hm]
    · simp [hm]
  rw [hlater, h, ← hlater]

/-- The messages that are waited for. -/
def Wanted.among (w : Wanted) (messages : List Message) : List Message :=
  messages.filter w.accepts

namespace Wanted

variable {w : Wanted} {m : Message} {messages : List Message} {k : Nat}

theorem among_of_find? (h : messages.find? w.accepts = some m) :
    w.among messages = m :: w.among (messages.eraseP w.accepts) := by
  -- on the messages, up to the first that is accepted
  induction messages with
  | nil => cases h
  | cons m' messages ih =>
    by_cases haccepts : w.accepts m'
    · rw [List.find?_cons_of_pos haccepts] at h
      obtain rfl := Option.some.inj h
      rw [List.eraseP_cons_of_pos haccepts, among, List.filter_cons_of_pos haccepts, among]
    · rw [List.find?_cons_of_neg haccepts] at h
      rw [List.eraseP_cons_of_neg haccepts, among, among, List.filter_cons_of_neg haccepts,
        List.filter_cons_of_neg haccepts]
      exact ih h

theorem among_of_find?_eq_none (h : messages.find? w.accepts = none) : w.among messages = [] := by
  apply List.filter_eq_nil_iff.mpr
  exact List.find?_eq_none.mp h

/-- A message that is taken out belongs to the position that is waited for. -/
theorem since_eraseP (hw : w.sequence < k) :
    Message.since k (messages.eraseP w.accepts) = Message.since k messages := by
  -- what is accepted has the position that is waited for, and that one does not count
  induction messages with
  | nil => rfl
  | cons m messages ih =>
    unfold Message.since at ih ⊢
    by_cases haccepts : w.accepts m
    · have hsequence : ¬ k ≤ m.sequence := by
        rw [(accepts_iff.mp haccepts).1.2]
        omega
      rw [List.eraseP_cons_of_pos haccepts, List.filter_cons_of_neg (by simpa using hsequence)]
    · rw [List.eraseP_cons_of_neg haccepts, List.filter_cons, List.filter_cons, ih]

theorem among_since : w.among (Message.since w.sequence messages) = w.among messages := by
  rw [among, Message.since, List.filter_filter]
  refine List.filter_congr fun m _ => ?_
  cases haccepts : w.accepts m with
  | false => rfl
  | true =>
    have hsequence := (accepts_iff.mp haccepts).1.2
    simp [hsequence]

/-- Of a position nothing changes where its messages do not. -/
theorem among_congr {messages' : List Message}
    (h : Message.since w.sequence messages = Message.since w.sequence messages') :
    w.among messages = w.among messages' := by
  rw [← among_since, h, among_since]

end Wanted

/-- Waits for one position, and for no other. -/
def atPosition (k : Nat) : Contract link where
  asks
    | .receive w => w.sequence = k
    | _ => True
  replies _ _ := True

/-- A program that waits for one position leaves the messages of later ones alone. -/
theorem Program.Meets.fares {post : τ → Prop} {k : Nat} {p : Program link τ}
    (hp : p.Meets (atPosition k) post) (pending : List Message) :
    p.Fares loss (fun r left => post r ∧
      Message.since (k + 1) left = Message.since (k + 1) pending) pending := by
  -- only a receive changes what is pending, and it takes a message of position `k`
  induction p generalizing pending with
  | done r => exact ⟨hp, rfl⟩
  | call c next ih =>
    cases c with
    | model c => exact fun reply => ih reply (hp.2 reply trivial) pending
    | send dest m => exact fun delivered _ => ih delivered (hp.2 delivered trivial) pending
    | receive w =>
      have hw : w.sequence < k + 1 := Nat.lt_succ_of_le (Nat.le_of_eq hp.1)
      rw [fares_receive]
      cases pending.find? w.accepts with
      | some m =>
        have hnext := ih (.ok m) (hp.2 _ trivial) (pending.eraseP w.accepts)
        rwa [Wanted.since_eraseP hw] at hnext
      | none => exact ih _ (hp.2 _ trivial) pending

/-! ## Calls -/

/-- The exchanges of one position, once it has been counted. -/
abbrev exchangingAt (k : Nat) : Always Exchange :=
  ((Always.program (atPosition k)).state (· = k + 1)).except CommFault

namespace Exchange

variable {k : Nat}

theorem exchangingAt_receive {w : Wanted} (hw : w.sequence = k) :
    (exchangingAt k).holds (receive w) fun _ => True :=
  fun _ hcount => ⟨hw, fun _ _ => ⟨fun _ _ => trivial, hcount⟩⟩

end Exchange

namespace Transfer

/-- A rank's part in a collective, once its position has been counted. -/
def exchange (t : Transfer) (here : Place) (k : Nat) : Exchange Delivery :=
  match t.collective with
  | .broadcast =>
    if here.rank = t.root then do
      Exchange.sendAll ⟨here.rank, .broadcast, k, t.payload here.rank⟩ here.peers
      return .bytes (t.payload here.rank)
    else do
      let m ← Exchange.receive ⟨.broadcast, k, some t.root⟩
      return .bytes m.payload
  | .gather =>
    if here.rank = t.root then do
      let parts ← Exchange.collectParts k (here.size - 1) [(here.rank, t.payload here.rank)]
      return .parts (some parts)
    else do
      Exchange.send t.root ⟨here.rank, .gather, k, t.payload here.rank⟩
      return .parts none

variable {t : Transfer} {here : Place} {k : Nat}

theorem run_call (hroot : t.root < here.size) :
    (t.call here).run k = (t.exchange here k).run.run (k + 1) := by
  unfold call exchange
  cases t.collective with
  | broadcast =>
    simp only [Place.sendToAll, Place.checkRoot, if_pos hroot, pure_bind, map_bind]
    by_cases hrank : here.rank = t.root
    · simp only [if_pos hrank, map_bind, map_pure]
      rfl
    · simp only [if_neg hrank, map_bind, map_pure]
      rfl
  | gather =>
    simp only [Place.collect, Place.checkRoot, if_pos hroot, pure_bind, map_bind]
    by_cases hrank : here.rank = t.root
    · simp only [if_pos hrank, map_bind, map_pure]
      rfl
    · simp only [if_neg hrank, map_bind, map_pure]
      rfl

theorem meets_exchange :
    (exchangingAt k).holds (t.exchange here k) fun _ => True := by
  unfold exchange
  cases t.collective with
  | broadcast =>
    refine (exchangingAt k).ite (fun _ => ?_) fun _ => ?_
    · exact (exchangingAt k).seq
        (Always.holds_sendAll _ (fun _ => Always.holds_send trivial) _) fun _ =>
          (exchangingAt k).pure _ trivial
    · exact (exchangingAt k).seq (Exchange.exchangingAt_receive rfl) fun m =>
        (exchangingAt k).pure _ trivial
  | gather =>
    refine (exchangingAt k).ite (fun _ => ?_) fun _ => ?_
    · exact (exchangingAt k).seq
        (Always.holds_collectParts _ (Exchange.exchangingAt_receive rfl) _ _) fun parts =>
          (exchangingAt k).pure _ trivial
    · exact (exchangingAt k).seq (Always.holds_send trivial) fun _ =>
        (exchangingAt k).pure _ trivial

/-- A call waits for its own position only, and counts it. -/
theorem meets_call (hroot : t.root < here.size) :
    ((t.call here).run k).Meets (atPosition k) fun r => r.2 = k + 1 := by
  rw [run_call hroot]
  exact (meets_exchange (k + 1) rfl).mono fun _ h => h.2

end Transfer

/-! ## Calls after a loss -/

namespace Exchange

/-- With these messages put aside, all results of the exchange have a property. -/
def Fares (loss : Loss) (post : Except CommFault τ → List Message → Prop) (x : Exchange τ)
    (pending : List Message) : Prop :=
  ∀ count, (x.run.run count).Fares loss (fun r => post r.1) pending

variable {pending : List Message}

theorem fares_pure {post : Except CommFault τ → List Message → Prop} {r : τ}
    (h : post (.ok r) pending) : Fares loss post (pure r) pending :=
  fun _ => h

/-- A sequence goes on from the result of its first part, and fails where that fails. -/
theorem fares_bind {post : Except CommFault υ → List Message → Prop} {x : Exchange τ}
    {f : τ → Exchange υ}
    (h : Fares loss (fun r pending => match r with
      | .ok r => Fares loss post (f r) pending
      | .error fault => post (.error fault) pending) x pending) :
    Fares loss post (x >>= f) pending := by
  intro count
  refine Program.Fares.chain ?_ (h count)
  rintro ⟨r, count⟩ pending hr
  cases r with
  | ok r => exact hr count
  | error fault => exact hr

theorem fares_send {post : Except CommFault Unit → List Message → Prop} {dest : Rank}
    {m : Message} (hok : ¬ loss.gone dest → post (.ok ()) pending)
    (hfault : post (.error (.hungUp dest)) pending) : Fares loss post (send dest m) pending := by
  intro count delivered hgone
  cases delivered with
  | true => exact hok fun h => nomatch hgone h
  | false => exact hfault

/-- To send to some ranks succeeds only if none of them has left. -/
theorem fares_sendAll {post : Except CommFault Unit → List Message → Prop} {dests : List Rank}
    {m : Message} (hok : (∀ dest ∈ dests, ¬ loss.gone dest) → post (.ok ()) pending)
    (hfault : ∀ dest ∈ dests, post (.error (.hungUp dest)) pending) :
    Fares loss post (sendAll m dests) pending := by
  induction dests with
  | nil => exact fares_pure (hok nofun)
  | cons dest dests ih =>
    obtain ⟨hdest, hdests⟩ := List.forall_mem_cons.mp hfault
    refine fares_bind (fares_send (fun hhere => ih (fun hrest => hok ?_) hdests) hdest)
    exact List.forall_mem_cons.mpr ⟨hhere, hrest⟩

/-- What is waited for has been put aside, or does not come. -/
theorem fares_receive {post : Except CommFault Message → List Message → Prop} {w : Wanted}
    (hok : ∀ m, pending.find? w.accepts = some m → post (.ok m) (pending.eraseP w.accepts))
    (hfault : pending.find? w.accepts = none →
      post (.error (.terminated loss.here.rank loss.peer)) pending) :
    Fares loss post (receive w) pending := by
  intro count
  show Program.Fares loss _ (.call (I := link) (.receive w) fun reply => .done (reply, count)) _
  rw [Program.fares_receive]
  cases hfind : pending.find? w.accepts with
  | some m => exact hok m hfind
  | none => exact hfault hfind

/-- The parts of a gather with those in these messages. -/
def withParts (parts : Parts) (messages : List Message) : Parts :=
  messages.foldl (fun parts m => Ascending.insert m.source m.payload parts) parts

/-- A gather that has learned of a loss is completed by the messages put aside, or not at all. -/
theorem fares_collectParts {post : Except CommFault Parts → List Message → Prop} {k missing : Nat}
    {parts : Parts}
    (h : ∀ left, post
      (let messages := (⟨.gather, k, none⟩ : Wanted).among pending
       if missing ≤ messages.length then .ok (withParts parts (messages.take missing))
       else .error (.terminated loss.here.rank loss.peer)) left) :
    Fares loss post (collectParts k missing parts) pending := by
  -- on the number of missing parts: a receive takes the next message of the gather, if any
  induction missing generalizing parts pending with
  | zero => exact fares_pure (by simpa [withParts] using h pending)
  | succ missing ih =>
    refine fares_bind (fares_receive (fun m hfind => ih fun left => ?_) fun hfind => ?_)
    · have hleft := h left
      rw [Wanted.among_of_find? hfind] at hleft
      simpa [withParts] using hleft
    · have hleft := h pending
      rw [Wanted.among_of_find?_eq_none hfind] at hleft
      simpa using hleft

end Exchange

/-- What a call at this position, which begins after the loss, comes to. A call that waits has what
was put aside for it, if that is all it waits for, and fails otherwise. A call that sends knows
nothing of the loss: it fails if a rank it sends to has left, and comes to a result of its own
otherwise. -/
def Loss.Allows (loss : Loss) (k : Nat) (t : Transfer) (result : Except CommFault Delivery) :
    Prop :=
  match t.collective with
  | .broadcast =>
    if loss.here.rank = t.root then
      (result = .ok (.bytes (t.payload loss.here.rank)) ∧
        ∀ dest ∈ loss.here.peers, ¬ loss.gone dest) ∨
          ∃ dest ∈ loss.here.peers, result = .error (.hungUp dest)
    else
      result = match (⟨.broadcast, k, some t.root⟩ : Wanted).among loss.pending with
        | m :: _ => .ok (.bytes m.payload)
        | [] => .error (.terminated loss.here.rank loss.peer)
  | .gather =>
    if loss.here.rank = t.root then
      let messages := (⟨.gather, k, none⟩ : Wanted).among loss.pending
      result = if loss.here.size - 1 ≤ messages.length then
          .ok (.parts (some (Exchange.withParts [(loss.here.rank, t.payload loss.here.rank)]
            (messages.take (loss.here.size - 1)))))
        else .error (.terminated loss.here.rank loss.peer)
    else
      (result = .ok (.parts none) ∧ ¬ loss.gone t.root) ∨ result = .error (.hungUp t.root)

namespace Transfer

variable {t : Transfer} {k : Nat} {pending : List Message}

theorem exchange_fares (hsince : Message.since k pending = Message.since k loss.pending) :
    Exchange.Fares loss (fun result _ => loss.Allows k t result) (t.exchange loss.here k)
      pending := by
  -- who only sends may be unheard; who waits comes to its messages, or fails at the first missing
  unfold exchange Loss.Allows
  cases t.collective with
  | broadcast =>
    by_cases hrank : loss.here.rank = t.root
    · simp only [if_pos hrank]
      refine Exchange.fares_bind (Exchange.fares_sendAll (fun hhere => ?_) fun dest hdest => ?_)
      · exact Exchange.fares_pure (.inl ⟨rfl, hhere⟩)
      · exact .inr ⟨dest, hdest, rfl⟩
    · simp only [if_neg hrank]
      rw [← Wanted.among_congr hsince]
      refine Exchange.fares_bind (Exchange.fares_receive (fun m hfind => ?_) fun hfind => ?_)
      · rw [Wanted.among_of_find? hfind]
        exact Exchange.fares_pure rfl
      · rw [Wanted.among_of_find?_eq_none hfind]
  | gather =>
    by_cases hrank : loss.here.rank = t.root
    · simp only [if_pos hrank]
      rw [← Wanted.among_congr hsince]
      refine Exchange.fares_bind (Exchange.fares_collectParts fun left => ?_)
      by_cases hall : loss.here.size - 1 ≤
          ((⟨.gather, k, none⟩ : Wanted).among pending).length
      · simp only [if_pos hall]
        exact Exchange.fares_pure rfl
      · simp only [if_neg hall]
    · simp only [if_neg hrank]
      refine Exchange.fares_bind (Exchange.fares_send (fun hhere => ?_) (.inr rfl))
      exact Exchange.fares_pure (.inl ⟨rfl, hhere⟩)

/-- A call that begins after a loss comes to what it can, counts its position and leaves the
messages of later ones alone. -/
theorem call_fares (hroot : t.root < loss.here.size)
    (hsince : Message.since k pending = Message.since k loss.pending) :
    ((t.call loss.here).run k).Fares loss (fun r left => loss.Allows k t r.1 ∧ r.2 = k + 1 ∧
      Message.since (k + 1) left = Message.since (k + 1) loss.pending) pending := by
  rw [← Message.since_congr hsince (Nat.le_succ k)]
  -- the result is a matter of the collective, the count and the rest of what was put aside are not
  refine Program.Fares.and ?_ ((meets_call hroot).fares pending)
  rw [run_call hroot]
  exact exchange_fares hsince (k + 1)

end Transfer

/-! ## Mailboxes -/

namespace Network

variable {net : Network} {r dest : Rank} {b : Mailbox}

theorem mailbox?_put_none (h : net.mailbox? r = none) (hbox : net.mailbox? dest = some b)
    (left : Option Mailbox) : (net.put dest left).mailbox? r = none := by
  rw [mailbox?_put_of_some hbox]
  split
  · next hr =>
    rw [← hr, h] at hbox
    cases hbox
  · exact h

/-- A packet that is sent changes an inbox, and nothing else. -/
theorem mailbox?_send_some (h : net.mailbox? r = some b) (p : Packet) :
    ∃ inbox, (net.send dest p).2.mailbox? r = some { b with inbox } := by
  rw [mailbox?_send, h]
  split
  · exact ⟨_, rfl⟩
  · exact ⟨b.inbox, rfl⟩

end Network

namespace Hand.Step

variable {σ ρ : Type} {rules : Crew.Rules σ ρ} {alone : Prop} {me r : Rank} {hand hand' : Hand σ ρ}
  {net net' : Network}

/-- Who has left does not come back. -/
theorem absent (hstep : Hand.Step rules alone me hand net hand' net')
    (h : net.mailbox? r = none) : net'.mailbox? r = none := by
  cases hstep with
  | model | panic | lost | hungUp | proceed | giveUp | unwind | unwindAfter | told => exact h
  | send | tell => rw [Network.mailbox?_send, h, Option.map_none, ite_self]
  | message hbox _ => exact Network.mailbox?_put_none h hbox _
  | early hbox _ => exact Network.mailbox?_put_none h hbox _
  | down hbox _ => exact Network.mailbox?_put_none h hbox _
  | leave =>
    rw [Network.mailbox?_leave, h, ite_self]

/-- The other ranks fill the inbox of a rank, and leave the rest of its mailbox alone. -/
theorem mailbox_of_other (hstep : Hand.Step rules alone me hand net hand' net') (hne : me ≠ r)
    {b : Mailbox} (h : net.mailbox? r = some b) :
    ∃ inbox, net'.mailbox? r = some { b with inbox } := by
  cases hstep with
  | model | panic | lost | hungUp | proceed | giveUp | unwind | unwindAfter | told =>
    exact ⟨b.inbox, h⟩
  | send | tell => exact Network.mailbox?_send_some h _
  | message hbox _ | early hbox _ | down hbox _ =>
    refine ⟨b.inbox, ?_⟩
    rw [Network.mailbox?_put_of_some hbox, if_neg (Ne.symm hne)]
    exact h
  | leave =>
    refine ⟨b.inbox, ?_⟩
    rw [Network.mailbox?_leave, if_neg (Ne.symm hne)]
    exact h

end Hand.Step

/-! ## An endpoint at its calls -/

section

variable {calls : List Transfer} {here : Place} {k : Nat} {past : List (Except CommFault Delivery)}

/-- The rank carries out its calls one after another, each at its own position. -/
def Hand.OnCourse (calls : List Transfer) (here : Place)
    (hand : Hand Unit (Except CommFault Delivery)) : Prop :=
  ∀ program todo, hand.stage = .working program todo →
    todo = (calls.drop (hand.past.length + 1)).map (·.call here) ∧
      program.Meets (atPosition hand.past.length) fun r => r.2 = hand.past.length + 1

/-- After a call comes the next one, or the end. -/
theorem Hand.proceed_calls (calls : List Transfer) (here : Place) (k : Nat)
    (past : List (Except CommFault Delivery)) :
    (∃ t, calls[k]? = some t ∧ Hand.proceed () past k ((calls.drop k).map (·.call here)) =
        ⟨(), past, .working ((t.call here).run k) ((calls.drop (k + 1)).map (·.call here))⟩) ∨
      Hand.proceed () past k ((calls.drop k).map (·.call here)) = ⟨(), past, .closing⟩ := by
  by_cases hk : k < calls.length
  · refine .inl ⟨calls[k], List.getElem?_eq_getElem hk, ?_⟩
    rw [List.drop_eq_getElem_cons hk]
    rfl
  · rw [List.drop_eq_nil_of_le (Nat.le_of_not_lt hk)]
    exact .inr rfl

theorem Hand.onCourse_proceed (hroots : ∀ t ∈ calls, t.root < here.size) :
    (Hand.proceed () past past.length ((calls.drop past.length).map (·.call here))).OnCourse calls
      here := by
  rcases Hand.proceed_calls calls here past.length past with ⟨t, ht, hproceed⟩ | hproceed
  · rw [hproceed]
    rintro program todo ⟨rfl, rfl⟩
    exact ⟨rfl, Transfer.meets_call (hroots t (List.mem_of_getElem? ht))⟩
  · rw [hproceed]
    exact nofun

/-- One step of the rank. -/
theorem Hand.Step.onCourse {size : Nat} {alone : Prop} {me : Rank}
    {hand hand' : Hand Unit (Except CommFault Delivery)} {net net' : Network}
    (hroots : ∀ t ∈ calls, t.root < size)
    (hstep : Hand.Step (Transfer.rules size True) alone me hand net hand' net')
    (h : hand.OnCourse calls ⟨me, size⟩) : hand'.OnCourse calls ⟨me, size⟩ := by
  cases hstep with
  | model | send | message | down | lost | hungUp =>
    rintro program todo ⟨rfl, rfl⟩
    obtain ⟨htodo, hmeets⟩ := h _ _ rfl
    exact ⟨htodo, hmeets.2 _ trivial⟩
  | early => exact h
  | @proceed s past r count todo =>
    obtain ⟨htodo, hcount⟩ := h _ _ rfl
    obtain rfl : count = past.length + 1 := hcount
    have hnext := @Hand.onCourse_proceed calls ⟨me, size⟩ (past ++ [r]) hroots
    rw [List.length_append] at hnext
    rw [htodo]
    exact hnext
  | panic | giveUp | unwind | unwindAfter | tell | told | leave => exact nofun

/-- What comes of the call at this position, which has begun after the loss if its position is
after `start`. -/
def Loss.Done (loss : Loss) (calls : List Transfer) (start k : Nat)
    (r : Except CommFault Delivery × Nat) (left : List Message) : Prop :=
  r.2 = k + 1 ∧ Message.since (k + 1) left = Message.since (k + 1) loss.pending ∧
    (start < k → ∃ t, calls[k]? = some t ∧ loss.Allows k t r.1)

/-- A rank that has lost a peer during its call at position `start`. -/
structure Hand.Bereft (loss : Loss) (calls : List Transfer) (start : Nat)
    (hand : Hand Unit (Except CommFault Delivery)) (net : Network) : Prop where
  absent : ∀ r, loss.gone r → net.mailbox? r = none
  results : ∀ k result, start < k → hand.past[k]? = some result →
    ∃ t, calls[k]? = some t ∧ loss.Allows k t result
  working : ∀ program todo, hand.stage = .working program todo → start ≤ hand.past.length ∧
    todo = (calls.drop (hand.past.length + 1)).map (·.call loss.here) ∧
    ∃ b, net.mailbox? loss.here.rank = some b ∧ b.lost = some loss.peer ∧
      program.Fares loss (loss.Done calls start hand.past.length) b.pending

namespace Hand.Bereft

variable {start : Nat} {hand hand' : Hand Unit (Except CommFault Delivery)}
  {net net' : Network} {s : Unit} {r : Except CommFault Delivery}

/-- A rank that goes on with its call. -/
theorem go_on {program program' : Program link (Except CommFault Delivery × Nat)}
    {todo : List (Job (Except CommFault Delivery))} {b : Mailbox}
    (h : Hand.Bereft loss calls start ⟨s, past, .working program todo⟩ net)
    (hbox : net'.mailbox? loss.here.rank = some b) (hlost : b.lost = some loss.peer)
    (hfares : program'.Fares loss (loss.Done calls start past.length) b.pending)
    (habsent : ∀ r, loss.gone r → net'.mailbox? r = none) :
    Hand.Bereft loss calls start ⟨s, past, .working program' todo⟩ net' := by
  refine ⟨habsent, h.results, ?_⟩
  rintro _ _ ⟨rfl, rfl⟩
  obtain ⟨hstart, htodo, -⟩ := h.working _ _ rfl
  exact ⟨hstart, htodo, b, hbox, hlost, hfares⟩

/-- The result of a call is put to the others. -/
theorem results_append {count : Nat} {todo : List (Job (Except CommFault Delivery))}
    (h : Hand.Bereft loss calls start ⟨s, past, .working (.done (r, count)) todo⟩ net) (k : Nat)
    (result : Except CommFault Delivery) (hk : start < k)
    (hresult : (past ++ [r])[k]? = some result) :
    ∃ t, calls[k]? = some t ∧ loss.Allows k t result := by
  obtain ⟨-, -, b, -, -, -, -, hallows⟩ := h.working _ _ rfl
  -- the new result is the one at the end, and the others are as they were
  rcases Nat.lt_trichotomy k past.length with hlt | rfl | hgt
  · rw [List.getElem?_append_left hlt] at hresult
    exact h.results k result hk hresult
  · rw [List.getElem?_concat_length] at hresult
    obtain rfl := Option.some.inj hresult
    exact hallows hk
  · rw [List.getElem?_eq_none (by simpa using Nat.succ_le_of_lt hgt)] at hresult
    cases hresult

/-- A call is done, and the next one begins after the loss. -/
theorem proceed (hroots : ∀ t ∈ calls, t.root < loss.here.size) {count : Nat}
    {todo : List (Job (Except CommFault Delivery))}
    (h : Hand.Bereft loss calls start ⟨s, past, .working (.done (r, count)) todo⟩ net) :
    (Hand.proceed s (past ++ [r]) count todo).Bereft loss calls start net := by
  have hresults := h.results_append
  obtain ⟨hstart, htodo, b, hbox, hlost, hcount, hsince, -⟩ := h.working _ _ rfl
  obtain rfl : count = past.length + 1 := hcount
  rw [htodo]
  have hlength : (past ++ [r]).length = past.length + 1 := by simp
  rcases Hand.proceed_calls calls loss.here (past.length + 1) (past ++ [r]) with
    ⟨t, ht, hproceed⟩ | hproceed
  · rw [hproceed]
    refine ⟨h.absent, hresults, ?_⟩
    rintro _ _ ⟨rfl, rfl⟩
    rw [hlength]
    refine ⟨hstart.trans (Nat.le_succ _), rfl, b, hbox, hlost, ?_⟩
    refine (Transfer.call_fares (hroots t (List.mem_of_getElem? ht)) hsince).mono ?_
    rintro ⟨result, count⟩ left ⟨hallows, hcount, hleft⟩
    exact ⟨hcount, hleft, fun _ => ⟨t, ht, hallows⟩⟩
  · rw [hproceed]
    exact ⟨h.absent, hresults, nofun⟩

/-- At a wait the rank finds a message that was put aside, or the loss, and nothing else. -/
theorem finds {w : Wanted} {next : Except CommFault Message → Program link _}
    {todo : List (Job (Except CommFault Delivery))} {b : Mailbox} {found : Mailbox.Found}
    (h : Hand.Bereft loss calls start ⟨s, past, .working (.call (.receive w) next) todo⟩ net)
    (hbox : net.mailbox? loss.here.rank = some b) (hlook : b.look w = found) :
    (∃ m left, found = .message m left ∧ left.lost = some loss.peer ∧
        (next (.ok m)).Fares loss (loss.Done calls start past.length) left.pending) ∨
      found = .lost loss.peer ∧ b.lost = some loss.peer ∧
        (next (.error (.terminated loss.here.rank loss.peer))).Fares loss
          (loss.Done calls start past.length) b.pending := by
  obtain ⟨-, -, b', hbox', hlost, hfares⟩ := h.working _ _ rfl
  obtain rfl := Option.some.inj (hbox.symm.trans hbox')
  subst hlook
  rw [Program.fares_receive] at hfares
  rw [Mailbox.look, hlost]
  cases hfind : b.pending.find? w.accepts with
  | some m =>
    rw [hfind] at hfares
    exact .inl ⟨m, _, rfl, rfl, hfares⟩
  | none =>
    rw [hfind] at hfares
    exact .inr ⟨rfl, rfl, hfares⟩

/-- One step of the rank. -/
theorem step (hroots : ∀ t ∈ calls, t.root < loss.here.size) {alone : Prop}
    (hstep : Hand.Step (Transfer.rules loss.here.size True) alone loss.here.rank hand net hand'
      net')
    (h : hand.Bereft loss calls start net) : hand'.Bereft loss calls start net' := by
  have habsent : ∀ r, loss.gone r → net'.mailbox? r = none :=
    fun r hr => hstep.absent (h.absent r hr)
  cases hstep with
  | model hreply => cases hreply
  | panic | unwind | tell | told | leave => exact ⟨habsent, h.results, nofun⟩
  | giveUp | unwindAfter => exact ⟨habsent, h.results_append, nofun⟩
  | proceed => exact h.proceed hroots
  | @send s past dest m =>
    obtain ⟨-, -, b, hbox, hlost, hfares⟩ := h.working _ _ rfl
    obtain ⟨inbox, hbox'⟩ := Network.mailbox?_send_some hbox (.message m)
    refine h.go_on hbox' hlost (hfares _ fun hgone => ?_) habsent
    rw [Network.send_of_none _ (h.absent _ hgone)]
  | message hbox hlook =>
    obtain ⟨m, left, ⟨⟩, hlost, hfares⟩ | ⟨⟨⟩, -⟩ := h.finds hbox hlook
    refine h.go_on ?_ hlost hfares habsent
    rw [Network.mailbox?_put_of_some hbox, if_pos rfl]
  | lost hbox hlook =>
    obtain ⟨m, left, ⟨⟩, -⟩ | ⟨⟨⟩, hlost, hfares⟩ := h.finds hbox hlook
    exact h.go_on hbox hlost hfares habsent
  -- a mailbox that tells of a loss is not looked into any further
  | early hbox hlook | down hbox hlook | hungUp hbox hlook =>
    obtain ⟨m, left, ⟨⟩, -⟩ | ⟨⟨⟩, -⟩ := h.finds hbox hlook

/-- One step of another rank. -/
theorem other {size : Nat} {alone : Prop} {me : Rank}
    {peer peer' : Hand Unit (Except CommFault Delivery)}
    (hne : me ≠ loss.here.rank)
    (hstep : Hand.Step (Transfer.rules size True) alone me peer net peer' net')
    (h : hand.Bereft loss calls start net) : hand.Bereft loss calls start net' := by
  refine ⟨fun r hr => hstep.absent (h.absent r hr), h.results, fun program todo hstage => ?_⟩
  obtain ⟨hstart, htodo, b, hbox, hlost, hfares⟩ := h.working program todo hstage
  obtain ⟨inbox, hbox'⟩ := hstep.mailbox_of_other hne hbox
  exact ⟨hstart, htodo, _, hbox', hlost, hfares⟩

end Hand.Bereft

end

/-! ## Groups of ranks with calls of their own -/

namespace Crew

/-- A group every rank of which carries out calls of its own. -/
def calling (size : Nat) (calls : Rank → List Transfer) : Crew Unit (Except CommFault Delivery) :=
  .new size 0 (fun _ => ()) fun r => (calls r).map (·.call ⟨r, size⟩)

variable {size : Nat} {calls : Rank → List Transfer}
  {crew later : Crew Unit (Except CommFault Delivery)}
  {me peer : Rank} {b : Mailbox}

theorem onCourse_of_reaches (hroots : ∀ t ∈ calls me, t.root < size)
    (h : Reaches (Transfer.rules size True) (calling size calls) crew) :
    (crew.hands me).OnCourse (calls me) ⟨me, size⟩ := by
  induction h with
  | refl => exact @Hand.onCourse_proceed (calls me) ⟨me, size⟩ [] hroots
  | @tail crew _ _ hstep ih =>
    obtain ⟨r, hr, hand, net, hstep, rfl⟩ := hstep
    show (Function.update crew.hands r hand me).OnCourse _ _
    -- a step of another rank leaves this one as it is
    by_cases hme : me = r
    · subst hme
      rw [Function.update_self]
      exact hstep.onCourse hroots ih
    · rw [Function.update_of_ne hme]
      exact ih

/-- What the rank knows when it learns of the loss. -/
def lossOf (size : Nat) (crew : Crew Unit (Except CommFault Delivery)) (me peer : Rank)
    (b : Mailbox) : Loss where
  here := ⟨me, size⟩
  peer := peer
  gone r := crew.network.mailbox? r = none
  pending := b.pending

theorem bereft_of_reaches (hroots : ∀ t ∈ calls me, t.root < size)
    (h : Reaches (Transfer.rules size True) (calling size calls) crew)
    (hbox : crew.network.mailbox? me = some b) (hlost : b.lost = some peer)
    (hlater : Reaches (Transfer.rules size True) crew later) :
    (later.hands me).Bereft (crew.lossOf size me peer b) (calls me) (crew.hands me).past.length
      later.network := by
  -- on the run since the loss: the call that is underway when it begins may come to anything
  induction hlater with
  | refl =>
    refine ⟨fun r hr => hr, fun k result hk hresult => ?_, fun program todo hstage => ?_⟩
    · rw [List.getElem?_eq_none hk.le] at hresult
      cases hresult
    · obtain ⟨htodo, hmeets⟩ := onCourse_of_reaches hroots h program todo hstage
      refine ⟨le_rfl, htodo, b, hbox, hlost, (hmeets.fares b.pending).mono ?_⟩
      rintro ⟨result, count⟩ left ⟨hcount, hleft⟩
      exact ⟨hcount, hleft, fun hlt => absurd hlt (lt_irrefl _)⟩
  | @tail now _ _ hstep ih =>
    obtain ⟨r, hr, hand, net, hstep, rfl⟩ := hstep
    show (Function.update now.hands r hand me).Bereft _ _ _ net
    by_cases hme : me = r
    · subst hme
      rw [Function.update_self]
      exact @Hand.Bereft.step (crew.lossOf size me peer b) _ _ _ _ _ _ hroots _ hstep ih
    · rw [Function.update_of_ne hme]
      exact ih.other (Ne.symm hme) hstep

/-- **Calls after a loss.** A rank carries out calls of its own, and so do the others; any of them
may unwind. Once the rank has learned of a peer that has unwound, it is never blocked again, and
comes to the end of its calls without anybody else unwinding. A call that begins after that and
waits for others has what had been put aside for it, if that is all it waits for, and otherwise
fails because of the loss. A call that only sends takes no notice of the loss: it fails if a rank it
sends to had left. -/
theorem calls_after_loss (hroots : ∀ t ∈ calls me, t.root < size) (hme : me < size)
    (h : Reaches (Transfer.rules size True) (calling size calls) crew)
    (hbox : crew.network.mailbox? me = some b) (hlost : b.lost = some peer) :
    ∀ later, Reaches (Transfer.rules size True) crew later →
      ¬ later.IsBlocked me ∧
      ((∀ next, ¬ Step (Transfer.rules size False) later next) →
        (later.hands me).stage = .gone) ∧
      ∀ k result, (crew.hands me).past.length < k → (later.hands me).past[k]? = some result →
        ∃ t, (calls me)[k]? = some t ∧ (crew.lossOf size me peer b).Allows k t result := by
  intro later hlater
  have hbereft := bereft_of_reaches hroots h hbox hlost hlater
  have hready : ¬ later.IsBlocked me := by
    rintro ⟨w, next, todo, b', hstage, hbox', hlook⟩
    obtain ⟨-, -, b'', hbox'', hlost', -⟩ := hbereft.working _ _ hstage
    obtain rfl := Option.some.inj (hbox'.symm.trans hbox'')
    have hcalm := (Mailbox.isCalm_of_look_nothing hlook).1
    rw [hlost'] at hcalm
    cases hcalm
  refine ⟨hready, fun hend => ?_, hbereft.results⟩
  -- a rank that has not left, and is not blocked, has a step to take
  by_contra hstage
  have hgoes : ∃ next, Step (Transfer.rules size False) later next := by
    by_cases hworking : (later.hands me).IsWorking
    · refine step_of_not_blocked hme (fun hnone => ?_) hworking hready
      obtain ⟨program, todo, hworking⟩ := hworking
      obtain ⟨-, -, b', hbox', -⟩ := hbereft.working _ _ hworking
      cases hnone.symm.trans hbox'
    · exact step_of_not_working hme hworking hstage
  obtain ⟨next, hstep⟩ := hgoes
  exact hend next hstep

/-- A broadcast and a gather of the first of three ranks. -/
def errand : List Transfer :=
  [⟨.broadcast, 0, fun _ => []⟩, ⟨.gather, 0, fun _ => [7]⟩]

/-- The last of three ranks unwinds, and the one that waits for the broadcast learns of it. -/
theorem exists_loss :
    ∃ crew, Reaches (Transfer.rules 3 True) (calling 3 fun _ => errand) crew ∧
      crew.hands 1 = ⟨(), [], .working (.done (.error (.terminated 1 2), 1))
        [(⟨.gather, 0, fun _ => [7]⟩ : Transfer).call ⟨1, 3⟩]⟩ ∧
      crew.network = ⟨[some ⟨[.down 2], [], none⟩, some ⟨[], [], some 2⟩, some .empty]⟩ := by
  let start := calling 3 fun _ => errand
  let unwinding (crew : Crew Unit (Except CommFault Delivery)) (untold : List Rank)
      (net : Network) : Crew Unit (Except CommFault Delivery) :=
    ⟨Function.update crew.hands 2 ⟨(), [], .unwinding untold⟩, net⟩
  let crew₁ := unwinding start [0, 1] start.network
  let crew₂ := unwinding crew₁ [1] (crew₁.network.send 0 (.down 2)).2
  let crew₃ := unwinding crew₂ [] (crew₂.network.send 1 (.down 2)).2
  have hunwind : Step (Transfer.rules 3 True) start crew₁ :=
    ⟨2, by decide, _, _, .unwind trivial, rfl⟩
  have htell : Step (Transfer.rules 3 True) crew₁ crew₂ := ⟨2, by decide, _, _, .tell, rfl⟩
  have htell' : Step (Transfer.rules 3 True) crew₂ crew₃ := ⟨2, by decide, _, _, .tell, rfl⟩
  have hdown : Step (Transfer.rules 3 True) crew₃ _ :=
    ⟨1, by decide, _, _, .down rfl rfl, rfl⟩
  exact ⟨_, .tail (.tail (.tail (.single hunwind) htell) htell') hdown, rfl, rfl⟩

/-- The rank that has learned of the loss goes on to a gather where it only sends, and succeeds. -/
theorem gather_after_loss :
    ∃ crew later, Reaches (Transfer.rules 3 True) (calling 3 fun _ => errand) crew ∧
      (∃ b, crew.network.mailbox? 1 = some b ∧ b.lost = some 2) ∧
      (crew.hands 1).past.length = 0 ∧ Reaches (Transfer.rules 3 True) crew later ∧
      (later.hands 1).past[1]? = some (.ok (.parts none)) := by
  obtain ⟨⟨hands, net⟩, hreaches, hhand, rfl⟩ := exists_loss
  dsimp only at hhand
  -- three steps: the broadcast is put down as failed, the part is sent, the gather is done
  let crew : Crew Unit (Except CommFault Delivery) :=
    ⟨hands, ⟨[some ⟨[.down 2], [], none⟩, some ⟨[], [], some 2⟩, some .empty]⟩⟩
  let crew₁ : Crew Unit (Except CommFault Delivery) :=
    ⟨Function.update hands 1 (.proceed () [.error (.terminated 1 2)] 1
      [(⟨.gather, 0, fun _ => [7]⟩ : Transfer).call ⟨1, 3⟩]), crew.network⟩
  have hfail : Step (Transfer.rules 3 True) crew crew₁ := by
    refine ⟨1, by decide, _, _, ?_, rfl⟩
    show Hand.Step _ _ 1 (hands 1) _ _ _
    rw [hhand]
    exact .proceed
  have hsend : ∃ crew₂, Step (Transfer.rules 3 True) crew₁ crew₂ ∧
      crew₂.hands 1 =
        ⟨(), [.error (.terminated 1 2)], .working (.done (.ok (.parts none), 2)) []⟩ :=
    ⟨_, ⟨1, by decide, _, _, .send, rfl⟩, rfl⟩
  obtain ⟨crew₂, hsend, hhand₂⟩ := hsend
  have hdone : Step (Transfer.rules 3 True) crew₂ ⟨Function.update crew₂.hands 1
      (.proceed () [.error (.terminated 1 2), .ok (.parts none)] 2 []), crew₂.network⟩ := by
    refine ⟨1, by decide, _, _, ?_, rfl⟩
    rw [hhand₂]
    exact .proceed
  refine ⟨crew, _, hreaches, ⟨_, rfl, rfl⟩, ?_, .tail (.tail (.single hfail) hsend) hdone, rfl⟩
  show (hands 1).past.length = 0
  rw [hhand]
  rfl

/-- What the calls of that rank come to after the loss. -/
theorem errand_after_loss :
    ∃ crew, Reaches (Transfer.rules 3 True) (calling 3 fun _ => errand) crew ∧
      (crew.hands 1).past.length = 0 ∧
      ∀ later, Reaches (Transfer.rules 3 True) crew later →
        ¬ later.IsBlocked 1 ∧
        ((∀ next, ¬ Step (Transfer.rules 3 False) later next) → (later.hands 1).stage = .gone) ∧
        ∀ k result, (crew.hands 1).past.length < k → (later.hands 1).past[k]? = some result →
          ∃ t, errand[k]? = some t ∧
            (crew.lossOf 3 1 2 ⟨[], [], some 2⟩).Allows k t result := by
  obtain ⟨crew, hreaches, hhand, hnet⟩ := exists_loss
  refine ⟨crew, hreaches, by rw [hhand]; rfl, ?_⟩
  apply @calls_after_loss 3 (fun _ => errand) crew 1 2 _ _ (by decide) hreaches _ rfl
  · decide
  · rw [hnet]
    rfl

end Crew

end Nlp
