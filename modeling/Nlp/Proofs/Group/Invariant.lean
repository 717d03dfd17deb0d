import Nlp.Proofs.Group.Ledger

/-!
# Crews that follow a plan

Every rank of a crew has a list of jobs that follow the plan one after another, and for each job a
property its result has to have.  However the ranks take turns, the results they come to have these
properties.

## Main definitions

* `Plan.JobsFollow`, `Plan.HandFollows`: the jobs of a rank, before and while it carries them out.
* `Crew.Consistent`: the invariant of a crew.

## Main results

* `Crew.Consistent.new`: it holds where the jobs start.
* `Crew.Consistent.step`: one step keeps it.
* `Crew.Consistent.reaches`: so does a whole run.
* `Crew.Consistent.network_eq_new`: where it ends, the network is as it was.
-/

namespace Nlp

variable {σ ρ : Type}

namespace Plan

/-- The rules of a crew that follows the plan, where a rank may leave its other jobs after certain
results. -/
def rules (plan : Plan σ) (givesUp : ρ → Prop) : Crew.Rules σ ρ :=
  ⟨plan.size, plan.respond, givesUp, plan.faulty⟩

variable (plan : Plan σ) (givesUp : ρ → Prop) (me : Rank)

/-- The jobs follow the plan one after another from this count, and the result of each has its
property.  Where nobody unwinds no result makes the rank give up, and the jobs take the plan to its
end. -/
def JobsFollow : (jobs : List (Job ρ)) → (goods : List (ρ → Prop)) → (count : Nat) → σ → Prop
  | [], [], count, _ => plan.faulty ∨ count = plan.transfers.length
  | job :: jobs, good :: goods, count, s =>
    (job.run count).Follows plan me
      (fun r mark s => mark = ⟨r.2, []⟩ ∧ good r.1 ∧ (givesUp r.1 → plan.faulty) ∧
        JobsFollow jobs goods r.2 s)
      ⟨count, []⟩ s
  | _, _, _, _ => False

/-- The result of a job has its property, and the other jobs follow the plan. -/
def JobDone (good : ρ → Prop) (todo : List (Job ρ)) (goods : List (ρ → Prop)) :
    ρ × Nat → Mark → σ → Prop :=
  fun r mark s => mark = ⟨r.2, []⟩ ∧ good r.1 ∧ (givesUp r.1 → plan.faulty) ∧
    plan.JobsFollow givesUp me todo goods r.2 s

/-- What a rank is doing follows the plan, and its results will have these properties. -/
def StageFollows (goods : List (ρ → Prop)) (mark : Mark) (s : σ) : Stage ρ → Prop
  | .working program todo => ∃ good rest, goods = good :: rest ∧
      program.Follows plan me (plan.JobDone givesUp me good todo rest) mark s
  | .unwinding _ => plan.faulty
  | .closing | .gone => plan.faulty ∨ goods = [] ∧ mark.count = plan.transfers.length

/-- A rank follows the plan: the results it has have their properties, and what it is doing follows
the plan. -/
def HandFollows (expected : List (ρ → Prop)) (mark : Mark) (hand : Hand σ ρ) : Prop :=
  ∃ done left, expected = done ++ left ∧ List.Forall₂ (fun r good => good r) hand.past done ∧
    plan.StageFollows givesUp me left mark hand.state hand.stage

variable {plan givesUp me}

theorem handFollows_proceed {expected done left : List (ρ → Prop)} {s : σ} {past : List ρ}
    {count : Nat} {todo : List (Job ρ)} (hexpected : expected = done ++ left)
    (hpast : List.Forall₂ (fun r good => good r) past done)
    (hjobs : plan.JobsFollow givesUp me todo left count s) :
    plan.HandFollows givesUp me expected ⟨count, []⟩ (.proceed s past count todo) := by
  refine ⟨done, left, hexpected, ?_⟩
  cases todo with
  | nil =>
    cases left with
    | nil => exact ⟨hpast, hjobs.imp_right fun h => ⟨rfl, h⟩⟩
    | cons good goods => exact hjobs.elim
  | cons job todo =>
    cases left with
    | nil => exact hjobs.elim
    | cons good goods => exact ⟨hpast, good, goods, rfl, hjobs⟩

end Plan

variable {plan : Plan σ} {givesUp : ρ → Prop} {marks : Rank → Mark} {net net' : Network}
  {me : Rank} {expected : List (ρ → Prop)} {hand hand' : Hand σ ρ}

theorem Ledger.passes (h : Ledger plan marks net) {mark : Mark}
    (hadvances : plan.Advances me (marks me) mark) :
    Ledger plan (Function.update marks me mark) net := by
  -- a rank may pass several transfers in which it has no peer to meet
  induction hadvances with
  | refl => rwa [Function.update_eq_self]
  | @tail a b _ hadvance ih =>
    have hnext : plan.Advance me (Function.update marks me a me) b := by
      rwa [Function.update_self]
    have hpass := ih.pass hnext
    rwa [Function.update_idem] at hpass

/-- What a step of the rank `me` leaves: the rank follows the plan at its new mark, which accounts
for the messages, and no mailbox has gone but that of a rank that has left. -/
structure Plan.Left (plan : Plan σ) (givesUp : ρ → Prop) (me : Rank) (expected : List (ρ → Prop))
    (marks : Rank → Mark) (net net' : Network) (hand' : Hand σ ρ) (mark : Mark) : Prop where
  hand : plan.HandFollows givesUp me expected mark hand'
  ledger : Ledger plan (Function.update marks me mark) net'
  length : net'.mailboxes.length = net.mailboxes.length
  present : ∀ r, net'.mailbox? r = none → net.mailbox? r = none ∨ r = me ∧ hand'.stage = .gone

namespace Plan

/-- A step that changes one mailbox, or none. -/
theorem Left.of_put {mark : Mark} {r : Rank} {b left : Mailbox}
    (hbox : net.mailbox? r = some b) (hhand : plan.HandFollows givesUp me expected mark hand')
    (hledger : Ledger plan (Function.update marks me mark) (net.put r (some left))) :
    plan.Left givesUp me expected marks net (net.put r (some left)) hand' mark := by
  refine ⟨hhand, hledger, net.length_mailboxes_put r _, fun r' hr' => ?_⟩
  rw [Network.mailbox?_put_of_some hbox] at hr'
  split at hr'
  · nomatch hr'
  · exact .inl hr'

theorem Left.of_same {mark : Mark} (hhand : plan.HandFollows givesUp me expected mark hand')
    (hledger : Ledger plan (Function.update marks me mark) net) :
    plan.Left givesUp me expected marks net net hand' mark :=
  ⟨hhand, hledger, rfl, fun _ h => .inl h⟩

/-- A packet changes the mailbox it is sent to, if there is one. -/
theorem Left.of_send {mark : Mark} {dest : Rank} {p : Packet}
    (hhand : plan.HandFollows givesUp me expected mark hand')
    (hledger : Ledger plan (Function.update marks me mark) (net.send dest p).2) :
    plan.Left givesUp me expected marks net (net.send dest p).2 hand' mark := by
  cases hbox : net.mailbox? dest with
  | some b =>
    rw [Network.send_of_some _ hbox] at hledger ⊢
    exact .of_put hbox hhand hledger
  | none =>
    rw [Network.send_of_none _ hbox] at hledger ⊢
    exact .of_same hhand hledger

section

variable {done left : List (ρ → Prop)} {past : List ρ} {s s' : σ} {todo : List (Job ρ)}

/-- A rank at a call of its job does what the plan allows at a mark to which it may pass. -/
theorem StageFollows.call {c : LinkCall} {next : link.Reply c → Program link (ρ × Nat)}
    (hledger : Ledger plan marks net)
    (h : plan.StageFollows givesUp me left (marks me) s (.working (.call c next) todo)) :
    ∃ mark, Ledger plan (Function.update marks me mark) net ∧
      plan.Allows me c mark s fun reply mark s =>
        plan.StageFollows givesUp me left mark s (.working (next reply) todo) := by
  obtain ⟨good, rest, hleft, mark, hadvances, hallows⟩ := h
  exact ⟨mark, hledger.passes hadvances,
    hallows.mono fun reply mark s hnext => ⟨good, rest, hleft, hnext⟩⟩

/-- A rank whose job has come to a result has one more of the results that are expected of it, and
has passed the transfers of the job. -/
theorem StageFollows.result {r : ρ} {count : Nat} (hledger : Ledger plan marks net)
    (hexpected : expected = done ++ left) (hpast : List.Forall₂ (fun r good => good r) past done)
    (h : plan.StageFollows givesUp me left (marks me) s (.working (.done (r, count)) todo)) :
    Ledger plan (Function.update marks me ⟨count, []⟩) net ∧ (givesUp r → plan.faulty) ∧
      ∃ done left, expected = done ++ left ∧
        List.Forall₂ (fun r good => good r) (past ++ [r]) done ∧
        plan.JobsFollow givesUp me todo left count s := by
  obtain ⟨good, rest, rfl, mark, hadvances, rfl, hgood, hfaulty, hjobs⟩ := h
  refine ⟨hledger.passes hadvances, hfaulty, done ++ [good], rest, ?_, ?_, hjobs⟩
  · rw [hexpected, List.append_cons]
  · exact List.rel_append hpast (.cons hgood .nil)

/-- A peer without mailbox has passed all transfers, and so has met whoever sends to it. -/
theorem passed_of_gone {mark : Mark} {t : Transfer} {dest : Rank} (hcalm : ¬ plan.faulty)
    (hledger : Ledger plan (Function.update marks me mark) net) (ht : plan.Current mark t)
    (hcarries : t.Carries plan.size me dest)
    (hgone : (marks dest).count = plan.transfers.length) : dest ∈ mark.met := by
  have hlt : mark.count < plan.transfers.length := (List.getElem?_eq_some_iff.mp ht).1
  have hdest : (Function.update marks me mark dest).Passed mark.count me := by
    rw [Function.update_of_ne (Ne.symm hcarries.2.2.1)]
    exact .inl (hgone ▸ hlt)
  have hpassed := hledger.causal hcalm _ t ht me dest hcarries hdest
  rw [Function.update_self] at hpassed
  exact Mark.passed_count.mp hpassed

theorem StageFollows.send {dest : Rank} {m : Message} {next : Bool → Program link (ρ × Nat)}
    (hledger : Ledger plan marks net)
    (hgone : ¬ plan.faulty → dest < plan.size → net.mailbox? dest = none →
      (marks dest).count = plan.transfers.length)
    (h : plan.StageFollows givesUp me left (marks me) s
      (.working (.call (.send dest m) next) todo)) :
    ∃ mark, plan.StageFollows givesUp me left mark s
        (.working (next (net.send dest (.message m)).1) todo) ∧
      Ledger plan (Function.update marks me mark) (net.send dest (.message m)).2 := by
  obtain ⟨mark, hledger, t, ht, hcarries, hmet, rfl, htrue, hfalse⟩ := h.call hledger
  -- a peer whose mailbox has gone would have met the sender already
  cases hbox : net.mailbox? dest with
  | some b =>
    rw [Network.send_of_some _ hbox]
    have hcurrent : plan.Current (Function.update marks me mark me) t := by
      rwa [Function.update_self]
    have hunmet : dest ∉ (Function.update marks me mark me).met := by
      rwa [Function.update_self]
    have hsend := hledger.send hcurrent hcarries hunmet hbox
    rw [Function.update_self, Function.update_idem] at hsend
    exact ⟨mark.meet dest, htrue, hsend⟩
  | none =>
    rw [Network.send_of_none _ hbox]
    have hfaulty : plan.faulty := by
      by_contra hcalm
      exact hmet (passed_of_gone hcalm hledger ht hcarries (hgone hcalm hcarries.2.1 hbox))
    exact ⟨mark, hfalse hfaulty, hledger⟩

theorem StageFollows.message {w : Wanted} {m : Message} {b b' : Mailbox}
    {next : Except CommFault Message → Program link (ρ × Nat)} (hledger : Ledger plan marks net)
    (hbox : net.mailbox? me = some b) (hlook : b.look w = .message m b')
    (h : plan.StageFollows givesUp me left (marks me) s (.working (.call (.receive w) next) todo)) :
    ∃ mark, plan.StageFollows givesUp me left mark s (.working (next (.ok m)) todo) ∧
      Ledger plan (Function.update marks me mark) (net.put me (some b')) := by
  obtain ⟨mark, hledger, t, ht, hcollective, hsequence, hok, -, -⟩ := h.call hledger
  obtain ⟨haccepts, hmessages, hquiet⟩ := Mailbox.look_message hlook
  obtain ⟨⟨-, hmsequence⟩, hsource⟩ := Wanted.accepts_iff.mp haccepts
  have hcount : m.sequence = mark.count := hmsequence.trans hsequence
  have hheld : net.Holds me m := by
    obtain ⟨before, after, hb, -⟩ := hmessages
    exact ⟨b, hbox, by simp [hb]⟩
  -- what is accepted is the message of the transfer at the mark
  obtain ⟨t', ht', hcarries, hm⟩ := hledger.genuine me m hheld
  rw [hcount] at ht' hm
  obtain rfl : t = t' := Option.some.inj (ht.symm.trans ht')
  have huntaken := hledger.untaken me m hheld (by rwa [Function.update_self])
  rw [Function.update_self] at huntaken
  have hnext := hok m.source hcarries huntaken hsource
  rw [← hm] at hnext
  have htake := hledger.take hbox hmessages hquiet (by rwa [Function.update_self])
  rw [Function.update_self, Function.update_idem] at htake
  exact ⟨mark.meet m.source, hnext, htake⟩

/-- Where ranks may unwind, a wait may fail. -/
theorem StageFollows.fault {w : Wanted} {next : Except CommFault Message → Program link (ρ × Nat)}
    (hledger : Ledger plan marks net) (hfaulty : plan.faulty) (fault : CommFault)
    (h : plan.StageFollows givesUp me left (marks me) s (.working (.call (.receive w) next) todo)) :
    ∃ mark, plan.StageFollows givesUp me left mark s (.working (next (.error fault)) todo) ∧
      Ledger plan (Function.update marks me mark) net := by
  obtain ⟨mark, hledger, t, -, -, -, -, -, hfault⟩ := h.call hledger
  exact ⟨mark, hfault hfaulty fault, hledger⟩

/-- Where nobody unwinds, whoever waits is sent what it waits for. -/
theorem StageFollows.faulty_of_alone {w : Wanted} {b : Mailbox}
    {next : Except CommFault Message → Program link (ρ × Nat)} (hledger : Ledger plan marks net)
    (hbox : net.mailbox? me = some b) (hlook : b.look w = .nothing)
    (halone : ¬ plan.faulty → ∀ r < plan.size, r ≠ me →
      (marks r).count = plan.transfers.length)
    (h : plan.StageFollows givesUp me left (marks me) s (.working (.call (.receive w) next) todo)) :
    plan.faulty := by
  by_contra hcalm
  obtain ⟨mark, hledger, t, ht, hcollective, hsequence, -, hmissing, -⟩ := h.call hledger
  obtain ⟨source, hcarries, hmet, hsource⟩ := hmissing hcalm
  have hlt : mark.count < plan.transfers.length := (List.getElem?_eq_some_iff.mp ht).1
  have hpassed : (Function.update marks me mark source).Passed mark.count me := by
    rw [Function.update_of_ne hcarries.2.2.1]
    exact .inl (halone hcalm source hcarries.1 hcarries.2.2.1 ▸ hlt)
  -- the message is in the mailbox, where the look would have found it, or has been taken
  rcases hledger.delivered hcalm _ t ht source me hcarries hpassed with ⟨b', hb', hm⟩ | htaken
  · obtain rfl : b = b' := Option.some.inj (hbox.symm.trans hb')
    exact Mailbox.look_nothing hlook _ hm
      (Wanted.accepts_iff.mpr ⟨⟨hcollective.symm, hsequence.symm⟩, hsource⟩)
  · rw [Function.update_self] at htaken
    exact hmet (Mark.passed_count.mp htaken)

end

/-- One step of a rank leaves it on the plan. -/
theorem HandFollows.step {alone : Prop} (hledger : Ledger plan marks net)
    (hpresent : net.mailbox? me = none → hand.stage = .gone)
    (hgone : ¬ plan.faulty → ∀ r < plan.size, net.mailbox? r = none →
      (marks r).count = plan.transfers.length)
    (halone : alone → ¬ plan.faulty → ∀ r < plan.size, r ≠ me →
      (marks r).count = plan.transfers.length)
    (h : plan.HandFollows givesUp me expected (marks me) hand)
    (hstep : Hand.Step (plan.rules givesUp) alone me hand net hand' net') :
    ∃ mark, plan.Left givesUp me expected marks net net' hand' mark := by
  obtain ⟨done, left, hexpected, hpast, hstage⟩ := h
  have hsame : Ledger plan (Function.update marks me (marks me)) net := by
    rwa [Function.update_eq_self]
  -- the mark moves on where the rank acts in a transfer, and stays where only its mailbox changes,
  -- or where it unwinds
  cases hstep with
  | model hreply =>
    obtain ⟨mark, hledger, hallows⟩ := hstage.call hledger
    simp only [Allows, show plan.respond me _ _ = _ from hreply] at hallows
    exact ⟨mark, .of_same ⟨done, left, hexpected, hpast, hallows⟩ hledger⟩
  | panic hreply =>
    obtain ⟨mark, hledger, hallows⟩ := hstage.call hledger
    simp only [Allows, show plan.respond me _ _ = _ from hreply] at hallows
    exact ⟨mark, .of_same ⟨done, left, hexpected, hpast, hallows⟩ hledger⟩
  | @send s past dest m next todo =>
    obtain ⟨mark, hnext, hledger⟩ := hstage.send hledger fun hcalm hlt => hgone hcalm dest hlt
    exact ⟨mark, .of_send ⟨done, left, hexpected, hpast, hnext⟩ hledger⟩
  | message hbox hlook =>
    obtain ⟨mark, hnext, hledger⟩ := hstage.message hledger hbox hlook
    exact ⟨mark, .of_put hbox ⟨done, left, hexpected, hpast, hnext⟩ hledger⟩
  | early hbox hlook =>
    refine ⟨marks me, .of_put hbox ⟨done, left, hexpected, hpast, hstage⟩ ?_⟩
    exact hsame.rearrange hbox (Mailbox.messages_of_look_early hlook)
      fun _ => Mailbox.isCalm_of_look_early hlook
  -- the three faults of a wait: none of them can be where nobody unwinds
  | @down _ _ _ peer b _ _ _ _ hbox hlook =>
    obtain ⟨hdown, hmessages⟩ := Mailbox.look_down hlook
    have hfaulty : plan.faulty := by
      by_contra hcalm
      exact (hledger.quiet hcalm me b hbox).2 peer hdown
    obtain ⟨mark, hnext, hledger⟩ := hstage.fault hledger hfaulty (.terminated me peer)
    refine ⟨mark, .of_put hbox ⟨done, left, hexpected, hpast, hnext⟩ ?_⟩
    exact hledger.rearrange hbox hmessages fun hcalm => absurd hfaulty hcalm
  | @lost _ _ _ peer b _ _ _ hbox hlook =>
    have hfaulty : plan.faulty := by
      by_contra hcalm
      have hlost := (hledger.quiet hcalm me b hbox).1
      rw [Mailbox.look_lost hlook] at hlost
      cases hlost
    obtain ⟨mark, hnext, hledger⟩ := hstage.fault hledger hfaulty (.terminated me peer)
    exact ⟨mark, .of_same ⟨done, left, hexpected, hpast, hnext⟩ hledger⟩
  | hungUp hbox hlook hside =>
    have hfaulty := hstage.faulty_of_alone hledger hbox hlook (halone hside)
    obtain ⟨mark, hnext, hledger⟩ := hstage.fault hledger hfaulty (.everyPeerHungUp me)
    exact ⟨mark, .of_same ⟨done, left, hexpected, hpast, hnext⟩ hledger⟩
  | @proceed s past r count todo =>
    obtain ⟨hledger, -, done, left, hexpected, hpast, hjobs⟩ :=
      hstage.result hledger hexpected hpast
    exact ⟨⟨count, []⟩, .of_same (handFollows_proceed hexpected hpast hjobs) hledger⟩
  -- from here on the rank is at the end of its jobs
  | giveUp hr =>
    obtain ⟨hledger, hfaulty, done, left, hexpected, hpast, -⟩ :=
      hstage.result hledger hexpected hpast
    exact ⟨⟨_, []⟩, .of_same ⟨done, left, hexpected, hpast, .inl (hfaulty hr)⟩ hledger⟩
  | unwind hfaulty =>
    exact ⟨marks me, .of_same ⟨done, left, hexpected, hpast, hfaulty⟩ hsame⟩
  | unwindAfter hfaulty =>
    obtain ⟨hledger, -, done, left, hexpected, hpast, -⟩ :=
      hstage.result hledger hexpected hpast
    exact ⟨⟨_, []⟩, .of_same ⟨done, left, hexpected, hpast, hfaulty⟩ hledger⟩
  | @tell s past dest untold =>
    have hfaulty : plan.faulty := hstage
    exact ⟨marks me, .of_send ⟨done, left, hexpected, hpast, hfaulty⟩ (hsame.tell hfaulty)⟩
  | told => exact ⟨marks me, .of_same ⟨done, left, hexpected, hpast, .inl hstage⟩ hsame⟩
  | leave =>
    refine ⟨marks me, ⟨done, left, hexpected, hpast, hstage⟩, ?_, ?_, fun r hr => ?_⟩
    · refine hsame.leave fun hcalm => ?_
      rw [Function.update_self]
      exact (hstage.resolve_left hcalm).2
    · exact net.length_mailboxes_put me none
    · rw [Network.mailbox?_leave] at hr
      split at hr
      · next hme => exact .inr ⟨hme, rfl⟩
      · exact .inl hr

end Plan

namespace Crew

/-- The invariant of a crew: every rank follows the plan, only a rank that has left has no mailbox,
and the marks account for the messages. -/
structure Consistent (plan : Plan σ) (givesUp : ρ → Prop) (expected : Rank → List (ρ → Prop))
    (marks : Rank → Mark) (crew : Crew σ ρ) : Prop where
  hand : ∀ r < plan.size, plan.HandFollows givesUp r (expected r) (marks r) (crew.hands r)
  length : crew.network.mailboxes.length = plan.size
  present : ∀ r < plan.size, crew.network.mailbox? r = none → (crew.hands r).stage = .gone
  ledger : Ledger plan marks crew.network

variable {expected : Rank → List (ρ → Prop)} {crew crew' : Crew σ ρ}

/-- A crew that starts follows its plan if the jobs do. -/
theorem Consistent.new {states : Rank → σ} {jobs : Rank → List (Job ρ)} {count : Nat}
    (h : ∀ r < plan.size, plan.JobsFollow givesUp r (jobs r) (expected r) count (states r)) :
    Consistent plan givesUp expected (fun _ => ⟨count, []⟩) (.new plan.size count states jobs) := by
  refine ⟨fun r hr => ?_, List.length_replicate, fun r hr hnone => ?_, .new plan count⟩
  · exact Plan.handFollows_proceed rfl .nil (h r hr)
  · simp [Crew.new, Network.mailbox?_new hr] at hnone

/-- Where nobody unwinds, a rank that sends nothing more has passed all transfers. -/
theorem Consistent.count_of_silent (h : Consistent plan givesUp expected marks crew) {r : Rank}
    (hr : r < plan.size) (hcalm : ¬ plan.faulty) (hsilent : (crew.hands r).IsSilent) :
    (marks r).count = plan.transfers.length := by
  obtain ⟨done, left, -, -, hstage⟩ := h.hand r hr
  rcases hsilent with hsilent | hsilent
  all_goals
    rw [hsilent] at hstage
    exact (hstage.resolve_left hcalm).2

/-- Where nobody unwinds, the mailbox of a rank that sends nothing more is empty. -/
theorem Consistent.mailbox_eq_empty (h : Consistent plan givesUp expected marks crew)
    {r : Rank} (hr : r < plan.size) (hcalm : ¬ plan.faulty) (hsilent : (crew.hands r).IsSilent)
    {b : Mailbox} (hbox : crew.network.mailbox? r = some b) : b = .empty := by
  refine Mailbox.eq_empty (h.ledger.quiet hcalm r b hbox) ?_
  -- a message would be one of a transfer its receiver has not passed
  refine List.eq_nil_iff_forall_not_mem.mpr fun m hm => ?_
  obtain ⟨t, ht, -, -⟩ := h.ledger.genuine r m ⟨b, hbox, hm⟩
  have hlt : m.sequence < plan.transfers.length := (List.getElem?_eq_some_iff.mp ht).1
  have hcount := h.count_of_silent hr hcalm hsilent
  exact h.ledger.fresh hcalm r m ⟨b, hbox, hm⟩ (.inl (hcount ▸ hlt))

/-- Where nobody unwinds, whoever is sent a message has not left. -/
theorem Consistent.exists_mailbox_of_send (h : Consistent plan givesUp expected marks crew)
    (hcalm : ¬ plan.faulty) (hme : me < plan.size) {dest : Rank} {m : Message}
    {next : Bool → Program link (ρ × Nat)} {todo : List (Job ρ)}
    (hstage : (crew.hands me).stage = .working (.call (.send dest m) next) todo) :
    ∃ b, crew.network.mailbox? dest = some b := by
  obtain ⟨done, left, -, -, hfollows⟩ := h.hand me hme
  rw [hstage] at hfollows
  obtain ⟨mark, hledger, t, ht, hcarries, hmet, -⟩ := hfollows.call h.ledger
  cases hbox : crew.network.mailbox? dest with
  | some b => exact ⟨b, rfl⟩
  | none =>
    have hdest : dest < plan.size := hcarries.2.1
    have hcount := h.count_of_silent hdest hcalm (.inr (h.present dest hdest hbox))
    exact absurd (Plan.passed_of_gone hcalm hledger ht hcarries hcount) hmet

/-- A step keeps the invariant, with another mark for the rank that makes it. -/
theorem Consistent.step (h : Consistent plan givesUp expected marks crew)
    (hstep : Step (plan.rules givesUp) crew crew') :
    ∃ marks', Consistent plan givesUp expected marks' crew' := by
  obtain ⟨me, hme, hand, net, hstep, rfl⟩ := hstep
  obtain ⟨mark, hleft⟩ := (h.hand me hme).step h.ledger (h.present me hme)
    (fun hcalm r hr hnone => h.count_of_silent hr hcalm (.inr (h.present r hr hnone)))
    (fun halone hcalm r hr hne => h.count_of_silent hr hcalm (halone r hr hne)) hstep
  refine ⟨Function.update marks me mark, ?_, hleft.length.trans h.length, ?_, hleft.ledger⟩
  · intro r hr
    by_cases hne : r = me
    · subst hne
      simpa using hleft.hand
    · simpa [Function.update_of_ne hne] using h.hand r hr
  · intro r hr hnone
    rcases hleft.present r hnone with hold | ⟨rfl, hgone⟩
    · by_cases hne : r = me
      · subst hne
        exact absurd (h.present r hr hold) hstep.stage_ne_gone
      · simpa [Function.update_of_ne hne] using h.present r hr hold
    · simpa using hgone

/-- So does a run. -/
theorem Consistent.reaches (h : Consistent plan givesUp expected marks crew)
    (hreaches : Reaches (plan.rules givesUp) crew crew') :
    ∃ marks', Consistent plan givesUp expected marks' crew' := by
  induction hreaches with
  | refl => exact ⟨marks, h⟩
  | tail _ hstep ih =>
    obtain ⟨marks', h'⟩ := ih
    exact h'.step hstep

end Crew

end Nlp
