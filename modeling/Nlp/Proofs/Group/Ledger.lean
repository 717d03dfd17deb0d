import Nlp.Proofs.Group.Conformance

/-!
# Marks and mailboxes

The marks of the ranks account for every message: what is in a mailbox has been sent and not been
taken, each message once, and, where nobody unwinds, what has been sent and not been taken is in
the mailbox.

## Main definitions

* `Ledger`: the invariant that ties the marks to the network.

## Main results

* `Ledger.pass`, `Ledger.send`, `Ledger.take`, `Ledger.leave`: what the ranks do keeps it.
-/

namespace Nlp

variable {σ : Type} {plan : Plan σ} {marks : Rank → Mark} {net : Network} {me dest r : Rank}
  {m : Message} {b left : Mailbox} {t : Transfer}

namespace Network

theorem holds_put (hbox : net.mailbox? me = some b) :
    (net.put me (some left)).Holds r m ↔ if r = me then m ∈ left.messages else net.Holds r m := by
  unfold Holds
  rw [mailbox?_put_of_some hbox]
  split <;> simp

theorem holds_leave : (net.leave me).Holds r m ↔ r ≠ me ∧ net.Holds r m := by
  unfold Holds
  rw [mailbox?_leave]
  split <;> simp [*]

/-- A mailbox that is delivered a message holds it, too. -/
theorem holds_deliver {m' : Message} (hbox : net.mailbox? dest = some b) :
    (net.put dest (some (b.deliver (.message m')))).Holds r m ↔
      net.Holds r m ∨ r = dest ∧ m = m' := by
  rw [holds_put hbox]
  split
  · next hr =>
    subst hr
    simp [Holds, hbox]
  · next hr => simp [hr]

/-- A mailbox from which a message is taken, and that held it once, holds the others. -/
theorem holds_take {m' : Message} {before after : List Message} (hbox : net.mailbox? me = some b)
    (hb : b.messages = before ++ m' :: after) (hleft : left.messages = before ++ after)
    (honce : b.messages.Nodup) :
    (net.put me (some left)).Holds r m ↔ net.Holds r m ∧ ¬ (r = me ∧ m = m') := by
  rw [holds_put hbox]
  split
  · next hr =>
    subst hr
    have hm' : m' ∉ before ++ after := (List.nodup_middle.mp (hb ▸ honce)).notMem
    simp only [Holds, hbox, Option.some.injEq, exists_eq_left', hb, hleft, true_and,
      List.mem_append, List.mem_cons] at hm' ⊢
    constructor
    · intro hin
      refine ⟨hin.imp_right .inr, ?_⟩
      rintro rfl
      exact hm' hin
    · rintro ⟨hin | rfl | hin, hne⟩
      · exact .inl hin
      · exact absurd rfl hne
      · exact .inr hin
  · next hr => simp [hr]

/-- What holds of all mailboxes and of the one that is put holds of all mailboxes then. -/
theorem forall_put {good : Mailbox → Prop} (hbox : net.mailbox? me = some b)
    (hall : ∀ r b, net.mailbox? r = some b → good b) (hleft : good left) :
    ∀ r b, (net.put me (some left)).mailbox? r = some b → good b := by
  intro r b' hb'
  rw [mailbox?_put_of_some hbox] at hb'
  split at hb'
  · obtain rfl := Option.some.inj hb'
    exact hleft
  · exact hall r b' hb'

end Network

/-- The message is the one its sender has to send the rank in the transfer of its position. -/
def Plan.Genuine (plan : Plan σ) (r : Rank) (m : Message) : Prop :=
  ∃ t, plan.transfers[m.sequence]? = some t ∧ t.Carries plan.size m.source r ∧
    m = t.message m.source m.sequence

/-- Genuine messages are known by their sender and their position. -/
theorem Plan.Genuine.eq {m' : Message} (h : plan.Genuine r m) (h' : plan.Genuine r m')
    (hsource : m.source = m'.source) (hsequence : m.sequence = m'.sequence) : m = m' := by
  obtain ⟨t, ht, -, hm⟩ := h
  obtain ⟨t', ht', -, hm'⟩ := h'
  obtain rfl : t = t' := Option.some.inj (ht.symm.trans (hsequence ▸ ht'))
  rw [hm, hm', hsource, hsequence]

/-- The marks account for the messages.  A message in a mailbox is genuine and there once, its
sender has sent it, and it has not been taken; who has been met as a sender has sent.  Where nobody
unwinds, nobody is said to have, what has been sent and not been taken is in the mailbox, and what
has been taken or passed has been sent. -/
structure Ledger (plan : Plan σ) (marks : Rank → Mark) (net : Network) : Prop where
  genuine : ∀ r m, net.Holds r m → plan.Genuine r m
  once : ∀ r b, net.mailbox? r = some b → b.messages.Nodup
  sent : ∀ r m, net.Holds r m → (marks m.source).Passed m.sequence r
  untaken : ∀ r m, net.Holds r m → m.sequence = (marks r).count → m.source ∉ (marks r).met
  taken : ∀ r t, plan.Current (marks r) t → ∀ s ∈ (marks r).met, t.Carries plan.size s r →
    (marks s).Passed (marks r).count r
  quiet : ¬ plan.faulty → ∀ r b, net.mailbox? r = some b → b.IsCalm
  delivered : ¬ plan.faulty → ∀ q t, plan.transfers[q]? = some t → ∀ s r,
    t.Carries plan.size s r → (marks s).Passed q r →
      net.Holds r (t.message s q) ∨ (marks r).Passed q s
  fresh : ¬ plan.faulty → ∀ r m, net.Holds r m → ¬ (marks r).Passed m.sequence m.source
  causal : ¬ plan.faulty → ∀ q t, plan.transfers[q]? = some t → ∀ s r,
    t.Carries plan.size s r → (marks r).Passed q s → (marks s).Passed q r

namespace Ledger

theorem passed_of_same {count q : Nat} {peer other : Rank}
    (h : (⟨count, []⟩ : Mark).Passed q peer) : (⟨count, []⟩ : Mark).Passed q other := by
  rcases h with h | ⟨-, h⟩
  · exact .inl h
  · nomatch h

/-- Where nothing has been sent, all ranks may be at the same transfer. -/
theorem new (plan : Plan σ) (count : Nat) :
    Ledger plan (fun _ => ⟨count, []⟩) (.new plan.size) := by
  constructor
  case genuine => exact fun r m hm => absurd hm Network.not_holds_new
  case once =>
    intro r b hbox
    have hnil : b.messages = [] :=
      List.eq_nil_iff_forall_not_mem.mpr fun m hm => Network.not_holds_new ⟨b, hbox, hm⟩
    rw [hnil]
    exact List.nodup_nil
  case sent => exact fun r m hm => absurd hm Network.not_holds_new
  case untaken => exact fun r m hm => absurd hm Network.not_holds_new
  case taken => exact fun r t _ s hs => nomatch hs
  case quiet => exact fun _ r b hbox => Network.isCalm_of_new hbox
  case delivered => exact fun _ q t _ s r _ hpassed => .inr (passed_of_same hpassed)
  case fresh => exact fun _ r m hm => absurd hm Network.not_holds_new
  case causal => exact fun _ q t _ s r _ hpassed => passed_of_same hpassed

/-- Passing and meeting only ever add to what has been passed. -/
theorem passed_update {mark : Mark} {q : Nat} {peer : Rank}
    (hmono : ∀ q peer, (marks me).Passed q peer → mark.Passed q peer)
    (h : (marks r).Passed q peer) : (Function.update marks me mark r).Passed q peer := by
  by_cases hr : r = me
  · subst hr
    rw [Function.update_self]
    exact hmono q peer h
  · rwa [Function.update_of_ne hr]

theorem passed_pass_of_passed {mark : Mark} (q : Nat) (peer : Rank) (h : mark.Passed q peer) :
    mark.pass.Passed q peer :=
  Mark.passed_pass.mpr h.le

theorem passed_meet_of_passed {mark : Mark} (source : Rank) (q : Nat) (peer : Rank)
    (h : mark.Passed q peer) : (mark.meet source).Passed q peer :=
  Mark.passed_meet.mpr (.inl h)

section

variable {source peer s : Rank} {q : Nat}

theorem passed_meet_update (h : (marks r).Passed q peer) :
    (Function.update marks me ((marks me).meet source) r).Passed q peer :=
  passed_update (passed_meet_of_passed source) h

theorem passed_update_meet
    (h : (Function.update marks me ((marks me).meet source) r).Passed q peer) :
    (marks r).Passed q peer ∨ r = me ∧ q = (marks me).count ∧ peer = source := by
  by_cases hr : r = me
  · subst hr
    rw [Function.update_self] at h
    exact (Mark.passed_meet.mp h).imp_right fun hnew => ⟨rfl, hnew⟩
  · rw [Function.update_of_ne hr] at h
    exact .inl h

theorem count_update_meet :
    (Function.update marks me ((marks me).meet source) r).count = (marks r).count := by
  by_cases hr : r = me
  · subst hr
    rw [Function.update_self]
    rfl
  · rw [Function.update_of_ne hr]

theorem mem_update_meet (h : s ∈ (Function.update marks me ((marks me).meet source) r).met) :
    s ∈ (marks r).met ∨ r = me ∧ s = source := by
  by_cases hr : r = me
  · subst hr
    rw [Function.update_self] at h
    exact (List.mem_cons.mp h).symm.imp_right fun hnew => ⟨rfl, hnew⟩
  · rw [Function.update_of_ne hr] at h
    exact .inl h

end

/-- A rank passes the transfer at its mark. -/
theorem pass (h : Ledger plan marks net) {mark : Mark} (hpass : plan.Advance me (marks me) mark) :
    Ledger plan (Function.update marks me mark) net := by
  obtain ⟨rfl, t, ht, hall⟩ := hpass
  have hmono : ∀ {r q peer}, (marks r).Passed q peer →
      (Function.update marks me (marks me).pass r).Passed q peer :=
    passed_update passed_pass_of_passed
  -- nothing is passed anew with a peer that has something to exchange
  have hnew : ¬ plan.faulty → ∀ q t' peer, plan.transfers[q]? = some t' →
      (t'.Carries plan.size me peer ∨ t'.Carries plan.size peer me) →
        (marks me).pass.Passed q peer → (marks me).Passed q peer := by
    intro hcalm q t' peer ht' hcarries hpassed
    rcases (Mark.passed_pass.mp hpassed).lt_or_eq with hlt | rfl
    · exact .inl hlt
    · obtain rfl : t = t' := Option.some.inj (ht.symm.trans ht')
      exact .inr ⟨rfl, hall hcalm peer hcarries⟩
  constructor
  case genuine => exact h.genuine
  case once => exact h.once
  case sent => exact fun r m hm => hmono (h.sent r m hm)
  case untaken =>
    intro r m hm hcount
    by_cases hr : r = me
    · subst hr
      simp [Mark.pass]
    · rw [Function.update_of_ne hr] at hcount ⊢
      exact h.untaken r m hm hcount
  case taken =>
    intro r t' ht' s hs hcarries
    by_cases hr : r = me
    · subst hr
      simp [Mark.pass] at hs
    · rw [Function.update_of_ne hr] at ht' hs ⊢
      exact hmono (h.taken r t' ht' s hs hcarries)
  case quiet => exact h.quiet
  case delivered =>
    intro hcalm q t' ht' s r hcarries hpassed
    have hold : (marks s).Passed q r := by
      by_cases hs : s = me
      · subst hs
        rw [Function.update_self] at hpassed
        exact hnew hcalm q t' r ht' (.inl hcarries) hpassed
      · rwa [Function.update_of_ne hs] at hpassed
    exact (h.delivered hcalm q t' ht' s r hcarries hold).imp_right hmono
  case fresh =>
    intro hcalm r m hm hpassed
    refine h.fresh hcalm r m hm ?_
    by_cases hr : r = me
    · subst hr
      rw [Function.update_self] at hpassed
      obtain ⟨t', ht', hcarries, -⟩ := h.genuine r m hm
      exact hnew hcalm _ t' _ ht' (.inr hcarries) hpassed
    · rwa [Function.update_of_ne hr] at hpassed
  case causal =>
    intro hcalm q t' ht' s r hcarries hpassed
    refine hmono (h.causal hcalm q t' ht' s r hcarries ?_)
    by_cases hr : r = me
    · subst hr
      rw [Function.update_self] at hpassed
      exact hnew hcalm q t' s ht' (.inr hcarries) hpassed
    · rwa [Function.update_of_ne hr] at hpassed

/-- A rank sends a peer its message of the current transfer. -/
theorem send (h : Ledger plan marks net) (ht : plan.Current (marks me) t)
    (hcarries : t.Carries plan.size me dest) (hmet : dest ∉ (marks me).met)
    (hbox : net.mailbox? dest = some b) :
    Ledger plan (Function.update marks me ((marks me).meet dest))
      (net.put dest (some (b.deliver (.message (t.message me (marks me).count))))) := by
  have hunsent : ¬ (marks me).Passed (marks me).count dest := mt Mark.passed_count.mp hmet
  -- a sender awaits nothing in the same transfer
  have hreceives : ∀ q t' other, plan.transfers[q]? = some t' → q = (marks me).count →
      ¬ t'.Carries plan.size other me := by
    rintro q t' other ht' rfl
    obtain rfl : t = t' := Option.some.inj (ht.symm.trans ht')
    exact hcarries.not_carries
  have hholds : ∀ {r m}, (net.put dest (some (b.deliver
      (.message (t.message me (marks me).count))))).Holds r m ↔
        net.Holds r m ∨ r = dest ∧ m = t.message me (marks me).count :=
    Network.holds_deliver hbox
  constructor
  case genuine =>
    intro r m hm
    rcases hholds.mp hm with hm | ⟨rfl, rfl⟩
    · exact h.genuine r m hm
    · exact ⟨t, ht, hcarries, rfl⟩
  case once =>
    refine Network.forall_put hbox h.once ?_
    rw [Mailbox.messages_deliver_message]
    refine (h.once dest b hbox).append (List.nodup_singleton _) ?_
    rintro m hm hnew
    obtain rfl := List.mem_singleton.mp hnew
    exact hunsent (h.sent dest _ ⟨b, hbox, hm⟩)
  case sent =>
    intro r m hm
    rcases hholds.mp hm with hm | ⟨rfl, rfl⟩
    · exact passed_meet_update (h.sent r m hm)
    · show (Function.update marks me _ me).Passed _ _
      rw [Function.update_self]
      exact Mark.passed_meet.mpr (.inr ⟨rfl, rfl⟩)
  case untaken =>
    intro r m hm hsequence hsource
    rw [count_update_meet] at hsequence
    rcases hholds.mp hm with hold | ⟨rfl, rfl⟩
    · rcases mem_update_meet hsource with hsource | ⟨rfl, -⟩
      · exact h.untaken r m hold hsequence hsource
      · obtain ⟨t', ht', hcarries', -⟩ := h.genuine r m hold
        exact hreceives _ t' _ ht' hsequence hcarries'
    -- the new message: its receiver would have taken what was never sent
    · rcases mem_update_meet hsource with hsource | ⟨rfl, -⟩
      · have hcurrent : plan.Current (marks r) t := by
          rw [Plan.Current, ← hsequence]
          exact ht
        have htaken := h.taken r t hcurrent me hsource hcarries
        rw [← hsequence] at htaken
        exact hunsent htaken
      · exact hcarries.2.2.1 rfl
  case taken =>
    intro r t' ht' s hs hcarries'
    rw [Plan.Current, count_update_meet] at ht'
    rw [count_update_meet]
    rcases mem_update_meet hs with hs | ⟨rfl, rfl⟩
    · exact passed_meet_update (h.taken r t' ht' s hs hcarries')
    · exact absurd hcarries' (hreceives _ t' _ ht' rfl)
  case quiet =>
    exact fun hcalm =>
      Network.forall_put hbox (h.quiet hcalm) ((h.quiet hcalm dest b hbox).deliver _)
  case delivered =>
    intro hcalm q t' ht' s r hcarries' hpassed
    rcases passed_update_meet hpassed with hpassed | ⟨rfl, rfl, rfl⟩
    · exact (h.delivered hcalm q t' ht' s r hcarries' hpassed).imp
        (fun hm => hholds.mpr (.inl hm)) passed_meet_update
    · obtain rfl : t = t' := Option.some.inj (ht.symm.trans ht')
      exact .inl (hholds.mpr (.inr ⟨rfl, rfl⟩))
  case fresh =>
    intro hcalm r m hm hpassed
    rcases hholds.mp hm with hold | ⟨rfl, rfl⟩
    · rcases passed_update_meet hpassed with hpassed | ⟨rfl, hsequence, -⟩
      · exact h.fresh hcalm r m hold hpassed
      · obtain ⟨t', ht', hcarries', -⟩ := h.genuine r m hold
        exact hreceives _ t' _ ht' hsequence hcarries'
    -- the new message: nobody is ahead of a rank that has yet to send
    · rcases passed_update_meet hpassed with hpassed | ⟨rfl, -, -⟩
      · exact hunsent (h.causal hcalm _ t ht me r hcarries hpassed)
      · exact hcarries.2.2.1 rfl
  case causal =>
    intro hcalm q t' ht' s r hcarries' hpassed
    rcases passed_update_meet hpassed with hpassed | ⟨rfl, hq, -⟩
    · exact passed_meet_update (h.causal hcalm q t' ht' s r hcarries' hpassed)
    · exact absurd hcarries' (hreceives q t' _ ht' hq)

/-- A rank takes the message of a peer in the transfer at its mark. -/
theorem take (h : Ledger plan marks net) (hbox : net.mailbox? me = some b)
    (hmessages : ∃ before after, b.messages = before ++ m :: after ∧
      left.messages = before ++ after)
    (hquiet : b.IsCalm → left.IsCalm) (hsequence : m.sequence = (marks me).count) :
    Ledger plan (Function.update marks me ((marks me).meet m.source))
      (net.put me (some left)) := by
  obtain ⟨before, after, hb, hleft⟩ := hmessages
  have hheld : net.Holds me m := ⟨b, hbox, by simp [hb]⟩
  have hsent := h.sent me m hheld
  rw [hsequence] at hsent
  have hholds : ∀ {r m'}, (net.put me (some left)).Holds r m' ↔
      net.Holds r m' ∧ ¬ (r = me ∧ m' = m) :=
    Network.holds_take hbox hb hleft (h.once me b hbox)
  constructor
  case genuine => exact fun r m' hm => h.genuine r m' (hholds.mp hm).1
  case once =>
    have hnodup : (before ++ m :: after).Nodup := hb ▸ h.once me b hbox
    exact Network.forall_put hbox h.once (hleft ▸ (List.nodup_middle.mp hnodup).of_cons)
  case sent => exact fun r m' hm => passed_meet_update (h.sent r m' (hholds.mp hm).1)
  case untaken =>
    intro r m' hm hcount hsource
    rw [count_update_meet] at hcount
    obtain ⟨hold, hne⟩ := hholds.mp hm
    rcases mem_update_meet hsource with hsource | ⟨rfl, hsame⟩
    · exact h.untaken r m' hold hcount hsource
    -- a sender has one message for the rank in one transfer, and this one is taken
    · exact hne ⟨rfl, (h.genuine r m' hold).eq (h.genuine r m hheld) hsame
        (hcount.trans hsequence.symm)⟩
  case taken =>
    intro r t' ht' s hs hcarries'
    rw [Plan.Current, count_update_meet] at ht'
    rw [count_update_meet]
    rcases mem_update_meet hs with hs | ⟨rfl, rfl⟩
    · exact passed_meet_update (h.taken r t' ht' s hs hcarries')
    · exact passed_meet_update hsent
  case quiet =>
    exact fun hcalm => Network.forall_put hbox (h.quiet hcalm) (hquiet (h.quiet hcalm me b hbox))
  case delivered =>
    intro hcalm q t' ht' s r hcarries' hpassed
    rcases passed_update_meet hpassed with hpassed | ⟨rfl, rfl, rfl⟩
    · rcases h.delivered hcalm q t' ht' s r hcarries' hpassed with hm | hpassed
      -- it was in the mailbox: it still is, unless it is the one that is taken
      · by_cases hr : r = me ∧ t'.message s q = m
        · obtain ⟨rfl, rfl⟩ := hr
          rw [Function.update_self]
          exact .inr (Mark.passed_meet.mpr (.inr ⟨hsequence, rfl⟩))
        · exact .inl (hholds.mpr ⟨hm, hr⟩)
      · exact .inr (passed_meet_update hpassed)
    · -- who sends in this transfer takes nothing
      obtain ⟨t, ht, hcarries, -⟩ := h.genuine s m hheld
      rw [hsequence] at ht
      obtain rfl : t = t' := Option.some.inj (ht.symm.trans ht')
      exact absurd hcarries hcarries'.not_carries
  case fresh =>
    intro hcalm r m' hm hpassed
    obtain ⟨hold, hne⟩ := hholds.mp hm
    rcases passed_update_meet hpassed with hpassed | ⟨rfl, hcount, hsource⟩
    · exact h.fresh hcalm r m' hold hpassed
    · exact hne ⟨rfl, (h.genuine r m' hold).eq (h.genuine r m hheld) hsource
        (hcount.trans hsequence.symm)⟩
  case causal =>
    intro hcalm q t' ht' s r hcarries' hpassed
    rcases passed_update_meet hpassed with hpassed | ⟨rfl, rfl, rfl⟩
    · exact passed_meet_update (h.causal hcalm q t' ht' s r hcarries' hpassed)
    · exact passed_meet_update hsent

/-- A mailbox changes without its messages. -/
theorem rearrange (h : Ledger plan marks net) (hbox : net.mailbox? me = some b)
    (hmessages : left.messages = b.messages) (hquiet : ¬ plan.faulty → b.IsCalm → left.IsCalm) :
    Ledger plan marks (net.put me (some left)) := by
  -- the ledger is about messages, and those of the mailbox are the same as before
  have hholds : ∀ {r m}, (net.put me (some left)).Holds r m ↔ net.Holds r m := by
    intro r m
    rw [Network.holds_put hbox]
    split
    · next hr => simp [hr, Network.Holds, hbox, hmessages]
    · rfl
  constructor
  case genuine => exact fun r m hm => h.genuine r m (hholds.mp hm)
  case once => exact Network.forall_put hbox h.once (hmessages ▸ h.once me b hbox)
  case sent => exact fun r m hm => h.sent r m (hholds.mp hm)
  case untaken => exact fun r m hm => h.untaken r m (hholds.mp hm)
  case taken => exact h.taken
  case quiet =>
    exact fun hcalm =>
      Network.forall_put hbox (h.quiet hcalm) (hquiet hcalm (h.quiet hcalm me b hbox))
  case delivered =>
    exact fun hcalm q t ht s r hcarries hpassed =>
      (h.delivered hcalm q t ht s r hcarries hpassed).imp_left hholds.mpr
  case fresh => exact fun hcalm r m hm => h.fresh hcalm r m (hholds.mp hm)
  case causal => exact h.causal

/-- A rank that unwinds says so, which is no message. -/
theorem tell (h : Ledger plan marks net) (hfaulty : plan.faulty) :
    Ledger plan marks (net.send dest (.down me)).2 := by
  cases hbox : net.mailbox? dest with
  | some b =>
    rw [Network.send_of_some _ hbox]
    exact h.rearrange hbox (Mailbox.messages_deliver_down b me) fun hcalm => absurd hfaulty hcalm
  | none => rwa [Network.send_of_none _ hbox]

/-- A rank that has passed all transfers leaves, or any rank where ranks may unwind. -/
theorem leave (h : Ledger plan marks net)
    (hdone : ¬ plan.faulty → (marks me).count = plan.transfers.length) :
    Ledger plan marks (net.leave me) := by
  have hmailbox : ∀ {r b'}, (net.leave me).mailbox? r = some b' → net.mailbox? r = some b' := by
    intro r b' hb'
    rw [Network.mailbox?_leave] at hb'
    split at hb'
    · nomatch hb'
    · exact hb'
  constructor
  case genuine => exact fun r m hm => h.genuine r m (Network.holds_leave.mp hm).2
  case once => exact fun r b' hb' => h.once r b' (hmailbox hb')
  case sent => exact fun r m hm => h.sent r m (Network.holds_leave.mp hm).2
  case untaken => exact fun r m hm => h.untaken r m (Network.holds_leave.mp hm).2
  case taken => exact h.taken
  case quiet => exact fun hcalm r b' hb' => h.quiet hcalm r b' (hmailbox hb')
  case delivered =>
    intro hcalm q t ht s r hcarries hpassed
    -- what was sent to the rank that leaves is gone, but that rank has passed all transfers
    by_cases hr : r = me
    · subst hr
      have hlt : q < plan.transfers.length := (List.getElem?_eq_some_iff.mp ht).1
      exact .inr (.inl (hdone hcalm ▸ hlt))
    · exact (h.delivered hcalm q t ht s r hcarries hpassed).imp_left fun hm =>
        Network.holds_leave.mpr ⟨hr, hm⟩
  case fresh => exact fun hcalm r m hm => h.fresh hcalm r m (Network.holds_leave.mp hm).2
  case causal => exact h.causal

end Ledger

end Nlp
