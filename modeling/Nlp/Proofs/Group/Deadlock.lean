import Nlp.Proofs.Group.Collectives

/-!
# Collectives never get stuck

A crew is stuck where some rank is at work, every rank at work waits with nothing to take in, and
whoever unwinds has told all its peers.  No crew that carries out transfers comes there, whoever
unwinds, and at whatever point.

To unwind takes a rank several steps here, one for each peer it tells, and the others go on in
between.  While a rank is at it, those at work may all be waiting, but there is still one that goes
on; where no rank is at it, not all of those at work are waiting.

Two arguments meet.  As long as nobody has unwound the crew follows its plan, and of the ranks at
work one is at the earliest transfer.  Once a rank has begun to unwind, every other rank is still to
be told, or has left, or finds the news in its mailbox; a rank that leaves its calls after a fault
takes nothing of this away, because news that has come to a mailbox stay there.

## Main definitions

* `Crew.Stuck`: nobody at work can go on, and nobody will be told anything more.
* `Network.Alarmed`, `Crew.Warned`: a rank has left or is told of a peer that has unwound; all ranks
  are, or will be.

## Main results

* `Crew.Warned.step`: one step of any crew keeps the warning.
* `Crew.calm_or_warned`: a run is one without unwinding, or its ranks are warned.
* `Crew.not_all_blocked`: where nobody is at telling its peers, not all ranks at work are blocked.
* `Crew.never_stuck`: no crew that carries out transfers is stuck, and one nobody of which unwinds
  loses no message and leaves none behind.
-/

namespace Nlp

variable {σ ρ : Type} {rules : Crew.Rules σ ρ} {crew crew' : Crew σ ρ} {net net' : Network}
  {me r : Rank}

/-- The rank has left, or a peer that has unwound is known in its mailbox or said to have in its
inbox. -/
def Network.Alarmed (net : Network) (r : Rank) : Prop :=
  ∀ b, net.mailbox? r = some b → ¬ b.IsCalm

namespace Network

variable {b left : Mailbox}

theorem Alarmed.put (hbox : net.mailbox? me = some b) (hleft : ¬ b.IsCalm → ¬ left.IsCalm)
    (h : net.Alarmed r) : (net.put me (some left)).Alarmed r := by
  intro b' hb'
  rw [mailbox?_put_of_some hbox] at hb'
  split at hb'
  · next hr =>
    subst hr
    obtain rfl := Option.some.inj hb'
    exact hleft (h b hbox)
  · exact h b' hb'

theorem Alarmed.send {p : Packet} {dest : Rank} (h : net.Alarmed r) :
    (net.send dest p).2.Alarmed r := by
  intro b' hb'
  rw [mailbox?_send] at hb'
  split at hb'
  · obtain ⟨b, hb, rfl⟩ := Option.map_eq_some_iff.mp hb'
    exact fun hcalm => h b hb ⟨hcalm.1, fun peer hp => hcalm.2 peer (List.mem_append_left _ hp)⟩
  · exact h b' hb'

/-- Who is told is warned. -/
theorem alarmed_send_down (net : Network) (me dest : Rank) :
    (net.send dest (.down me)).2.Alarmed dest := by
  intro b' hb' hcalm
  rw [mailbox?_send, if_pos rfl] at hb'
  obtain ⟨b, -, rfl⟩ := Option.map_eq_some_iff.mp hb'
  exact hcalm.2 me (List.mem_append_right _ (List.mem_singleton_self _))

theorem Alarmed.leave (h : net.Alarmed r) : (net.leave me).Alarmed r := by
  intro b' hb'
  rw [mailbox?_leave] at hb'
  split at hb'
  · cases hb'
  · exact h b' hb'

end Network

/-- A step takes no news out of a mailbox for good. -/
theorem Hand.Step.alarmed {alone : Prop} {hand hand' : Hand σ ρ}
    (hstep : Hand.Step rules alone me hand net hand' net') (h : net.Alarmed r) :
    net'.Alarmed r := by
  cases hstep with
  | model | panic | lost | hungUp | proceed | giveUp | unwind | unwindAfter | told => exact h
  | send | tell => exact h.send
  | message hbox hlook => exact h.put hbox (mt (Mailbox.isCalm_of_look (.inl hlook)))
  | early hbox hlook => exact h.put hbox (mt (Mailbox.isCalm_of_look (.inr hlook)))
  | down hbox hlook => exact h.put hbox fun _ => Mailbox.not_isCalm_of_look_down hlook
  | leave => exact h.leave

/-- The rank has ended its jobs by unwinding, or is past the end of them. -/
theorem Hand.Step.not_isWorking {alone : Prop} {hand hand' : Hand σ ρ}
    (hstep : Hand.Step rules alone me hand net hand' net') (h : ¬ hand.IsWorking) :
    ¬ hand'.IsWorking := by
  cases hstep with
  | tell | told | leave => exact fun ⟨_, _, hstage⟩ => nomatch hstage
  | model | panic | send | message | early | down | lost | hungUp | proceed | giveUp | unwind
  | unwindAfter => exact absurd ⟨_, _, rfl⟩ h

/-- The rank `lost` has unwound, and every other is still to be told by it, or has left, or is
told. -/
def Hand.Heralds (size : Nat) (lost : Rank) (hand : Hand σ ρ) (net : Network) : Prop :=
  ¬ hand.IsWorking ∧ ∀ r < size, r ≠ lost →
    (∃ untold, hand.stage = .unwinding untold ∧ r ∈ untold) ∨ net.Alarmed r

namespace Hand

variable {hand hand' : Hand σ ρ} {lost : Rank} {alone : Prop}

/-- A rank that begins to unwind is to tell all others. -/
theorem heralds_of_unwinding {size : Nat}
    (hstage : hand.stage = .unwinding (Place.peers ⟨me, size⟩)) : hand.Heralds size me net := by
  refine ⟨?_, fun r hr hne => .inl ⟨_, hstage, Place.mem_peers.mpr ⟨hr, hne⟩⟩⟩
  rintro ⟨program, todo, hworking⟩
  rw [hstage] at hworking
  nomatch hworking

/-- Whoever is still to be told is told in the end. -/
theorem Heralds.step (h : hand.Heralds rules.size me net)
    (hstep : Hand.Step rules alone me hand net hand' net') : hand'.Heralds rules.size me net' := by
  refine ⟨hstep.not_isWorking h.1, fun r hr hne => ?_⟩
  -- a rank that unwinds tells one peer after another, and nothing else
  rcases h.2 r hr hne with ⟨untold, hstage, hmem⟩ | halarmed
  · obtain ⟨s, past, stage⟩ := hand
    obtain rfl : stage = .unwinding untold := hstage
    cases hstep with
    | told => cases hmem
    | tell =>
      rcases List.mem_cons.mp hmem with rfl | hmem
      · exact .inr (Network.alarmed_send_down _ _ _)
      · exact .inl ⟨_, rfl, hmem⟩
  · exact .inr (hstep.alarmed halarmed)

/-- The steps of the others leave it so. -/
theorem Heralds.other {peer peer' : Hand σ ρ} (h : hand.Heralds rules.size lost net)
    (hstep : Hand.Step rules alone me peer net peer' net') : hand.Heralds rules.size lost net' :=
  ⟨h.1, fun r hr hne => (h.2 r hr hne).imp_right hstep.alarmed⟩

end Hand

namespace Crew

/-- Some rank has unwound, and every other is still to be told, or has left, or is told. -/
def Warned (size : Nat) (crew : Crew σ ρ) : Prop :=
  ∃ lost < size, (crew.hands lost).Heralds size lost crew.network

/-- Some rank is at work, every rank at work is blocked, and whoever unwinds has told all its
peers.  The last is part of it because a rank with a peer still to tell can go on, and what it sends
may be what the others wait for: with every other rank blocked the crew is not stuck yet. -/
structure Stuck (size : Nat) (crew : Crew σ ρ) : Prop where
  working : ∃ r < size, (crew.hands r).IsWorking
  blocked : ∀ r < size, (crew.hands r).IsWorking → crew.IsBlocked r
  told : ∀ r < size, ∀ untold, (crew.hands r).stage = .unwinding untold → untold = []

/-- A rank that begins to unwind warns the others. -/
theorem warned_of_unwinding {hand : Hand σ ρ} (hme : me < rules.size)
    (hstage : hand.stage = .unwinding (Place.peers ⟨me, rules.size⟩)) :
    Warned rules.size ⟨Function.update crew.hands me hand, net⟩ := by
  refine ⟨me, hme, ?_⟩
  show (Function.update crew.hands me hand me).Heralds _ _ _
  rw [Function.update_self]
  exact Hand.heralds_of_unwinding hstage

/-- A step keeps the warning. -/
theorem Warned.step (h : crew.Warned rules.size) (hstep : Step rules crew crew') :
    crew'.Warned rules.size := by
  obtain ⟨lost, hlost, hheralds⟩ := h
  obtain ⟨me, hme, hand, net, hstep, rfl⟩ := hstep
  refine ⟨lost, hlost, ?_⟩
  show (Function.update crew.hands me hand lost).Heralds _ _ _
  by_cases hmine : lost = me
  · subst hmine
    rw [Function.update_self]
    exact hheralds.step hstep
  · rw [Function.update_of_ne hmine]
    exact hheralds.other hstep

/-- Warned ranks are not stuck: whoever is at work finds the news. -/
theorem Warned.not_stuck {size : Nat} (h : crew.Warned size) : ¬ crew.Stuck size := by
  intro hstuck
  obtain ⟨lost, hlost, hworking, hwarned⟩ := h
  obtain ⟨r, hr, hr'⟩ := hstuck.working
  have hne : r ≠ lost := fun heq => hworking (heq ▸ hr')
  obtain ⟨w, next, todo, b, -, hbox, hlook⟩ := hstuck.blocked r hr hr'
  rcases hwarned r hr hne with ⟨untold, hstage, hmem⟩ | halarmed
  · rw [hstuck.told lost hlost untold hstage] at hmem
    nomatch hmem
  · exact halarmed b hbox (Mailbox.isCalm_of_look_nothing hlook)

/-- The rules without unwinding. -/
def Rules.calm (rules : Rules σ ρ) : Rules σ ρ :=
  { rules with faulty := False }

/-- A step is one without unwinding, or warns the ranks. -/
theorem Step.calm_or_warned (hstep : Step rules crew crew') :
    Step rules.calm crew crew' ∨ crew'.Warned rules.size := by
  obtain ⟨me, hme, hand, net, hstep, rfl⟩ := hstep
  have hgo : ∀ {hand net}, Hand.Step rules.calm (crew.IsAlone rules.calm.size me) me
      (crew.hands me) crew.network hand net →
        Step rules.calm crew ⟨Function.update crew.hands me hand, net⟩ :=
    fun hstep => ⟨me, hme, _, _, hstep, rfl⟩
  cases hhand : crew.hands me with
  | mk s past stage =>
  rw [hhand] at hstep hgo
  -- the same step can be taken where no rank unwinds, unless it is the one that begins to
  cases hstep with
  | model hreply => exact .inl (hgo (.model hreply))
  | panic hreply => exact .inr (warned_of_unwinding hme rfl)
  | send => exact .inl (hgo .send)
  | message hbox hlook => exact .inl (hgo (.message hbox hlook))
  | early hbox hlook => exact .inl (hgo (.early hbox hlook))
  | down hbox hlook => exact .inl (hgo (.down hbox hlook))
  | lost hbox hlook => exact .inl (hgo (.lost hbox hlook))
  | hungUp hbox hlook halone => exact .inl (hgo (.hungUp hbox hlook halone))
  | proceed => exact .inl (hgo .proceed)
  | giveUp hr => exact .inl (hgo (.giveUp hr))
  | unwind => exact .inr (warned_of_unwinding hme rfl)
  | unwindAfter => exact .inr (warned_of_unwinding hme rfl)
  | tell => exact .inl (hgo .tell)
  | told => exact .inl (hgo .told)
  | leave => exact .inl (hgo .leave)

/-- A run is one without unwinding, or its ranks are warned. -/
theorem calm_or_warned (h : Reaches rules crew crew') :
    Reaches rules.calm crew crew' ∨ crew'.Warned rules.size := by
  -- a warning lasts, so the first rank to unwind decides
  induction h with
  | refl => exact .inl .refl
  | tail _ hstep ih =>
    rcases ih with hcalm | hwarned
    · exact hstep.calm_or_warned.imp_left hcalm.tail
    · exact .inr (hwarned.step hstep)

/-- A consistent crew nobody of which unwinds is not stuck. -/
theorem Consistent.not_stuck {plan : Plan σ} {givesUp : ρ → Prop}
    {expected : Rank → List (ρ → Prop)} {marks : Rank → Mark}
    (h : Consistent plan givesUp expected marks crew) (hcalm : ¬ plan.faulty) :
    ¬ crew.Stuck plan.size := by
  intro hstuck
  obtain ⟨r, hr, hworking⟩ := hstuck.working
  obtain ⟨r', hr', hworking', hready⟩ := h.exists_not_blocked hcalm hr hworking
  exact hready (hstuck.blocked r' hr' hworking')

/-- A crew that is not stuck goes on until all ranks have left, whether ranks may unwind or not. -/
theorem step_of_not_stuck (hpresent : ∀ r < rules.size, crew.network.mailbox? r = none →
      (crew.hands r).stage = .gone) (hstuck : ¬ crew.Stuck rules.size) (hme : me < rules.size)
    (hstage : (crew.hands me).stage ≠ .gone) : ∃ crew', Step rules crew crew' := by
  -- a rank at work that is not blocked goes on, or else one that has somebody to tell
  by_cases hworking : (crew.hands me).IsWorking
  · by_cases hready : ∃ r < rules.size, (crew.hands r).IsWorking ∧ ¬ crew.IsBlocked r
    · obtain ⟨r, hr, hworking, hready⟩ := hready
      exact step_of_not_blocked hr (hpresent r hr) hworking hready
    by_cases htold : ∃ r < rules.size, ∃ untold,
        (crew.hands r).stage = .unwinding untold ∧ untold ≠ []
    · obtain ⟨r, hr, untold, hunwinding, -⟩ := htold
      refine step_of_not_working hr ?_ ?_
      · rintro ⟨program, todo, hworking⟩
        rw [hunwinding] at hworking
        nomatch hworking
      · rw [hunwinding]
        exact nofun
    · push Not at hready htold
      exact absurd ⟨⟨me, hme, hworking⟩, hready, htold⟩ hstuck
  · exact step_of_not_working hme hworking hstage

/-! ## Crews that carry out transfers -/

variable {size : Nat} {transfers : List Transfer} {crew : Crew Unit (Except CommFault Delivery)}

/-- A crew that carries out transfers does not come to where it is stuck, whoever unwinds. -/
theorem not_stuck_of_reaches (hroots : ∀ t ∈ transfers, t.root < size)
    (h : Reaches (Transfer.rules size True) (carryingOut size transfers) crew) :
    ¬ crew.Stuck size := by
  -- a group that has been warned is not stuck; one in which nobody unwinds keeps to its plan
  rcases calm_or_warned h with hcalm | hwarned
  · obtain ⟨marks, hconsistent⟩ := consistent_of_reaches hroots hcalm
    exact hconsistent.not_stuck id
  · exact hwarned.not_stuck

/-- Where nobody is in the middle of telling its peers that it unwinds, the ranks at work do not all
wait for each other: one of them has something to take in, or something else to do. -/
theorem not_all_blocked (hroots : ∀ t ∈ transfers, t.root < size)
    (h : Reaches (Transfer.rules size True) (carryingOut size transfers) crew)
    (htold : ∀ r < size, ∀ untold, (crew.hands r).stage = .unwinding untold → untold = []) :
    ¬ ((∃ r < size, (crew.hands r).IsWorking) ∧
      ∀ r < size, (crew.hands r).IsWorking → crew.IsBlocked r) :=
  fun ⟨hworking, hblocked⟩ => not_stuck_of_reaches hroots h ⟨hworking, hblocked, htold⟩

/-- The collectives of a group never get stuck.  Whoever unwinds, and whoever leaves its calls after
a fault, a crew with a rank at work has one that can go on, or one that is still telling its peers;
so it comes to its end without anybody else unwinding.  Where nobody unwinds, every message that is
sent arrives, and the mailbox of a rank that has made all its calls is empty until it leaves. -/
theorem never_stuck (hroots : ∀ t ∈ transfers, t.root < size) :
    (∀ crew, Reaches (Transfer.rules size True) (carryingOut size transfers) crew →
      ¬ crew.Stuck size ∧
        ((∀ next, ¬ Step (Transfer.rules size False) crew next) →
          ∀ r < size, (crew.hands r).stage = .gone)) ∧
    ∀ crew, Reaches (Transfer.rules size False) (carryingOut size transfers) crew →
      ∀ r < size,
        (∀ dest m next todo, (crew.hands r).stage = .working (.call (.send dest m) next) todo →
          (crew.network.send dest (.message m)).1 = true) ∧
        ((crew.hands r).IsSilent → crew.network.mailbox? r = some .empty ∨
          (crew.hands r).stage = .gone ∧ crew.network.mailbox? r = none) := by
  refine ⟨fun crew h => ?_, fun crew h r hr => ?_⟩
  · have hstuck := not_stuck_of_reaches hroots h
    refine ⟨hstuck, fun hend r hr => ?_⟩
    obtain ⟨marks, hconsistent⟩ := consistent_of_reaches hroots h
    by_contra hstage
    have hgoes : ∃ next, Step (Transfer.rules size False) crew next :=
      step_of_not_stuck hconsistent.present hstuck hr hstage
    obtain ⟨next, hstep⟩ := hgoes
    exact hend next hstep
  · obtain ⟨marks, hconsistent⟩ := consistent_of_reaches hroots h
    refine ⟨fun dest m next todo hstage => ?_, fun hsilent => ?_⟩
    · obtain ⟨b, hbox⟩ := hconsistent.exists_mailbox_of_send id hr hstage
      rw [Network.send_of_some _ hbox]
    · cases hbox : crew.network.mailbox? r with
      | none => exact .inr ⟨hconsistent.present r hr hbox, rfl⟩
      | some b => exact .inl (congrArg some (hconsistent.mailbox_eq_empty hr id hsilent hbox))

/-- Rank 0 of two unwinds before its broadcast and tells rank 1, which waits for it. -/
theorem pair_never_stuck :
    ∃ crew, Reaches (Transfer.rules 2 True)
        (carryingOut 2 [⟨.broadcast, 0, fun _ => [7]⟩, ⟨.gather, 1, fun r => [UInt8.ofNat r]⟩])
        crew ∧
      (crew.hands 0).stage = .unwinding [] ∧ (crew.hands 1).IsWorking ∧ ¬ crew.Stuck 2 := by
  let start := carryingOut 2 [⟨.broadcast, 0, fun _ => [7]⟩, ⟨.gather, 1, fun r => [UInt8.ofNat r]⟩]
  let unwinding : Crew Unit (Except CommFault Delivery) :=
    ⟨Function.update start.hands 0 ⟨(), [], .unwinding [1]⟩, start.network⟩
  have hunwind : Step (Transfer.rules 2 True) start unwinding :=
    ⟨0, by decide, _, _, .unwind trivial, rfl⟩
  have htell : Step (Transfer.rules 2 True) unwinding
      ⟨Function.update unwinding.hands 0 ⟨(), [], .unwinding []⟩,
        (start.network.send 1 (.down 0)).2⟩ :=
    ⟨0, by decide, _, _, .tell, rfl⟩
  have hreaches := Relation.ReflTransGen.tail (.single hunwind) htell
  exact ⟨_, hreaches, rfl, ⟨_, _, rfl⟩, ((never_stuck (by simp)).1 _ hreaches).1⟩

end Crew

end Nlp
