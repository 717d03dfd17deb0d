import Nlp.Proofs.Group.Invariant

/-!
# No crew is stuck

Where nobody unwinds, a crew that follows its plan can go on until every rank has left.  A rank
that cannot go on waits for a message of a transfer whose sender is at an earlier transfer, and the
earliest of them can go on.

## Main definitions

* `Crew.IsBlocked`: a rank waits, and there is nothing it could take in.
* `Plan.Waits`: a rank waits for a message that has not come.

## Main results

* `Crew.step_of_not_blocked`: a rank at work that is not blocked can go on.
* `Crew.Consistent.waits_of_blocked`: a rank that is blocked waits for a message of its transfer.
* `Crew.Consistent.exists_not_blocked`: of the ranks at work one is not blocked.
* `Crew.Consistent.progress`: some rank can go on.
* `Crew.Consistent.of_stuck`: where no rank can, all have left with all their results.
-/

namespace Nlp

variable {σ ρ : Type} {plan : Plan σ} {givesUp : ρ → Prop} {expected : Rank → List (ρ → Prop)}
  {marks : Rank → Mark} {crew : Crew σ ρ} {me : Rank}

/-- The rank has not come to the end of its jobs. -/
def Hand.IsWorking (hand : Hand σ ρ) : Prop :=
  ∃ program todo, hand.stage = .working program todo

/-- The rank waits, and there is nothing it could take in: no message it waits for has been put
aside, it knows of no peer that has unwound, and its inbox is empty. -/
def Crew.IsBlocked (crew : Crew σ ρ) (me : Rank) : Prop :=
  ∃ (w : Wanted) (next : Except CommFault Message → Program link (ρ × Nat)) (todo : List (Job ρ))
    (b : Mailbox), (crew.hands me).stage = .working (.call (.receive w) next) todo ∧
      crew.network.mailbox? me = some b ∧ b.look w = .nothing

/-- The rank `me` has come to a mark where it waits for the message of `source`, which has not
come. -/
structure Plan.Waits (plan : Plan σ) (marks : Rank → Mark) (net : Network) (me : Rank)
    (mark : Mark) (t : Transfer) (source : Rank) (b : Mailbox) : Prop where
  advances : plan.Advances me (marks me) mark
  current : plan.Current mark t
  carries : t.Carries plan.size source me
  unmet : source ∉ mark.met
  mailbox : net.mailbox? me = some b
  absent : t.message source mark.count ∉ b.messages

namespace Crew

/-- A rank at work that is not blocked can go on. -/
theorem step_of_not_blocked {rules : Rules σ ρ} (hme : me < rules.size)
    (hpresent : crew.network.mailbox? me = none → (crew.hands me).stage = .gone)
    (hworking : (crew.hands me).IsWorking) (hready : ¬ crew.IsBlocked me) :
    ∃ crew', Step rules crew crew' := by
  obtain ⟨program, todo, hstage⟩ := hworking
  have hgo : ∀ {hand net}, Hand.Step rules (crew.IsAlone rules.size me) me
      (crew.hands me) crew.network hand net → ∃ crew', Step rules crew crew' :=
    fun hstep => ⟨_, me, hme, _, _, hstep, rfl⟩
  unfold IsBlocked at hready
  cases hhand : crew.hands me with
  | mk s past stage =>
  rw [hhand] at hstage hgo hready hpresent
  obtain rfl : stage = .working program todo := hstage
  -- the next action of a rank has a rule, and so has whatever its look into the mailbox finds
  cases program with
  | done r => exact hgo .proceed
  | call c next =>
    cases c with
    | model c =>
      cases hreply : rules.respond me c s with
      | mk reply s' =>
        cases reply with
        | none => exact hgo (.panic hreply)
        | some reply => exact hgo (.model hreply)
    | send dest m => exact hgo .send
    | receive w =>
      cases hbox : crew.network.mailbox? me with
      | none => nomatch hpresent hbox
      | some b =>
        cases hlook : b.look w with
        | message m left => exact hgo (.message hbox hlook)
        | early m left => exact hgo (.early hbox hlook)
        | down peer left => exact hgo (.down hbox hlook)
        | lost peer => exact hgo (.lost hbox hlook)
        | nothing => exact absurd ⟨w, next, todo, b, rfl, hbox, hlook⟩ hready

/-- Where nobody unwinds, a rank that is blocked waits for a message that has not come. -/
theorem Consistent.waits_of_blocked (h : Consistent plan givesUp expected marks crew)
    (hcalm : ¬ plan.faulty) (hme : me < plan.size) (hblocked : crew.IsBlocked me) :
    ∃ mark t source b, plan.Waits marks crew.network me mark t source b := by
  obtain ⟨w, next, todo, b, hstage, hbox, hlook⟩ := hblocked
  obtain ⟨done, left, -, -, hfollows⟩ := h.hand me hme
  rw [hstage] at hfollows
  obtain ⟨good, rest, -, mark, hadvances, t, ht, hcollective, hsequence, -, hmissing, -⟩ := hfollows
  obtain ⟨source, hcarries, hunmet, hsource⟩ := hmissing hcalm
  refine ⟨mark, t, source, b, hadvances, ht, hcarries, hunmet, hbox, fun hm => ?_⟩
  exact Mailbox.look_nothing hlook _ hm
    (Wanted.accepts_iff.mpr ⟨⟨hcollective.symm, hsequence.symm⟩, hsource⟩)

/-- The sender of a message that has not come has not passed the transfer with its receiver. -/
theorem Consistent.not_passed_of_waits (h : Consistent plan givesUp expected marks crew)
    (hcalm : ¬ plan.faulty) {mark mark' : Mark} {t : Transfer} {source : Rank} {b : Mailbox}
    (hwaits : plan.Waits marks crew.network me mark t source b)
    (hadvances : plan.Advances source (marks source) mark') : ¬ mark'.Passed mark.count me := by
  intro hpassed
  have hne : source ≠ me := hwaits.carries.2.2.1
  have hledger := h.ledger.passes hwaits.advances
  have hsource : plan.Advances source (Function.update marks me mark source) mark' := by
    rwa [Function.update_of_ne hne]
  have hdelivered := (hledger.passes hsource).delivered hcalm _ t hwaits.current source me
    hwaits.carries (by rwa [Function.update_self])
  -- a message that was sent is in the mailbox or has been taken, and this one is neither
  rcases hdelivered with ⟨b', hb', hm⟩ | htaken
  · obtain rfl : b = b' := Option.some.inj (hwaits.mailbox.symm.trans hb')
    exact hwaits.absent hm
  · rw [Function.update_of_ne hne.symm, Function.update_self] at htaken
    exact hwaits.unmet (Mark.passed_count.mp htaken)

/-- Whoever waits, some rank at work is not blocked: the sender of the message, or it waits at an
earlier transfer itself. -/
theorem Consistent.not_blocked_of_waits (h : Consistent plan givesUp expected marks crew)
    (hcalm : ¬ plan.faulty) {mark : Mark} {t : Transfer} {source : Rank} {b : Mailbox}
    (hwaits : plan.Waits marks crew.network me mark t source b) :
    ∃ r < plan.size, (crew.hands r).IsWorking ∧ ¬ crew.IsBlocked r := by
  -- on the number of transfers the waiting rank has passed
  induction hn : mark.count using Nat.strong_induction_on generalizing me mark t source b with
  | h n ih =>
    subst hn
    have hsource : source < plan.size := hwaits.carries.1
    -- the sender has yet to pass a transfer, so it is not past its jobs
    have hsilent : ¬ (crew.hands source).IsSilent := by
      intro hsilent
      have hcount := h.count_of_silent hsource hcalm hsilent
      have hlt : mark.count < plan.transfers.length :=
        (List.getElem?_eq_some_iff.mp hwaits.current).1
      exact h.not_passed_of_waits hcalm hwaits .refl (.inl (hcount ▸ hlt))
    cases hstage : (crew.hands source).stage with
    | unwinding untold =>
      obtain ⟨done, left, -, -, hfollows⟩ := h.hand source hsource
      rw [hstage] at hfollows
      exact absurd hfollows hcalm
    | closing => exact absurd (.inl hstage) hsilent
    | gone => exact absurd (.inr hstage) hsilent
    | working program todo =>
      by_cases hblocked : crew.IsBlocked source
      -- the sender waits as well, at a transfer before this one
      · obtain ⟨mark', t', source', b', hwaits'⟩ := h.waits_of_blocked hcalm hsource hblocked
        refine ih mark'.count ?_ hwaits' rfl
        have hnot := h.not_passed_of_waits hcalm hwaits hwaits'.advances
        rcases Nat.lt_trichotomy mark'.count mark.count with hlt | heq | hgt
        · exact hlt
        · -- who sends in a transfer does not wait there
          have hcurrent := hwaits'.current
          rw [Plan.Current, heq] at hcurrent
          obtain rfl : t = t' := Option.some.inj (hwaits.current.symm.trans hcurrent)
          exact absurd hwaits'.carries hwaits.carries.not_carries
        · exact absurd (.inl hgt) hnot
      · exact ⟨source, hsource, ⟨program, todo, hstage⟩, hblocked⟩

/-- Where nobody unwinds, of the ranks at work one is not blocked. -/
theorem Consistent.exists_not_blocked (h : Consistent plan givesUp expected marks crew)
    (hcalm : ¬ plan.faulty) (hme : me < plan.size) (hworking : (crew.hands me).IsWorking) :
    ∃ r < plan.size, (crew.hands r).IsWorking ∧ ¬ crew.IsBlocked r := by
  by_cases hblocked : crew.IsBlocked me
  · obtain ⟨mark, t, source, b, hwaits⟩ := h.waits_of_blocked hcalm hme hblocked
    exact h.not_blocked_of_waits hcalm hwaits
  · exact ⟨me, hme, hworking, hblocked⟩

/-- A rank that is at its end, or tells its peers that it unwinds, can go on. -/
theorem step_of_not_working {rules : Rules σ ρ} (hme : me < rules.size)
    (hworking : ¬ (crew.hands me).IsWorking) (hstage : (crew.hands me).stage ≠ .gone) :
    ∃ crew', Step rules crew crew' := by
  have hgo : ∀ {hand net}, Hand.Step rules (crew.IsAlone rules.size me) me
      (crew.hands me) crew.network hand net → ∃ crew', Step rules crew crew' :=
    fun hstep => ⟨_, me, hme, _, _, hstep, rfl⟩
  cases hhand : crew.hands me with
  | mk s past stage =>
  rw [hhand] at hworking hstage hgo
  cases stage with
  | working program todo => exact absurd ⟨program, todo, rfl⟩ hworking
  | unwinding untold =>
    cases untold with
    | nil => exact hgo .told
    | cons dest untold => exact hgo .tell
  | closing => exact hgo .leave
  | gone => exact absurd rfl hstage

/-- Where nobody unwinds, some rank can go on until all have left. -/
theorem Consistent.progress (h : Consistent plan givesUp expected marks crew)
    (hcalm : ¬ plan.faulty) (hme : me < plan.size) (hstage : (crew.hands me).stage ≠ .gone) :
    ∃ crew', Step (plan.rules givesUp) crew crew' := by
  by_cases hworking : (crew.hands me).IsWorking
  · obtain ⟨r, hr, hworking, hready⟩ := h.exists_not_blocked hcalm hme hworking
    exact step_of_not_blocked hr (h.present r hr) hworking hready
  · exact step_of_not_working hme hworking hstage

/-- Where nobody unwinds and no rank can go on, every rank has all its results. -/
theorem Consistent.of_stuck (h : Consistent plan givesUp expected marks crew)
    (hcalm : ¬ plan.faulty) (hstuck : ∀ crew', ¬ Step (plan.rules givesUp) crew crew')
    (hme : me < plan.size) :
    List.Forall₂ (fun r good => good r) (crew.hands me).past (expected me) ∧
      (crew.hands me).stage = .gone := by
  have hgone : (crew.hands me).stage = .gone := by
    by_contra hstage
    obtain ⟨crew', hstep⟩ := h.progress hcalm hme hstage
    exact hstuck crew' hstep
  obtain ⟨done, left, hexpected, hpast, hfollows⟩ := h.hand me hme
  rw [hgone] at hfollows
  obtain ⟨rfl, -⟩ := hfollows.resolve_left hcalm
  rw [hexpected, List.append_nil]
  exact ⟨hpast, hgone⟩

end Crew

end Nlp
