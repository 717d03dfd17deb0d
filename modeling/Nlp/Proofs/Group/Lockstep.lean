import Nlp.Group.Script
import Nlp.Proofs.Contract
import Nlp.Proofs.Group.Exchange
import Nlp.Proofs.Group.Progress

/-!
# Groups in lockstep

The ranks of a group as if their collectives took no time: every rank goes on by itself up to its
next collective, and there all of them meet.  What the ranks come to in lockstep is what they come
to over messages, in whatever order these arrive.

## Main definitions

* `Program.pause`: how far a rank comes by itself.
* `Program.ComesTo`: what is left of a program when its model has answered some calls.
* `Lockstep`: the collectives of a group that meets at all of them, and the results of its ranks.
* `sentBy`: what a rank passes to some collectives.
* `Program.job`, `Crew.ofPrograms`: the same programs over messages.

## Main results

* `Lockstep.follows`: in lockstep every rank follows the plan of the group's collectives.
* `Lockstep.recorded`: the record of a rank is what it passes to these collectives.
* `Lockstep.past_of_stuck`, `Lockstep.network_eq_new`: what the same programs come to over messages.
* `Crew.past_of_meets`: what all results of a rank's program have, its results over messages have.
-/

namespace Nlp

variable {σ τ : Type}

/-- Where a rank has to wait for its group, or ends. -/
inductive Pause (τ : Type) where
  /-- It has its result. -/
  | done (result : τ)
  /-- The next collective is a broadcast. -/
  | broadcast (payload : Bytes) (next : Except CommFault Bytes → Program rankAccess τ)
  /-- The next collective is a gather. -/
  | gather (payload : Bytes) (next : Except CommFault (Option Parts) → Program rankAccess τ)
  /-- Its model has ended it. -/
  | panic

/-- A program that pauses at once. -/
def Pause.program : Pause τ → Program rankAccess τ
  | done r => .done r
  | broadcast payload next => .call (I := rankAccess) (.broadcast payload) next
  | gather payload next => .call (I := rankAccess) (.gather payload) next
  | panic => .call (I := rankAccess) (.model (.outOfRange 0 0)) fun e => nomatch e

/-- A rank's program up to where it has to wait for its group. -/
def Program.pause (respond : Responder σ) : Program rankAccess τ → σ → Pause τ × σ
  | .done r, s => (.done r, s)
  | .call (.model c) next, s =>
    match respond c s with
    | (some reply, s) => (next reply).pause respond s
    | (none, s) => (.panic, s)
  | .call (.broadcast payload) next, s => (.broadcast payload next, s)
  | .call (.gather payload) next, s => (.gather payload next, s)

theorem Program.pause_model (respond : Responder σ) (c : ModelCall Double)
    (next : (modelAccess Double).Reply c → Program rankAccess τ) (s : σ) :
    (Program.call (I := rankAccess) (.model c) next).pause respond s =
      match respond c s with
      | (some reply, s) => (next reply).pause respond s
      | (none, s) => (.panic, s) := by
  rw [Program.pause]

/-- A program comes to what is left of it by calls that its model answers. -/
inductive Program.ComesTo (respond : Responder σ) (left : Program rankAccess τ) (s' : σ) :
    Program rankAccess τ → σ → Prop
  | here : ComesTo respond left s' left s'
  | model {c : ModelCall Double} {next : (modelAccess Double).Reply c → Program rankAccess τ}
      {reply : (modelAccess Double).Reply c} {s s₁ : σ}
      (hreply : respond c s = (some reply, s₁))
      (hrest : ComesTo respond left s' (next reply) s₁) :
      ComesTo respond left s' (.call (I := rankAccess) (.model c) next) s

section

variable {respond : Responder σ} {p : Program rankAccess τ} {s s' : σ}

theorem Program.comesTo_of_pause {pause : Pause τ} (hpause : p.pause respond s = (pause, s'))
    (hne : pause ≠ .panic) : ComesTo respond pause.program s' p s := by
  -- on the program, which pauses at its first collective
  induction p generalizing s with
  | done r =>
    obtain ⟨rfl, rfl⟩ := Prod.mk.inj hpause
    exact .here
  | call c next ih =>
    cases c with
    | model c =>
      rw [pause_model] at hpause
      rcases hreply : respond c s with ⟨_ | reply, s₁⟩
      · rw [hreply] at hpause
        exact absurd (Prod.mk.inj hpause).1.symm hne
      · rw [hreply] at hpause
        exact .model hreply (ih reply hpause)
    | broadcast payload =>
      obtain ⟨rfl, rfl⟩ := Prod.mk.inj hpause
      exact .here
    | gather payload =>
      obtain ⟨rfl, rfl⟩ := Prod.mk.inj hpause
      exact .here

/-- A program that is ended by its model comes to the call that its model does not answer. -/
theorem Program.comesTo_of_panic (hpause : (p.pause respond s).1 = .panic) :
    ∃ c next s₁ s₂, ComesTo respond (.call (I := rankAccess) (.model c) next) s₁ p s ∧
      respond c s₁ = (none, s₂) := by
  induction p generalizing s with
  | done r => nomatch hpause
  | call c next ih =>
    cases c with
    | model c =>
      rw [pause_model] at hpause
      rcases hreply : respond c s with ⟨_ | reply, s₁⟩
      · exact ⟨c, next, s, s₁, .here, hreply⟩
      · rw [hreply] at hpause
        obtain ⟨c', next', s', s₂, hcomes, hnone⟩ := ih reply hpause
        exact ⟨c', next', s', s₂, .model hreply hcomes, hnone⟩
    | broadcast payload => nomatch hpause
    | gather payload => nomatch hpause

end

/-- From where they pause, the ranks meet at these collectives and come to their results, or one of
them is ended by its model. -/
inductive Lockstep (size : Nat) (respond : Rank → Responder σ) :
    (pauses : Rank → Pause τ × σ) → List Transfer → Option (Rank → τ) → Prop
  | done {pauses : Rank → Pause τ × σ} {results : Rank → τ}
      (h : ∀ r < size, (pauses r).1 = .done (results r)) :
    Lockstep size respond pauses [] (some results)
  | panic {pauses : Rank → Pause τ × σ} {r : Rank} (hr : r < size) (h : (pauses r).1 = .panic) :
    Lockstep size respond pauses [] none
  | broadcast {pauses : Rank → Pause τ × σ} {payload : Rank → Bytes}
      {next : Rank → Except CommFault Bytes → Program rankAccess τ} {states : Rank → σ}
      {transfers : List Transfer} {outcome : Option (Rank → τ)}
      (h : ∀ r < size, pauses r = (.broadcast (payload r) (next r), states r))
      (hrest : Lockstep size respond
        (fun r => (next r (.ok (payload rootRank))).pause (respond r) (states r)) transfers
        outcome) :
    Lockstep size respond pauses (⟨.broadcast, rootRank, payload⟩ :: transfers) outcome
  | gather {pauses : Rank → Pause τ × σ} {payload : Rank → Bytes}
      {next : Rank → Except CommFault (Option Parts) → Program rankAccess τ} {states : Rank → σ}
      {transfers : List Transfer} {outcome : Option (Rank → τ)}
      (h : ∀ r < size, pauses r = (.gather (payload r) (next r), states r))
      (hrest : Lockstep size respond
        (fun r => (next r (.ok (if r = rootRank then
            some (Transfer.allParts size ⟨.gather, rootRank, payload⟩) else none))).pause
          (respond r) (states r)) transfers outcome) :
    Lockstep size respond pauses (⟨.gather, rootRank, payload⟩ :: transfers) outcome

/-- Only the pauses of the group's own ranks matter. -/
theorem Lockstep.congr {size : Nat} {respond : Rank → Responder σ}
    {pauses pauses' : Rank → Pause τ × σ}
    {transfers : List Transfer} {outcome : Option (Rank → τ)}
    (h : Lockstep size respond pauses transfers outcome)
    (heq : ∀ r < size, pauses' r = pauses r) : Lockstep size respond pauses' transfers outcome := by
  cases h with
  | done h => exact .done fun r hr => heq r hr ▸ h r hr
  | panic hr h => exact .panic hr (heq _ hr ▸ h)
  | broadcast h hrest => exact .broadcast (fun r hr => (heq r hr).trans (h r hr)) hrest
  | gather h hrest => exact .gather (fun r hr => (heq r hr).trans (h r hr)) hrest

/-! ## A group in lockstep can be run -/

namespace Pause

/-- The rank has its result. -/
def isDone : Pause τ → Bool
  | done _ => true
  | _ => false

/-- The collective the rank waits for. -/
def collective? : Pause τ → Option Collective
  | broadcast _ _ => some .broadcast
  | gather _ _ => some .gather
  | _ => none

/-- What the rank passes to it. -/
def payload : Pause τ → Bytes
  | broadcast payload _ => payload
  | gather payload _ => payload
  | _ => []

/-- The next pause of a rank that waits for a broadcast of these bytes. -/
def afterBroadcast (respond : Responder σ) (bytes : Bytes) : Pause τ × σ → Pause τ × σ
  | (broadcast _ next, s) => (next (.ok bytes)).pause respond s
  | pause => pause

/-- The next pause of a rank that waits for a gather of these parts. -/
def afterGather (respond : Responder σ) (parts : Option Parts) : Pause τ × σ → Pause τ × σ
  | (gather _ next, s) => (next (.ok parts)).pause respond s
  | pause => pause

end Pause

/-- Within so many collectives the ranks come to their results. -/
def Lockstep.comesToEnd (size : Nat) (respond : Rank → Responder σ) :
    (fuel : Nat) → (Rank → Pause τ × σ) → Bool
  | 0, pauses => (List.range size).all fun r => (pauses r).1.isDone
  | fuel + 1, pauses =>
    let all (collective : Collective) : Bool :=
      (List.range size).all fun r => (pauses r).1.collective? = some collective
    let payload (r : Rank) : Bytes := (pauses r).1.payload
    if all .broadcast then
      comesToEnd size respond fuel fun r =>
        Pause.afterBroadcast (respond r) (payload rootRank) (pauses r)
    else if all .gather then
      comesToEnd size respond fuel fun r =>
        Pause.afterGather (respond r) (if r = rootRank then
          some (Transfer.allParts size ⟨.gather, rootRank, payload⟩) else none) (pauses r)
    else (List.range size).all fun r => (pauses r).1.isDone

theorem Pause.eq_broadcast {pause : Pause τ} (h : pause.collective? = some .broadcast) :
    ∃ next, pause = .broadcast pause.payload next := by
  cases pause with
  | broadcast payload next => exact ⟨next, rfl⟩
  | done _ | gather _ _ | panic => nomatch h

theorem Pause.eq_gather {pause : Pause τ} (h : pause.collective? = some .gather) :
    ∃ next, pause = .gather pause.payload next := by
  cases pause with
  | gather payload next => exact ⟨next, rfl⟩
  | done _ | broadcast _ _ | panic => nomatch h

theorem Pause.choose_next [Nonempty τ] {γ : Type} {size : Nat} {pauses : Rank → Pause τ × σ}
    {shape : Rank → (γ → Program rankAccess τ) → Pause τ}
    (h : ∀ r < size, ∃ next, (pauses r).1 = shape r next) :
    ∃ next : Rank → γ → Program rankAccess τ,
      ∀ r < size, pauses r = (shape r (next r), (pauses r).2) := by
  have hall : ∀ r, ∃ next, r < size → (pauses r).1 = shape r next := by
    intro r
    by_cases hr : r < size
    · obtain ⟨next, hnext⟩ := h r hr
      exact ⟨next, fun _ => hnext⟩
    · exact ⟨fun _ => .done (Classical.arbitrary τ), fun h => absurd h hr⟩
  choose next hnext using hall
  exact ⟨next, fun r hr => Prod.ext (hnext r hr) rfl⟩

/-- Where the ranks pause after so many collectives, or before if they do not all meet again. -/
def Lockstep.ending (size : Nat) (respond : Rank → Responder σ) :
    (fuel : Nat) → (Rank → Pause τ × σ) → Rank → Pause τ × σ
  | 0, pauses => pauses
  | fuel + 1, pauses =>
    let all (collective : Collective) : Bool :=
      (List.range size).all fun r => (pauses r).1.collective? = some collective
    let payload (r : Rank) : Bytes := (pauses r).1.payload
    if all .broadcast then
      ending size respond fuel fun r =>
        Pause.afterBroadcast (respond r) (payload rootRank) (pauses r)
    else if all .gather then
      ending size respond fuel fun r =>
        Pause.afterGather (respond r) (if r = rootRank then
          some (Transfer.allParts size ⟨.gather, rootRank, payload⟩) else none) (pauses r)
    else pauses

/-- The results with which a run ends are those of the group in lockstep. -/
theorem Lockstep.of_ending [Nonempty τ] {size : Nat} {respond : Rank → Responder σ} {fuel : Nat}
    {pauses : Rank → Pause τ × σ} {results : Rank → τ}
    (h : ∀ r < size, (ending size respond fuel pauses r).1 = .done (results r)) :
    ∃ transfers, Lockstep size respond pauses transfers (some results) := by
  -- on the fuel: a round of the run is one collective of the lockstep
  induction fuel generalizing pauses with
  | zero => exact ⟨[], .done h⟩
  | succ fuel ih =>
    simp only [ending] at h
    split at h
    · next hall =>
      obtain ⟨next, hnext⟩ := Pause.choose_next fun r hr =>
        Pause.eq_broadcast (of_decide_eq_true (List.all_eq_true.mp hall r (List.mem_range.mpr hr)))
      obtain ⟨transfers, hrest⟩ := ih h
      refine ⟨_, .broadcast hnext (hrest.congr fun r hr => ?_)⟩
      rw [hnext r hr]
      rfl
    · split at h
      · next hall =>
        obtain ⟨next, hnext⟩ := Pause.choose_next fun r hr =>
          Pause.eq_gather (of_decide_eq_true (List.all_eq_true.mp hall r (List.mem_range.mpr hr)))
        obtain ⟨transfers, hrest⟩ := ih h
        refine ⟨_, .gather hnext (hrest.congr fun r hr => ?_)⟩
        rw [hnext r hr]
        rfl
      · exact ⟨[], .done h⟩

theorem Lockstep.comesToEnd_eq (size : Nat) (respond : Rank → Responder σ) (fuel : Nat)
    (pauses : Rank → Pause τ × σ) :
    comesToEnd size respond fuel pauses =
      (List.range size).all fun r => (ending size respond fuel pauses r).1.isDone := by
  -- on the fuel: both recursions take the same branches
  induction fuel generalizing pauses with
  | zero => rfl
  | succ fuel ih =>
    simp only [comesToEnd, ending]
    split
    · exact ih _
    · split
      · exact ih _
      · rfl

theorem Lockstep.exists_ending_eq_done [Nonempty τ] {size : Nat} {respond : Rank → Responder σ}
    {fuel : Nat} {pauses : Rank → Pause τ × σ} (h : comesToEnd size respond fuel pauses) :
    ∃ results : Rank → τ, ∀ r < size,
      (ending size respond fuel pauses r).1 = .done (results r) := by
  rw [comesToEnd_eq] at h
  have hdone : ∀ r, ∃ a, r < size → (ending size respond fuel pauses r).1 = .done a := by
    intro r
    by_cases hr : r < size
    · have hr' := List.all_eq_true.mp h r (List.mem_range.mpr hr)
      cases hpause : (ending size respond fuel pauses r).1 with
      | done a => exact ⟨a, fun _ => rfl⟩
      | broadcast _ _ | gather _ _ | panic =>
        rw [hpause] at hr'
        nomatch hr'
    · exact ⟨Classical.arbitrary τ, fun h => absurd h hr⟩
  choose results hresults using hdone
  exact ⟨results, hresults⟩

/-- A group that can be run to its end has the results of the run in lockstep. -/
theorem Lockstep.of_comesToEnd [Nonempty τ] {size : Nat} {respond : Rank → Responder σ}
    {fuel : Nat} {pauses : Rank → Pause τ × σ} (h : comesToEnd size respond fuel pauses) :
    ∃ transfers results, (∀ r < size, (ending size respond fuel pauses r).1 = .done (results r)) ∧
      Lockstep size respond pauses transfers (some results) := by
  obtain ⟨results, hresults⟩ := exists_ending_eq_done h
  obtain ⟨transfers, hlockstep⟩ := of_ending hresults
  exact ⟨transfers, results, hresults, hlockstep⟩

/-! ## Lockstep and plans -/

variable {plan : Plan σ} {me : Rank}

/-- What a rank asks of its model follows any plan. -/
theorem Program.ComesTo.follows {post : τ × Nat → Mark → σ → Prop}
    {p left : Program rankAccess τ} {mark : Mark} {count : Nat} {s s' : σ}
    (hcomes : ComesTo (plan.respond me) left s' p s)
    (h : ((left.interpret (Place.overLink ⟨me, plan.size⟩)).run count).Follows plan me post mark
      s') :
    ((p.interpret (Place.overLink ⟨me, plan.size⟩)).run count).Follows plan me post mark s := by
  -- on the calls of its model: they move no mark
  induction hcomes with
  | here => exact h
  | model hreply _ ih =>
    refine ⟨mark, .refl, ?_⟩
    simp only [Plan.Allows, hreply]
    exact ih

/-- The plan of a group where nobody unwinds. -/
def Plan.calm (size : Nat) (respond : Rank → Responder σ) (transfers : List Transfer) : Plan σ :=
  ⟨size, respond, False, transfers⟩

variable {size : Nat} {respond : Rank → Responder σ} {transfers : List Transfer}
  {results : Rank → τ} {pauses : Rank → Pause τ × σ} {programs : Rank → Program rankAccess τ}
  {states : Rank → σ}

/-- A rank that has its result has passed all transfers. -/
def Lockstep.Ended (transfers : List Transfer) (result : τ) (r : τ × Nat) (mark : Mark) (_ : σ) :
    Prop :=
  r = (result, transfers.length) ∧ mark = ⟨transfers.length, []⟩

theorem current_append (size : Nat) (respond : Rank → Responder σ) (before : List Transfer)
    (t : Transfer) (after : List Transfer) :
    (Plan.calm size respond (before ++ t :: after)).Current ⟨before.length, []⟩ t := by
  simp [Plan.Current, Plan.calm]

/-- In lockstep every rank follows the plan of the group's collectives, which may come after
others. -/
theorem Lockstep.follows {outcome : Option (Rank → τ)}
    (h : Lockstep size respond pauses transfers outcome) (houtcome : outcome = some results)
    (before : List Transfer)
    (hpauses : ∀ r < size, (programs r).pause (respond r) (states r) = pauses r)
    (hme : me < size) :
    (((programs me).interpret (Place.overLink ⟨me, size⟩)).run before.length).Follows
      (.calm size respond (before ++ transfers)) me
      (Ended (before ++ transfers) (results me)) ⟨before.length, []⟩ (states me) := by
  -- on the collectives at which the group still meets; those that are done are in `before`
  induction h generalizing before programs states with
  | @done pauses results' h =>
    obtain rfl := Option.some.inj houtcome
    have hpause : (programs me).pause (respond me) (states me) =
        (.done (results' me), (pauses me).2) := by
      rw [hpauses me hme, ← h me hme]
    rw [List.append_nil]
    refine (Program.comesTo_of_pause hpause nofun).follows ?_
    exact ⟨_, .refl, rfl, rfl⟩
  | panic hr h => nomatch houtcome
  | @broadcast pauses payload next states' transfers outcome h hrest ih =>
    have hpause := (hpauses me hme).trans (h me hme)
    refine (Program.comesTo_of_pause hpause nofun).follows ?_
    have hcurrent := current_append size respond before
      ⟨.broadcast, rootRank, payload⟩ transfers
    have hcall :=
      Transfer.broadcast_follows (s := states' me) hcurrent rfl (Nat.zero_lt_of_lt hme) hme
    refine Program.Follows.chain ?_ hcall
    -- nobody unwinds, so the call has not failed, and it gives what the plan says
    rintro ⟨fault | bytes, _⟩ _ _ ⟨rfl, rfl, rfl, hgiven⟩
    · exact hgiven.elim
    · obtain rfl : bytes = payload rootRank := Delivery.bytes.inj hgiven
      have hnext := ih houtcome (before ++ [⟨.broadcast, rootRank, payload⟩]) fun _ _ => rfl
      rw [List.append_assoc, List.length_append] at hnext
      exact hnext
  | @gather pauses payload next states' transfers outcome h hrest ih =>
    have hpause := (hpauses me hme).trans (h me hme)
    refine (Program.comesTo_of_pause hpause nofun).follows ?_
    have hcurrent := current_append size respond before
      ⟨.gather, rootRank, payload⟩ transfers
    have hcall := Transfer.gather_follows (s := states' me) hcurrent rfl (Nat.zero_lt_of_lt hme) hme
    refine Program.Follows.chain ?_ hcall
    rintro ⟨fault | parts, _⟩ _ _ ⟨rfl, rfl, rfl, hgiven⟩
    · exact hgiven.elim
    · obtain rfl := Delivery.parts.inj hgiven
      have hnext := ih houtcome (before ++ [⟨.gather, rootRank, payload⟩]) fun _ _ => rfl
      rw [List.append_assoc, List.length_append] at hnext
      exact hnext

/-! ## Records -/

/-- What a rank passes to some collectives. -/
def sentBy (r : Rank) (transfers : List Transfer) : Sent :=
  transfers.map fun t => (t.collective, t.payload r)

/-- The same pause in a program that puts its collectives on record, after those before. -/
def Pause.recorded (sent : Sent) : Pause τ → Pause (τ × Sent)
  | done r => .done (r, sent)
  | broadcast payload next => .broadcast payload fun reply =>
    ((next reply).interpret RankCall.record).run (sent ++ [(Collective.broadcast, payload)])
  | gather payload next => .gather payload fun reply =>
    ((next reply).interpret RankCall.record).run (sent ++ [(Collective.gather, payload)])
  | panic => .panic

theorem Program.pause_recorded (respond : Responder σ) (p : Program rankAccess τ) (sent : Sent)
    (s : σ) :
    ((p.interpret RankCall.record).run sent).pause respond s =
      ((p.pause respond s).1.recorded sent, (p.pause respond s).2) := by
  -- the record changes at a collective only, so both programs ask the model the same before it
  induction p generalizing s with
  | done r => rfl
  | call c next ih =>
    cases c with
    | model c =>
      show Program.pause respond (.call (I := rankAccess) (.model c) fun reply =>
        ((next reply).interpret RankCall.record).run sent) s = _
      rw [Program.pause_model]
      show _ = ((Program.pause respond (.call (I := rankAccess) (.model c) next) s).1.recorded sent,
        (Program.pause respond (.call (I := rankAccess) (.model c) next) s).2)
      rw [Program.pause_model]
      rcases respond c s with ⟨_ | reply, s'⟩
      · rfl
      · exact ih reply s'
    | broadcast payload => rfl
    | gather payload => rfl

/-- With their records the programs meet at the same collectives. -/
theorem Lockstep.recorded {outcome : Option (Rank → τ)}
    (h : Lockstep size respond pauses transfers outcome) (sent : Rank → Sent) :
    Lockstep size respond (fun r => ((pauses r).1.recorded (sent r), (pauses r).2)) transfers
      (outcome.map fun results r => (results r, sent r ++ sentBy r transfers)) := by
  -- on the collectives: at each of them the records grow by what the ranks pass to it
  induction h generalizing sent with
  | done h =>
    refine .done fun r hr => ?_
    rw [h r hr]
    simp [Pause.recorded, sentBy]
  | panic hr h =>
    refine .panic hr ?_
    rw [h]
    rfl
  | @broadcast pauses payload next states transfers outcome h hrest ih =>
    have hpause : ∀ r < size, ((pauses r).1.recorded (sent r), (pauses r).2) =
        (.broadcast (payload r) fun reply => ((next r reply).interpret RankCall.record).run
          (sent r ++ [(Collective.broadcast, payload r)]), states r) := by
      intro r hr
      rw [h r hr]
      rfl
    have hnext := ih fun r => sent r ++ [(Collective.broadcast, payload r)]
    simp only [← Program.pause_recorded, List.append_assoc] at hnext
    exact .broadcast hpause hnext
  | @gather pauses payload next states transfers outcome h hrest ih =>
    have hpause : ∀ r < size, ((pauses r).1.recorded (sent r), (pauses r).2) =
        (.gather (payload r) fun reply => ((next r reply).interpret RankCall.record).run
          (sent r ++ [(Collective.gather, payload r)]), states r) := by
      intro r hr
      rw [h r hr]
      rfl
    have hnext := ih fun r => sent r ++ [(Collective.gather, payload r)]
    simp only [← Program.pause_recorded, List.append_assoc] at hnext
    exact .gather hpause hnext

/-! ## The same programs over messages -/

/-- A program of a rank as a job of its endpoint, whose result says how many collectives the
endpoint has taken part in by then. -/
def Program.job (p : Program rankAccess τ) (here : Place) : Job (τ × Nat) := do
  let r ← p.interpret here.overLink
  let count ← get
  return (r, count)

namespace Crew

/-- What can happen where no rank unwinds, unless its model ends it. -/
def calmRules (size : Nat) (respond : Rank → Responder σ) : Rules σ (τ × Nat) :=
  ⟨size, respond, fun _ => False, False⟩

/-- A group with a program for every rank, after this many collectives. -/
def ofPrograms (size count : Nat) (states : Rank → σ) (programs : Rank → Program rankAccess τ) :
    Crew σ (τ × Nat) :=
  .new size count states fun r => [(programs r).job ⟨r, size⟩]

end Crew

namespace Lockstep

variable {count : Nat} {crew : Crew σ (τ × Nat)}

theorem jobsFollow
    (h : Lockstep size respond (fun r => (programs r).pause (respond r) (states r)) transfers
      (some results)) (before : List Transfer) (hme : me < size) :
    (Plan.calm size respond (before ++ transfers)).JobsFollow (fun _ => False) me
      [(programs me).job ⟨me, size⟩]
      [(· = (results me, (before ++ transfers).length))] before.length (states me) := by
  refine Program.Follows.chain ?_ (h.follows rfl before (fun _ _ => rfl) hme)
  rintro _ mark s ⟨rfl, rfl⟩
  exact ⟨_, .refl, rfl, rfl, False.elim, .inr rfl⟩

/-- The invariant of the group over messages. -/
theorem consistent
    (h : Lockstep size respond (fun r => (programs r).pause (respond r) (states r)) transfers
      (some results))
    (hreaches : Crew.Reaches (Crew.calmRules size respond)
      (Crew.ofPrograms size count states programs) crew) :
    ∃ before marks, before.length = count ∧
      Crew.Consistent (.calm size respond (before ++ transfers)) (fun _ => False)
        (fun r => [(· = (results r, (before ++ transfers).length))]) marks crew := by
  -- which collectives came before does not matter
  have hstart := Crew.Consistent.new fun r hr =>
    h.jobsFollow (List.replicate count ⟨.broadcast, rootRank, fun _ => []⟩) hr
  rw [List.length_replicate] at hstart
  obtain ⟨marks, hconsistent⟩ := hstart.reaches hreaches
  exact ⟨_, marks, List.length_replicate, hconsistent⟩

/-- Over messages no rank is ended by its model. -/
theorem not_unwinding
    (h : Lockstep size respond (fun r => (programs r).pause (respond r) (states r)) transfers
      (some results))
    (hreaches : Crew.Reaches (Crew.calmRules size respond)
      (Crew.ofPrograms size count states programs) crew) (hme : me < size) (untold : List Rank) :
    (crew.hands me).stage ≠ .unwinding untold := by
  intro hstage
  obtain ⟨before, marks, -, hconsistent⟩ := h.consistent hreaches
  obtain ⟨done, left, -, -, hfollows⟩ := hconsistent.hand me hme
  rw [hstage] at hfollows
  exact hfollows

/-- A rank that has a result over messages has the one it has in lockstep. -/
theorem past_eq
    (h : Lockstep size respond (fun r => (programs r).pause (respond r) (states r)) transfers
      (some results))
    (hreaches : Crew.Reaches (Crew.calmRules size respond)
      (Crew.ofPrograms size count states programs) crew) (hme : me < size) :
    (crew.hands me).past = [] ∨
      (crew.hands me).past = [(results me, count + transfers.length)] := by
  obtain ⟨before, marks, rfl, hconsistent⟩ := h.consistent hreaches
  obtain ⟨done, left, hexpected, hpast, -⟩ := hconsistent.hand me hme
  cases done with
  | nil => exact .inl (List.forall₂_nil_right_iff.mp hpast)
  | cons good done =>
    obtain ⟨rfl, hrest⟩ := List.cons.inj hexpected
    obtain ⟨rfl, rfl⟩ := List.append_eq_nil_iff.mp hrest.symm
    obtain ⟨r, past, rfl, hnil, hpast⟩ := List.forall₂_cons_right_iff.mp hpast
    obtain rfl := List.forall₂_nil_right_iff.mp hnil
    exact .inr (by rw [hpast, List.length_append])

/-- Where no rank can go on over messages, every rank has its result. -/
theorem past_of_stuck
    (h : Lockstep size respond (fun r => (programs r).pause (respond r) (states r)) transfers
      (some results))
    (hreaches : Crew.Reaches (Crew.calmRules size respond)
      (Crew.ofPrograms size count states programs) crew)
    (hstuck : ∀ next, ¬ Crew.Step (Crew.calmRules size respond) crew next) (hme : me < size) :
    (crew.hands me).past = [(results me, count + transfers.length)] := by
  obtain ⟨before, marks, -, hconsistent⟩ := h.consistent hreaches
  have hlength := (hconsistent.of_stuck id hstuck hme).1.length_eq
  refine (h.past_eq hreaches hme).resolve_left fun hnil => ?_
  rw [hnil] at hlength
  nomatch hlength

/-- What a rank has wherever no rank can go on over messages is its result. -/
theorem eq_of_past {entry : τ × Nat}
    (h : Lockstep size respond (fun r => (programs r).pause (respond r) (states r)) transfers
      (some results)) (hme : me < size)
    (hpast : ∀ reached,
      Crew.Reaches (Crew.calmRules size respond) (Crew.ofPrograms size count states programs)
          reached →
        (∀ next, ¬ Crew.Step (Crew.calmRules size respond) reached next) →
          (reached.hands me).past = [entry]) :
    entry = (results me, count + transfers.length) := by
  obtain ⟨reached, hreaches, hstuck⟩ :=
    Crew.exists_stuck (Crew.calmRules size respond) (Crew.ofPrograms size count states programs)
  have hentry := hpast reached hreaches hstuck
  rw [h.past_of_stuck hreaches hstuck hme] at hentry
  exact (List.singleton_inj.mp hentry).symm

end Lockstep

/-! ## Results that do not depend on the group -/

/-- The results of the rank are good, and so is every one that its jobs can come to. -/
structure Hand.IsGood (good : ρ → Prop) (hand : Hand σ ρ) : Prop where
  past : ∀ r ∈ hand.past, good r
  stage : match hand.stage with
    | .working program todo => program.Meets (.anything link) (fun r => good r.1) ∧
        ∀ job ∈ todo, ∀ count, (StateT.run job count).Meets (.anything link) fun r => good r.1
    | _ => True

theorem Hand.Step.isGood {rules : Crew.Rules σ ρ} {alone : Prop} {good : ρ → Prop}
    {hand hand' : Hand σ ρ} {net net' : Network}
    (hstep : Hand.Step rules alone me hand net hand' net') (h : hand.IsGood good) :
    hand'.IsGood good := by
  obtain ⟨hpast, hstage⟩ := h
  -- a job goes on from whatever reply it is given
  cases hstep with
  | model | send | message | down | lost | hungUp =>
    exact ⟨hpast, hstage.1.2 _ trivial, hstage.2⟩
  | early => exact ⟨hpast, hstage⟩
  | panic | unwind | tell | told | leave => exact ⟨hpast, trivial⟩
  | @proceed s past r count todo =>
    have hpast' : ∀ r' ∈ past ++ [r], good r' :=
      List.forall_mem_append.mpr ⟨hpast, List.forall_mem_singleton.mpr hstage.1⟩
    cases todo with
    | nil => exact ⟨hpast', trivial⟩
    | cons job todo =>
      obtain ⟨hjob, htodo⟩ := List.forall_mem_cons.mp hstage.2
      exact ⟨hpast', hjob _, htodo⟩
  | giveUp | unwindAfter =>
    exact ⟨List.forall_mem_append.mpr ⟨hpast, List.forall_mem_singleton.mpr hstage.1⟩, trivial⟩

/-- Whatever the network and the other ranks do, a rank comes to none but the results of its
program. -/
theorem Crew.past_of_meets {rules : Crew.Rules σ (τ × Nat)} {good : τ → Prop} {count : Nat}
    {reached : Crew σ (τ × Nat)} (h : (programs me).Meets (.anything rankAccess) good)
    (hreaches : Crew.Reaches rules (Crew.ofPrograms size count states programs) reached) :
    ∀ r ∈ (reached.hands me).past, good r.1 := by
  have hgood : (reached.hands me).IsGood fun r => good r.1 := by
    -- every step keeps the results good, whatever comes out of the network
    induction hreaches with
    | refl =>
      let ending := (Always.program (.anything link)).state fun _ : Nat => True
      have hjob : ending.holds ((programs me).job ⟨me, size⟩) fun r => good r.1 := by
        refine ending.chain (h.interpret ending fun c _ s _ => ?_) fun r hr => ?_
        · exact (Program.meets_anything _).mono fun _ _ => ⟨trivial, trivial⟩
        · exact ending.seq (fun _ _ => ⟨trivial, trivial⟩) fun _ => ending.pure _ hr
      exact ⟨nofun, (hjob count trivial).mono fun _ h => h.1, nofun⟩
    | @tail crew _ _ hstep ih =>
      obtain ⟨r, -, hand, net, hstep, rfl⟩ := hstep
      show Hand.IsGood _ (Function.update crew.hands r hand me)
      rw [Function.update_apply]
      split
      · next hr =>
        subst hr
        exact hstep.isGood ih
      · exact ih
  exact hgood.past

end Nlp
