import Nlp.Proofs.Group.Lockstep

/-!
# Ranks that take turns

`Group.run` lets the ranks take turns, and in its turn a rank makes all the calls it can.  Every
turn is a number of steps of a crew: a wait is one look into the mailbox after the other, and to
unwind is to tell one peer after the other.  So a group that takes turns is, after any number of
rounds, where a crew can come to, and the results it has are those of the group in lockstep.

The ranks of a group are told what their endpoints report.  A crew leaves that out, so the states
of its models are what is left when the reports are forgotten.

## Main definitions

* `Crew.Attended`: the ranks that have a mailbox are those that have not left.
* `Responder.Extends`: the answers of a model, and the reports of an endpoint besides.
* `Phase.Shows`, `Group.Shows`: the group is where the crew is.

## Main results

* `Mailbox.look_induction`: to receive is to look, and to look again.
* `Crew.reaches_of_receive`, `Crew.reaches_of_unwinding`: a wait and an unwinding, step by step.
* `Program.advance_turnsTo`: what a rank does in its turn.
* `Group.turn_reaches`, `Group.turns_reaches`, `Group.run_reaches`: a turn, a round, and a run.
* `Group.phase_eq`: the results of a run are those of the group in lockstep.
-/

namespace Nlp

/-! ## Networks -/

namespace Mailbox

/-- A look that puts a message aside leaves less in the inbox, so what holds of a mailbox where it
holds of what is left of it then, holds. -/
theorem look_induction {motive : Mailbox → Prop} (w : Wanted)
    (h : ∀ b, (∀ m left, b.look w = .early m left → motive left) → motive b) (b : Mailbox) :
    motive b := by
  obtain ⟨inbox, pending, lost⟩ := b
  induction inbox generalizing pending lost with
  | nil =>
    refine h _ fun m left hlook => ?_
    obtain ⟨inbox, hinbox, -⟩ := look_early hlook
    nomatch hinbox
  | cons p inbox ih =>
    refine h _ fun m left hlook => ?_
    obtain ⟨_, ⟨⟩, -, -, rfl⟩ := look_early hlook
    exact ih _ _

/-- What the rank `me`, which waits, goes on with. -/
def Receipt.next {τ : Type} (me : Rank) (w : Wanted)
    (next : Except CommFault Message → Program link τ) : Receipt → Program link τ
  | .message m => next (.ok m)
  | .lost peer => next (.error (.terminated me peer))
  | .nothing => .call (.receive w) next

/-- Who comes to nothing finds nothing in what is left. -/
theorem look_of_receive {me : Rank} {w : Wanted} {b : Mailbox}
    (h : (b.receive me w).receipt = .nothing) : (b.receive me w).mailbox.look w = .nothing := by
  induction b using look_induction w with
  | h b ih =>
    rw [receive_eq] at h ⊢
    cases hlook : b.look w with
    | early m left =>
      rw [hlook] at h
      exact ih m left hlook h
    | nothing => exact hlook
    | message | down | lost =>
      rw [hlook] at h
      nomatch h

end Mailbox

namespace Network

variable {net : Network} {me r : Rank}

theorem put_put (net : Network) (me : Rank) (a b : Option Mailbox) :
    (net.put me a).put me b = net.put me b :=
  congrArg Network.mk (List.set_set ..)

theorem put_of_mailbox? {b : Mailbox} (hbox : net.mailbox? me = some b) :
    net.put me (some b) = net := by
  refine eq_of_mailbox? (net.length_mailboxes_put me _) fun r _ => ?_
  rw [mailbox?_put_of_some hbox]
  split
  · next hr => rw [hr, hbox]
  · rfl

theorem mailbox?_of_isAlone (h : net.isAlone me) (hne : r ≠ me) : net.mailbox? r = none := by
  have hleft : (net.leave me).mailbox? r = net.mailbox? r := by rw [mailbox?_leave, if_neg hne]
  rw [← hleft, mailbox?]
  cases hbox : (net.leave me).mailboxes[r]? with
  | none => rfl
  | some b =>
    have hnone := List.all_eq_true.mp h b (List.mem_of_getElem? hbox)
    exact Option.isNone_iff_eq_none.mp hnone

/-- The network when the rank `me` has told these others that it unwinds. -/
def tellAll (me : Rank) (dests : List Rank) (net : Network) : Network :=
  dests.foldl (fun net dest => (net.send dest (.down me)).2) net

theorem length_tellAll {dests : List Rank} :
    (net.tellAll me dests).mailboxes.length = net.mailboxes.length := by
  induction dests generalizing net with
  | nil => rfl
  | cons dest dests ih => exact ih.trans (net.length_mailboxes_send dest _)

theorem mailbox?_tellAll {dests : List Rank} (hnodup : dests.Nodup) :
    (net.tellAll me dests).mailbox? r =
      if r ∈ dests then (net.mailbox? r).map (·.deliver (.down me)) else net.mailbox? r := by
  induction dests generalizing net with
  | nil => rfl
  | cons dest dests ih =>
    obtain ⟨hnew, hnodup⟩ := List.nodup_cons.mp hnodup
    refine (ih hnodup).trans ?_
    rw [mailbox?_send]
    by_cases hr : r = dest
    · subst hr
      simp [hnew]
    · simp [hr]

/-- To unwind is to tell all others and to leave. -/
theorem unwind_eq {size : Nat} (hlength : net.mailboxes.length = size) :
    net.unwind me = (net.tellAll me (Place.peers ⟨me, size⟩)).leave me := by
  have hlengths : (net.unwind me).mailboxes.length =
      ((net.tellAll me (Place.peers ⟨me, size⟩)).leave me).mailboxes.length := by
    rw [unwind, List.length_map, leave, leave, length_mailboxes_put, length_mailboxes_put,
      length_tellAll]
  refine eq_of_mailbox? hlengths fun r hr => ?_
  have hlt : r < size := by
    rwa [unwind, List.length_map, leave, length_mailboxes_put, hlength] at hr
  have hunwind : (net.unwind me).mailbox? r =
      ((net.leave me).mailbox? r).map (·.deliver (.down me)) := by
    simp only [unwind, mailbox?, List.getElem?_map, Option.join_map_eq_map_join]
  rw [hunwind, mailbox?_leave, mailbox?_leave, mailbox?_tellAll (Place.nodup_peers _)]
  by_cases hne : r = me
  · rw [if_pos hne, if_pos hne, Option.map_none]
  · rw [if_neg hne, if_neg hne, if_pos (Place.mem_peers.mpr ⟨hlt, hne⟩)]

/-- What a rank that waits goes on with. -/
def Answer.next {τ : Type} (w : Wanted) (next : Except CommFault Message → Program link τ) :
    Answer → Program link τ
  | .settled result => next result
  | .unsettled => .call (.receive w) next

end Network

/-! ## Steps of a crew -/

section

variable {σ ρ : Type} {rules : Crew.Rules σ ρ} {crew crew' : Crew σ ρ} {me r : Rank}
  {net net' : Network} {s : σ} {past : List ρ} {todo : List (Job ρ)}

theorem Hand.stage_proceed_ne_gone {count : Nat} :
    (Hand.proceed s past count todo).stage ≠ .gone := by
  cases todo with
  | nil => exact nofun
  | cons job todo => exact nofun

/-- The ranks without a mailbox are those there were before, and the one that has left. -/
theorem Hand.Step.absent_iff {alone : Prop} {hand hand' : Hand σ ρ}
    (hstep : Hand.Step rules alone me hand net hand' net') :
    net'.mailbox? r = none ↔ net.mailbox? r = none ∨ r = me ∧ hand'.stage = .gone := by
  cases hstep with
  | model | panic | lost | hungUp | giveUp | unwind | unwindAfter | told => simp
  | proceed => simp [Hand.stage_proceed_ne_gone]
  | send | tell =>
    rw [Network.mailbox?_send]
    split <;> simp
  | message hbox _ | early hbox _ | down hbox _ =>
    rw [Network.mailbox?_put_of_some hbox]
    split
    · next hr => simp [hr, hbox]
    · simp
  | leave =>
    rw [Network.mailbox?_leave]
    split
    · next hr => simp [hr]
    · next hr => simp [hr]

theorem Hand.Step.length_mailboxes {alone : Prop} {hand hand' : Hand σ ρ}
    (hstep : Hand.Step rules alone me hand net hand' net') :
    net'.mailboxes.length = net.mailboxes.length := by
  cases hstep with
  | model | panic | lost | hungUp | proceed | giveUp | unwind | unwindAfter | told => rfl
  | send | tell => exact Network.length_mailboxes_send _ _ _
  | message | early | down | leave => exact Network.length_mailboxes_put _ _ _

namespace Crew

/-- All ranks have their places in the network, and a mailbox there as long as they have not
left. -/
structure Attended (size : Nat) (crew : Crew σ ρ) : Prop where
  length : crew.network.mailboxes.length = size
  absent : ∀ r < size, crew.network.mailbox? r = none ↔ (crew.hands r).stage = .gone

theorem Attended.new {size count : Nat} {states : Rank → σ} {jobs : Rank → List (Job ρ)} :
    (Crew.new size count states jobs).Attended size := by
  refine ⟨List.length_replicate, fun r hr => ?_⟩
  have hbox : (Crew.new size count states jobs).network.mailbox? r = some .empty :=
    Network.mailbox?_new hr
  rw [hbox]
  exact ⟨nofun, fun h => absurd h Hand.stage_proceed_ne_gone⟩

theorem Attended.step (h : crew.Attended rules.size) (hstep : Step rules crew crew') :
    crew'.Attended rules.size := by
  obtain ⟨me, hme, hand, net, hstep, rfl⟩ := hstep
  refine ⟨hstep.length_mailboxes.trans h.length, fun r hr => ?_⟩
  show net.mailbox? r = none ↔ (Function.update crew.hands me hand r).stage = .gone
  rw [hstep.absent_iff, h.absent r hr]
  by_cases hne : r = me
  · subst hne
    simp [hstep.stage_ne_gone]
  · simp [hne]

theorem Attended.reaches (h : crew.Attended rules.size) (hreaches : Reaches rules crew crew') :
    crew'.Attended rules.size := by
  induction hreaches with
  | refl => exact h
  | tail _ hstep ih => exact ih.step hstep

theorem Attended.isAlone {size : Nat} (h : crew.Attended size) (halone : crew.network.isAlone me) :
    crew.IsAlone size me :=
  fun r hr hne => .inr ((h.absent r hr).mp (Network.mailbox?_of_isAlone halone hne))

theorem IsAlone.update {size : Nat} {hand : Hand σ ρ} (h : crew.IsAlone size me) :
    IsAlone size ⟨Function.update crew.hands me hand, net⟩ me := by
  intro r hr hne
  show (Function.update crew.hands me hand r).IsSilent
  rw [Function.update_of_ne hne]
  exact h r hr hne

theorem step_of_hand {hand hand' : Hand σ ρ} (hme : me < rules.size)
    (hhand : crew.hands me = hand)
    (hstep : Hand.Step rules (crew.IsAlone rules.size me) me hand crew.network hand' net') :
    Step rules crew ⟨Function.update crew.hands me hand', net'⟩ :=
  ⟨me, hme, hand', net', hhand ▸ hstep, rfl⟩

/-- What a rank does from where its first steps have taken it, it does after them. -/
theorem reaches_trans_update {before after : Hand σ ρ}
    (hfirst : Reaches rules crew ⟨Function.update crew.hands me before, net⟩)
    (hrest : Reaches rules ⟨Function.update crew.hands me before, net⟩
      ⟨Function.update (Function.update crew.hands me before) me after, net'⟩) :
    Reaches rules crew ⟨Function.update crew.hands me after, net'⟩ := by
  rw [Function.update_idem] at hrest
  exact hfirst.trans hrest

/-- A rank that unwinds tells the peers that are left, and leaves. -/
theorem reaches_of_unwinding {untold : List Rank} (hme : me < rules.size)
    (hhand : crew.hands me = ⟨s, past, .unwinding untold⟩) :
    Reaches rules crew ⟨Function.update crew.hands me ⟨s, past, .gone⟩,
      (crew.network.tellAll me untold).leave me⟩ := by
  induction untold generalizing crew with
  | nil =>
    refine reaches_trans_update (.single (step_of_hand hme hhand .told)) ?_
    exact .single (step_of_hand hme (Function.update_self ..) .leave)
  | cons dest untold ih =>
    refine reaches_trans_update (.single (step_of_hand hme hhand .tell)) ?_
    exact ih (Function.update_self ..)

/-- A rank that waits puts aside what came early, and goes on with what it comes to. -/
theorem reaches_of_mailbox {w : Wanted} {b : Mailbox}
    {next : Except CommFault Message → Program link (ρ × Nat)} (hme : me < rules.size)
    (hhand : crew.hands me = ⟨s, past, .working (.call (.receive w) next) todo⟩)
    (hbox : crew.network.mailbox? me = some b) :
    Reaches rules crew
      ⟨Function.update crew.hands me
          ⟨s, past, .working ((b.receive me w).receipt.next me w next) todo⟩,
        crew.network.put me (some (b.receive me w).mailbox)⟩ := by
  induction b using Mailbox.look_induction w generalizing crew with
  | h b ih =>
    rw [Mailbox.receive_eq]
    cases hlook : b.look w with
    | message m left => exact .single (step_of_hand hme hhand (.message hbox hlook))
    | early m left =>
      have hput : (crew.network.put me (some left)).mailbox? me = some left := by
        rw [Network.mailbox?_put_of_some hbox, if_pos rfl]
      refine reaches_trans_update (.single (step_of_hand hme hhand (.early hbox hlook))) ?_
      have hrest := @ih m left hlook ⟨Function.update crew.hands me
        ⟨s, past, .working (.call (.receive w) next) todo⟩, crew.network.put me (some left)⟩
        (Function.update_self ..) hput
      rw [Network.put_put] at hrest
      exact hrest
    | down peer left => exact .single (step_of_hand hme hhand (.down hbox hlook))
    | lost peer =>
      rw [Network.put_of_mailbox? hbox]
      exact .single (step_of_hand hme hhand (.lost hbox hlook))
    | nothing =>
      rw [Network.put_of_mailbox? hbox]
      show Reaches rules crew ⟨Function.update crew.hands me
        ⟨s, past, .working (.call (.receive w) next) todo⟩, crew.network⟩
      rw [← hhand, Function.update_eq_self]

/-- A rank that waits goes on with its answer. -/
theorem reaches_of_receive {w : Wanted}
    {next : Except CommFault Message → Program link (ρ × Nat)} (h : crew.Attended rules.size)
    (hme : me < rules.size)
    (hhand : crew.hands me = ⟨s, past, .working (.call (.receive w) next) todo⟩) :
    Reaches rules crew ⟨Function.update crew.hands me
        ⟨s, past, .working ((crew.network.receive me w).1.next w next) todo⟩,
      (crew.network.receive me w).2.2⟩ := by
  cases hbox : crew.network.mailbox? me with
  | none =>
    have hgone := (h.absent me hme).mp hbox
    rw [hhand] at hgone
    nomatch hgone
  | some b =>
    have hmailbox := reaches_of_mailbox hme hhand hbox
    have hput : (crew.network.put me (some (b.receive me w).mailbox)).mailbox? me =
        some (b.receive me w).mailbox := by
      rw [Network.mailbox?_put_of_some hbox, if_pos rfl]
    rw [Network.receive, hbox]
    dsimp only
    cases hreceipt : (b.receive me w).receipt with
    | message | lost =>
      rw [hreceipt] at hmailbox
      exact hmailbox
    | nothing =>
      rw [hreceipt] at hmailbox
      rw [Network.answerTo]
      split
      · next halone =>
        -- everybody else has left, so nothing more will be sent to the rank
        have hlook := Mailbox.look_of_receive hreceipt
        refine reaches_trans_update hmailbox (.single ?_)
        exact step_of_hand hme (Function.update_self ..)
          (.hungUp hput hlook (h.isAlone halone).update)
      · exact hmailbox

end Crew

end

/-! ## Groups -/

variable {σ σ' τ : Type} {plain : Rank → Responder σ'} {forget : σ → σ'} {size : Nat} {me : Rank}

/-- The event is reported by an endpoint, and not by the program of its rank. -/
def Event.ofEndpoint {α : Type} : Event α → Bool
  | earlyMessage .. | peerTerminated .. | unwinding _ => true
  | _ => false

/-- The responder answers as `plain` does, with a state of which that one forgets a part; the
reports of an endpoint change nothing but that part. -/
structure Responder.Extends (respond : Responder σ) (plain : Responder σ') (forget : σ → σ') :
    Prop where
  answer : ∀ c s, plain c (forget s) = ((respond c s).1, forget (respond c s).2)
  note : ∀ event s, event.ofEndpoint → forget (respond (.note event) s).2 = forget s

theorem Responder.Extends.forget_noteAll {respond : Responder σ} {plain : Responder σ'}
    (h : respond.Extends plain forget) {events : List (Event Double)}
    (hevents : ∀ event ∈ events, event.ofEndpoint) (s : σ) :
    forget (respond.noteAll events s) = forget s := by
  induction events generalizing s with
  | nil => rfl
  | cons event events ih =>
    obtain ⟨hevent, hevents⟩ := List.forall_mem_cons.mp hevents
    exact (ih hevents _).trans (h.note event s hevent)

/-- A responder that keeps all reports, for a model whose answers depend on no state. -/
def Responder.logging (answer : (c : ModelCall Double) → Option ((modelAccess Double).Reply c)) :
    Responder (List (Event Double)) := fun c events =>
  match c with
  | .note event => (some (), event :: events)
  | c => (answer c, events)

theorem Responder.extends_logging
    {answer : (c : ModelCall Double) → Option ((modelAccess Double).Reply c)}
    (hnote : ∀ event, answer (.note event) = some ()) :
    (logging answer).Extends (fun c (s : Unit) => (answer c, s)) fun _ => () := by
  refine ⟨fun c events => ?_, fun _ _ _ => rfl⟩
  cases c with
  | note event => exact Prod.ext (hnote event) rfl
  | _ => rfl

/-- What is reported of a wait is reported by the endpoint. -/
theorem Mailbox.ofEndpoint_of_receive {me : Rank} {w : Wanted} (b : Mailbox) :
    ∀ event ∈ (b.receive me w).events, event.ofEndpoint := by
  induction b using look_induction w with
  | h b ih =>
    rw [receive_eq]
    cases hlook : b.look w with
    | early m left => exact List.forall_mem_cons.mpr ⟨rfl, ih m left hlook⟩
    | down peer left => exact List.forall_mem_singleton.mpr rfl
    | message | lost | nothing => exact nofun

theorem Network.ofEndpoint_of_receive (net : Network) (me : Rank) (w : Wanted) :
    ∀ event ∈ (net.receive me w).2.1, event.ofEndpoint := by
  rw [receive]
  split
  · exact nofun
  · next b _ => exact b.ofEndpoint_of_receive

/-- The program that is the job of a rank, with the result of the rank alone. -/
def Program.ofJob (q : Program link ((τ × Nat) × Nat)) : Program link τ :=
  q.bind fun r => .done r.1.1

theorem Program.overLink_eq (p : Program rankAccess τ) (here : Place) :
    p.overLink here = ((p.job here).run 0).ofJob := by
  show ((p.interpret here.overLink).run 0).bind _ =
    (((p.interpret here.overLink).run 0).bind _).bind _
  rw [Program.bind_assoc]
  rfl

/-- A rank that is in this phase, with its model in this state, is where the hand is. -/
inductive Phase.Shows : Phase τ → σ' → Hand σ' (τ × Nat) → Prop
  | running {q : Program link ((τ × Nat) × Nat)} {s : σ'} :
    Shows (.running q.ofJob) s ⟨s, [], .working q []⟩
  | finished {r : τ} {count : Nat} {s : σ'} : Shows (.finished r) s ⟨s, [(r, count)], .gone⟩
  | unwound {s : σ'} : Shows .unwound s ⟨s, [], .gone⟩

/-- The network after a turn: a rank that has finished leaves. -/
def Phase.settle (me : Rank) : Phase τ → Network → Network
  | .finished _, net => net.leave me
  | _, net => net

theorem Group.turn_running (respond : Responder σ) (s : σ) (p : Program link τ) (net : Network) :
    Group.turn me ⟨respond, s, .running p⟩ net =
      (⟨respond, (p.advance respond me s net).2.1, (p.advance respond me s net).1⟩,
        (p.advance respond me s net).1.settle me (p.advance respond me s net).2.2) := by
  simp only [turn]
  rcases p.advance respond me s net with ⟨phase, s', net'⟩
  cases phase with
  | running p' => rfl
  | finished r => rfl
  | unwound => rfl

/-- The rank `me` of the crew can come by its own steps to where such a turn ends. -/
def Crew.TurnsTo (plain : Rank → Responder σ') (forget : σ → σ') (size : Nat) (me : Rank)
    (crew : Crew σ' (τ × Nat)) (turn : Phase τ × σ × Network) : Prop :=
  ∃ hand, Reaches (calmRules size plain) crew
      ⟨Function.update crew.hands me hand, turn.1.settle me turn.2.2⟩ ∧
    turn.1.Shows (forget turn.2.1) hand

theorem Crew.TurnsTo.of_reaches {crew : Crew σ' (τ × Nat)} {turn : Phase τ × σ × Network}
    {before : Hand σ' (τ × Nat)} {net : Network}
    (hfirst : Reaches (calmRules size plain) crew ⟨Function.update crew.hands me before, net⟩)
    (h : TurnsTo plain forget size me ⟨Function.update crew.hands me before, net⟩ turn) :
    TurnsTo plain forget size me crew turn := by
  obtain ⟨hand, hreaches, hshows⟩ := h
  exact ⟨hand, reaches_trans_update hfirst hreaches, hshows⟩

/-- A rank whose model does not answer unwinds. -/
theorem Crew.TurnsTo.of_panic {respond : Responder σ}
    (hextends : respond.Extends (plain me) forget) {crew : Crew σ' (τ × Nat)}
    (h : crew.Attended size) (hme : me < size) {c : ModelCall Double}
    {next : (modelAccess Double).Reply c → Program link ((τ × Nat) × Nat)} {s s₁ : σ}
    (hhand : crew.hands me = ⟨forget s, [], .working (.call (.model c) next) []⟩)
    (hreply : respond c s = (none, s₁)) :
    crew.TurnsTo plain forget size me
      (.unwound, respond.noteAll [.unwinding me] s₁, crew.network.unwind me) := by
  have hanswer := hextends.answer c s
  rw [hreply] at hanswer
  have hnote : forget (respond.noteAll [.unwinding me] s₁) = forget s₁ :=
    hextends.forget_noteAll (List.forall_mem_singleton.mpr rfl) s₁
  refine ⟨⟨forget s₁, [], .gone⟩, ?_, ?_⟩
  · show Reaches _ _ ⟨_, crew.network.unwind me⟩
    rw [Network.unwind_eq h.length]
    refine reaches_trans_update (.single (step_of_hand hme hhand (.panic hanswer))) ?_
    exact reaches_of_unwinding hme (Function.update_self ..)
  · show Phase.Shows .unwound (forget (respond.noteAll [.unwinding me] s₁)) _
    rw [hnote]
    exact .unwound

/-- What a rank does in its turn, it does step by step. -/
theorem Program.advance_turnsTo {respond : Responder σ}
    (hextends : respond.Extends (plain me) forget) {crew : Crew σ' (τ × Nat)}
    (h : crew.Attended size) (hme : me < size) {q : Program link ((τ × Nat) × Nat)} {s : σ}
    (hhand : crew.hands me = ⟨forget s, [], .working q []⟩) :
    crew.TurnsTo plain forget size me (q.ofJob.advance respond me s crew.network) := by
  -- on the program: each of its calls is a number of steps, after which the rest of it goes on
  induction q generalizing crew s with
  | done r =>
    obtain ⟨⟨r, count⟩, count'⟩ := r
    refine ⟨⟨forget s, [(r, count)], .gone⟩, ?_, .finished⟩
    refine Crew.reaches_trans_update (.single (Crew.step_of_hand hme hhand .proceed)) ?_
    exact .single (Crew.step_of_hand hme (Function.update_self ..) .leave)
  | call c next ih =>
    cases c with
    | model c =>
      show crew.TurnsTo plain forget size me (advance respond me
        (.call (.model c) fun reply => (next reply).ofJob) s crew.network)
      rw [advance]
      rcases hreply : respond c s with ⟨_ | reply, s₁⟩
      · exact .of_panic hextends h hme hhand hreply
      · have hanswer := hextends.answer c s
        rw [hreply] at hanswer
        have hstep : Crew.Step (Crew.calmRules size plain) crew _ :=
          Crew.step_of_hand hme hhand (.model hanswer)
        exact .of_reaches (.single hstep) (ih reply (h.step hstep) (Function.update_self ..))
    | send dest m =>
      have hstep : Crew.Step (Crew.calmRules size plain) crew _ :=
        Crew.step_of_hand hme hhand .send
      exact .of_reaches (.single hstep) (ih _ (h.step hstep) (Function.update_self ..))
    | receive w =>
      have hreaches : Crew.Reaches (Crew.calmRules size plain) crew _ :=
        Crew.reaches_of_receive h hme hhand
      have hnote := hextends.forget_noteAll (crew.network.ofEndpoint_of_receive me w) s
      show crew.TurnsTo plain forget size me (advance respond me
        (.call (.receive w) fun reply => (next reply).ofJob) s crew.network)
      rw [advance]
      rw [← hnote] at hreaches
      generalize crew.network.receive me w = received at hreaches ⊢
      obtain ⟨answer, events, net⟩ := received
      cases answer with
      | settled result =>
        exact .of_reaches hreaches (ih result (h.reaches hreaches) (Function.update_self ..))
      | unsettled =>
        exact ⟨_, hreaches, @Phase.Shows.running _ _ (.call (.receive w) next) _⟩

/-- A rank of a group is where the hand is. -/
structure Member.Shows (plain : Responder σ') (forget : σ → σ') (member : Member σ τ)
    (hand : Hand σ' (τ × Nat)) : Prop where
  responder : member.respond.Extends plain forget
  phase : member.phase.Shows (forget member.state) hand

namespace Group

variable {g : Group σ τ} {crew : Crew σ' (τ × Nat)} {member : Member σ τ} {net : Network}

/-- The ranks of the group are where they are in the crew, over the same network. -/
structure Shows (plain : Rank → Responder σ') (forget : σ → σ') (size : Nat) (g : Group σ τ)
    (crew : Crew σ' (τ × Nat)) : Prop where
  length : g.members.length = size
  network : crew.network = g.network
  member : ∀ r (member : Member σ τ), g.members[r]? = some member →
    member.Shows (plain r) forget (crew.hands r)

/-- A rank has its turn. -/
theorem turn_reaches (h : crew.Attended size) (hshows : g.Shows plain forget size crew)
    (hmember : g.members[me]? = some member) :
    ∃ crew', Crew.Reaches (Crew.calmRules size plain) crew crew' ∧
      Shows plain forget size
        ⟨g.members.set me (turn me member g.network).1, (turn me member g.network).2⟩ crew' := by
  obtain ⟨hlt, hget⟩ := List.getElem?_eq_some_iff.mp hmember
  obtain ⟨hextends, hphase⟩ := hshows.member me member hmember
  have hidle : Shows plain forget size ⟨g.members.set me member, g.network⟩ crew := by
    rwa [← hget, List.set_getElem_self]
  obtain ⟨respond, s, phase⟩ := member
  generalize hhand : crew.hands me = hand at hphase
  cases hphase with
  | finished | unwound => exact ⟨crew, .refl, hidle⟩
  | running =>
    obtain ⟨hand, hreaches, hturn⟩ :=
      Program.advance_turnsTo hextends h (hshows.length ▸ hlt) hhand
    rw [turn_running, ← hshows.network]
    refine ⟨_, hreaches, (List.length_set ..).trans hshows.length, rfl, fun r member hr => ?_⟩
    show member.Shows _ _ (Function.update crew.hands me hand r)
    rw [List.getElem?_set] at hr
    by_cases hne : me = r
    · subst hne
      rw [if_pos rfl, if_pos hlt] at hr
      obtain rfl := Option.some.inj hr
      rw [Function.update_self]
      exact ⟨hextends, hturn⟩
    · rw [if_neg hne] at hr
      rw [Function.update_of_ne (Ne.symm hne)]
      exact hshows.member r member hr

/-- Every rank from some rank on has its turn. -/
theorem turns_reaches {before members : List (Member σ τ)} (h : crew.Attended size)
    (hshows : Shows plain forget size ⟨before ++ members, net⟩ crew) :
    ∃ crew', Crew.Reaches (Crew.calmRules size plain) crew crew' ∧
      Shows plain forget size
        ⟨before ++ (turns before.length members net).1, (turns before.length members net).2⟩
        crew' := by
  -- on the ranks whose turn is still to come; those that have had theirs are put before them
  induction members generalizing before crew net with
  | nil => exact ⟨crew, .refl, hshows⟩
  | cons member members ih =>
    have hmember : (before ++ member :: members)[before.length]? = some member := by simp
    obtain ⟨crew₁, hturn, hshows₁⟩ := turn_reaches h hshows hmember
    have hset : ∀ member', (before ++ member :: members).set before.length member' =
        before ++ [member'] ++ members := by simp
    rw [hset] at hshows₁
    obtain ⟨crew₂, hrest, hshows₂⟩ := ih (h.reaches hturn) hshows₁
    refine ⟨crew₂, hturn.trans hrest, ?_⟩
    rw [turns]
    rwa [List.length_append, List.length_singleton, List.append_assoc] at hshows₂

/-- The ranks take turns for some rounds. -/
theorem run_reaches (rounds : Nat) (h : crew.Attended size)
    (hshows : g.Shows plain forget size crew) :
    ∃ crew', Crew.Reaches (Crew.calmRules size plain) crew crew' ∧
      (g.run rounds).Shows plain forget size crew' := by
  induction rounds generalizing g crew with
  | zero => exact ⟨crew, .refl, hshows⟩
  | succ rounds ih =>
    rw [run]
    split
    · obtain ⟨crew₁, hround, hshows₁⟩ := @turns_reaches _ _ _ _ _ _ _ _ [] _ h hshows
      obtain ⟨crew₂, hrest, hshows₂⟩ := ih (h.reaches hround) hshows₁
      exact ⟨crew₂, hround.trans hrest, hshows₂⟩
    · exact ⟨crew, .refl, hshows⟩

variable {respond : Rank → Responder σ} {states : Rank → σ} {programs : Rank → Program rankAccess τ}
  {transfers : List Transfer} {results : Rank → τ}

/-- A group of this size, whose endpoints carry out a program for every rank. -/
def ofPrograms (size : Nat) (respond : Rank → Responder σ) (states : Rank → σ)
    (programs : Rank → Program rankAccess τ) : Group σ τ :=
  .new ((List.range size).map fun r => (respond r, states r, (programs r).overLink ⟨r, size⟩))

theorem shows_ofPrograms (hextends : ∀ r, (respond r).Extends (plain r) forget) :
    (ofPrograms size respond states programs).Shows plain forget size
      (.ofPrograms size 0 (fun r => forget (states r)) programs) := by
  refine ⟨by simp [ofPrograms, new], by simp [ofPrograms, new, Crew.ofPrograms, Crew.new], ?_⟩
  intro r member hr
  simp only [ofPrograms, new, List.map_map, List.getElem?_map, Option.map_eq_some_iff] at hr
  obtain ⟨_, hr, rfl⟩ := hr
  obtain ⟨-, rfl⟩ := List.getElem?_eq_some_iff.mp hr
  rw [List.getElem_range]
  refine ⟨hextends r, ?_⟩
  show Phase.Shows (.running ((programs r).overLink ⟨r, size⟩)) (forget (states r)) _
  rw [Program.overLink_eq]
  exact .running

/-- A group that takes turns is where a crew with the same programs can come to. -/
theorem run_ofPrograms_reaches (hextends : ∀ r, (respond r).Extends (plain r) forget)
    (rounds : Nat) :
    ∃ crew, Crew.Reaches (Crew.calmRules size plain)
        (.ofPrograms size 0 (fun r => forget (states r)) programs) crew ∧
      ((ofPrograms size respond states programs).run rounds).Shows plain forget size crew :=
  run_reaches rounds .new (shows_ofPrograms hextends)

theorem stage_of_not_isRunning (hshows : g.Shows plain forget size crew)
    (hend : g.isRunning = false) (hme : me < size) : (crew.hands me).stage = .gone := by
  have hlt : me < g.members.length := hshows.length.symm ▸ hme
  have hphase := (hshows.member me _ (List.getElem?_eq_getElem hlt)).phase
  have hidle := List.any_eq_false.mp hend _ (List.getElem_mem hlt)
  generalize g.members[me] = member, crew.hands me = hand at hphase hidle
  obtain ⟨respond, s, phase⟩ := member
  cases hphase with
  | running => exact absurd rfl hidle
  | finished | unwound => rfl

/-- A rank has no result but the one it has in lockstep, and when no rank has more to do, it has
that. -/
theorem phase_eq (hextends : ∀ r, (respond r).Extends (plain r) forget)
    (h : Lockstep size plain (fun r => (programs r).pause (plain r) (forget (states r))) transfers
      (some results)) {rounds : Nat}
    (hmember : ((ofPrograms size respond states programs).run rounds).members[me]? = some member) :
    (∀ r, member.phase = .finished r → r = results me) ∧
      (((ofPrograms size respond states programs).run rounds).isRunning = false →
        member.phase = .finished (results me)) := by
  obtain ⟨crew, hreaches, hshows⟩ := run_ofPrograms_reaches hextends rounds
  have hme := (List.getElem?_eq_some_iff.mp hmember).1
  rw [hshows.length] at hme
  have hpast := h.past_eq hreaches hme
  have hphase := (hshows.member me member hmember).phase
  have hend : ((ofPrograms size respond states programs).run rounds).isRunning = false →
      (crew.hands me).past = [(results me, 0 + transfers.length)] := by
    intro hidle
    refine h.past_of_stuck hreaches ?_ hme
    rintro _ ⟨r, hr, hand, net, hstep, -⟩
    exact hstep.stage_ne_gone (stage_of_not_isRunning hshows hidle hr)
  generalize member.phase = phase, crew.hands me = hand at hphase hpast hend ⊢
  cases hphase with
  | @finished r count _ =>
    have hr : r = results me := by
      rcases hpast with hnil | hsome
      · nomatch hnil
      · exact congrArg Prod.fst (List.singleton_inj.mp hsome)
    subst hr
    exact ⟨fun _ heq => (Phase.finished.inj heq).symm, fun _ => rfl⟩
  | running | unwound => exact ⟨nofun, fun hidle => nomatch hend hidle⟩

end Group

end Nlp
