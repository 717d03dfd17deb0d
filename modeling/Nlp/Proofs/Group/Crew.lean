import Nlp.Group.Run
import Nlp.Proofs.Group.Mailbox
import Mathlib.Data.DFinsupp.WellFounded
import Mathlib.Logic.Relation

/-!
# Crews

The ranks of a group side by side, in any order: each step is one call of one rank, one look into
its mailbox, or a part of its end.  A rank carries out its jobs one after another and keeps their
results.  Where the rules allow it, a rank unwinds at any point; it then tells its peers one by one,
while they go on.

## Main definitions

* `Job`, `Stage`, `Hand`, `Crew`: what the ranks do.
* `Crew.Rules`, `Hand.Step`, `Crew.Step`: what can happen next.
* `Crew.Reaches`: what can happen.

## Main results

* `Crew.step_wellFounded`: no crew goes on forever.
* `Crew.exists_stuck`: every crew comes to a point where no rank can go on.
-/

namespace Nlp

/-- A program of an endpoint that has taken part in some collectives before. -/
abbrev Job (ρ : Type) : Type :=
  StateT Nat (Program link) ρ

/-- What a rank is doing. -/
inductive Stage (ρ : Type) where
  /-- It carries out a job, and has more of them. -/
  | working (program : Program link (ρ × Nat)) (todo : List (Job ρ))
  /-- It unwinds, and some peers do not know yet. -/
  | unwinding (untold : List Rank)
  /-- It will send nothing more. -/
  | closing
  /-- It takes in nothing more. -/
  | gone

/-- A rank at work. -/
structure Hand (σ ρ : Type) where
  /-- The state of its model. -/
  state : σ
  /-- The results of its jobs. -/
  past : List ρ
  /-- What it is doing. -/
  stage : Stage ρ

/-- A rank that goes on to its next job, or to its end if that was the last. -/
def Hand.proceed {σ ρ : Type} (state : σ) (past : List ρ) (count : Nat) :
    (todo : List (Job ρ)) → Hand σ ρ
  | [] => ⟨state, past, .closing⟩
  | job :: todo => ⟨state, past, .working (job.run count) todo⟩

/-- Ranks at work, with their network. -/
structure Crew (σ ρ : Type) where
  /-- The ranks. -/
  hands : Rank → Hand σ ρ
  /-- The network. -/
  network : Network

/-- What can happen in a crew. -/
structure Crew.Rules (σ ρ : Type) where
  /-- The number of ranks. -/
  size : Nat
  /-- The answers of the ranks' models. -/
  respond : Rank → Responder σ
  /-- The results after which a rank may leave its other jobs. -/
  givesUp : ρ → Prop
  /-- Ranks may unwind at any point. -/
  faulty : Prop

variable {σ ρ : Type}

/-- Nothing more will be sent by the rank. -/
def Hand.IsSilent (hand : Hand σ ρ) : Prop :=
  hand.stage = .closing ∨ hand.stage = .gone

/-- What can happen next at the rank `me`, where `alone` says that nothing more will be sent to it
by anybody. -/
inductive Hand.Step (rules : Crew.Rules σ ρ) (alone : Prop) (me : Rank) :
    Hand σ ρ → Network → Hand σ ρ → Network → Prop
  /-- The model answers. -/
  | model {s s' : σ} {past : List ρ} {c : ModelCall Double} {reply : (modelAccess Double).Reply c}
      {next : (modelAccess Double).Reply c → Program link (ρ × Nat)} {todo : List (Job ρ)}
      {net : Network} (hreply : rules.respond me c s = (some reply, s')) :
    Step rules alone me ⟨s, past, .working (.call (.model c) next) todo⟩ net
      ⟨s', past, .working (next reply) todo⟩ net
  /-- The model ends the rank. -/
  | panic {s s' : σ} {past : List ρ} {c : ModelCall Double}
      {next : (modelAccess Double).Reply c → Program link (ρ × Nat)} {todo : List (Job ρ)}
      {net : Network} (hreply : rules.respond me c s = (none, s')) :
    Step rules alone me ⟨s, past, .working (.call (.model c) next) todo⟩ net
      ⟨s', past, .unwinding (Place.peers ⟨me, rules.size⟩)⟩ net
  /-- A message is sent. -/
  | send {s : σ} {past : List ρ} {dest : Rank} {m : Message}
      {next : Bool → Program link (ρ × Nat)} {todo : List (Job ρ)} {net : Network} :
    Step rules alone me ⟨s, past, .working (.call (.send dest m) next) todo⟩ net
      ⟨s, past, .working (next (net.send dest (.message m)).1) todo⟩
      (net.send dest (.message m)).2
  /-- The message that is waited for has come. -/
  | message {s : σ} {past : List ρ} {w : Wanted} {m : Message} {b left : Mailbox}
      {next : Except CommFault Message → Program link (ρ × Nat)} {todo : List (Job ρ)}
      {net : Network} (hbox : net.mailbox? me = some b) (hlook : b.look w = .message m left) :
    Step rules alone me ⟨s, past, .working (.call (.receive w) next) todo⟩ net
      ⟨s, past, .working (next (.ok m)) todo⟩ (net.put me (some left))
  /-- Another message has come, and is put aside. -/
  | early {s : σ} {past : List ρ} {w : Wanted} {m : Message} {b left : Mailbox}
      {next : Except CommFault Message → Program link (ρ × Nat)} {todo : List (Job ρ)}
      {net : Network} (hbox : net.mailbox? me = some b) (hlook : b.look w = .early m left) :
    Step rules alone me ⟨s, past, .working (.call (.receive w) next) todo⟩ net
      ⟨s, past, .working (.call (.receive w) next) todo⟩ (net.put me (some left))
  /-- A peer is found to have unwound. -/
  | down {s : σ} {past : List ρ} {w : Wanted} {peer : Rank} {b left : Mailbox}
      {next : Except CommFault Message → Program link (ρ × Nat)} {todo : List (Job ρ)}
      {net : Network} (hbox : net.mailbox? me = some b) (hlook : b.look w = .down peer left) :
    Step rules alone me ⟨s, past, .working (.call (.receive w) next) todo⟩ net
      ⟨s, past, .working (next (.error (.terminated me peer))) todo⟩ (net.put me (some left))
  /-- A peer is known to have unwound. -/
  | lost {s : σ} {past : List ρ} {w : Wanted} {peer : Rank} {b : Mailbox}
      {next : Except CommFault Message → Program link (ρ × Nat)} {todo : List (Job ρ)}
      {net : Network} (hbox : net.mailbox? me = some b) (hlook : b.look w = .lost peer) :
    Step rules alone me ⟨s, past, .working (.call (.receive w) next) todo⟩ net
      ⟨s, past, .working (next (.error (.terminated me peer))) todo⟩ net
  /-- Nothing has come, and nothing will. -/
  | hungUp {s : σ} {past : List ρ} {w : Wanted} {b : Mailbox}
      {next : Except CommFault Message → Program link (ρ × Nat)} {todo : List (Job ρ)}
      {net : Network} (hbox : net.mailbox? me = some b) (hlook : b.look w = .nothing)
      (halone : alone) :
    Step rules alone me ⟨s, past, .working (.call (.receive w) next) todo⟩ net
      ⟨s, past, .working (next (.error (.everyPeerHungUp me))) todo⟩ net
  /-- A job is done. -/
  | proceed {s : σ} {past : List ρ} {r : ρ} {count : Nat} {todo : List (Job ρ)} {net : Network} :
    Step rules alone me ⟨s, past, .working (.done (r, count)) todo⟩ net
      (.proceed s (past ++ [r]) count todo) net
  /-- A job is done, and the others are left. -/
  | giveUp {s : σ} {past : List ρ} {r : ρ} {count : Nat} {todo : List (Job ρ)} {net : Network}
      (hr : rules.givesUp r) :
    Step rules alone me ⟨s, past, .working (.done (r, count)) todo⟩ net
      ⟨s, past ++ [r], .closing⟩ net
  /-- The rank unwinds. -/
  | unwind {s : σ} {past : List ρ} {program : Program link (ρ × Nat)} {todo : List (Job ρ)}
      {net : Network} (hfaulty : rules.faulty) :
    Step rules alone me ⟨s, past, .working program todo⟩ net
      ⟨s, past, .unwinding (Place.peers ⟨me, rules.size⟩)⟩ net
  /-- A job is done, and the rank unwinds. -/
  | unwindAfter {s : σ} {past : List ρ} {r : ρ} {count : Nat} {todo : List (Job ρ)} {net : Network}
      (hfaulty : rules.faulty) :
    Step rules alone me ⟨s, past, .working (.done (r, count)) todo⟩ net
      ⟨s, past ++ [r], .unwinding (Place.peers ⟨me, rules.size⟩)⟩ net
  /-- A peer is told. -/
  | tell {s : σ} {past : List ρ} {dest : Rank} {untold : List Rank} {net : Network} :
    Step rules alone me ⟨s, past, .unwinding (dest :: untold)⟩ net ⟨s, past, .unwinding untold⟩
      (net.send dest (.down me)).2
  /-- Every peer has been told. -/
  | told {s : σ} {past : List ρ} {net : Network} :
    Step rules alone me ⟨s, past, .unwinding []⟩ net ⟨s, past, .closing⟩ net
  /-- The rank leaves. -/
  | leave {s : σ} {past : List ρ} {net : Network} :
    Step rules alone me ⟨s, past, .closing⟩ net ⟨s, past, .gone⟩ (net.leave me)

theorem Hand.Step.stage_ne_gone {rules : Crew.Rules σ ρ} {alone : Prop} {me : Rank}
    {hand hand' : Hand σ ρ} {net net' : Network}
    (h : Hand.Step rules alone me hand net hand' net') : hand.stage ≠ .gone := by
  cases h <;> exact fun hgone => nomatch hgone

namespace Crew

/-- A crew with a list of jobs for every rank, after this many collectives. -/
def new (size count : Nat) (states : Rank → σ) (jobs : Rank → List (Job ρ)) : Crew σ ρ :=
  ⟨fun r => .proceed (states r) [] count (jobs r), .new size⟩

/-- Nothing more will be sent to the rank. -/
def IsAlone (size : Nat) (crew : Crew σ ρ) (me : Rank) : Prop :=
  ∀ r < size, r ≠ me → (crew.hands r).IsSilent

/-- One step of one rank. -/
def Step (rules : Rules σ ρ) (crew crew' : Crew σ ρ) : Prop :=
  ∃ me < rules.size, ∃ hand net,
    Hand.Step rules (crew.IsAlone rules.size me) me (crew.hands me) crew.network hand net ∧
      crew' = ⟨Function.update crew.hands me hand, net⟩

/-- Any number of steps, of any ranks in any order. -/
abbrev Reaches (rules : Rules σ ρ) : Crew σ ρ → Crew σ ρ → Prop :=
  Relation.ReflTransGen (Step rules)

end Crew

/-! ## Every run comes to an end -/

/-- One program is what another goes on with after a reply. -/
def Program.Child {I : Interface} {τ : Type} (q p : Program I τ) : Prop :=
  ∃ c next reply, p = .call c next ∧ q = next reply

theorem Program.child_wellFounded {I : Interface} {τ : Type} :
    WellFounded (Program.Child : Program I τ → Program I τ → Prop) := by
  refine ⟨fun p => ?_⟩
  induction p with
  | done r => exact ⟨_, fun q ⟨_, _, _, h, _⟩ => nomatch h⟩
  | call c next ih =>
    refine ⟨_, ?_⟩
    rintro q ⟨_, _, reply, ⟨⟩, rfl⟩
    exact ih reply

namespace Stage

/-- How many parts of its work and its end are before a rank, in a group of this size. -/
def height (size : Nat) : Stage ρ → Nat
  | working _ todo => todo.length + size + 3
  | unwinding untold => untold.length + 2
  | closing => 1
  | gone => 0

/-- One rank is at a later point of the same job. -/
def Child : Stage ρ → Stage ρ → Prop
  | working q _, working p _ => q.Child p
  | _, _ => False

theorem child_wellFounded : WellFounded (Child : Stage ρ → Stage ρ → Prop) := by
  refine ⟨fun stage => ?_⟩
  cases stage with
  | working p todo =>
    -- only a rank at work has children, and they are at work on a child of its program
    induction Program.child_wellFounded.apply p generalizing todo with
    | intro p _ ih =>
      refine ⟨_, fun stage h => ?_⟩
      cases stage with
      | working q todo' => exact ih q h todo'
      | unwinding | closing | gone => exact h.elim
  | unwinding | closing | gone => exact ⟨_, fun stage h => by cases stage <;> exact h.elim⟩

/-- A later stage of a rank: less is before it, or it is at a later point of its job. -/
def Later (size : Nat) (a b : Stage ρ) : Prop :=
  Prod.Lex (· < ·) Child (a.height size, a) (b.height size, b)

theorem later_wellFounded (size : Nat) :
    WellFounded (Later size : Stage ρ → Stage ρ → Prop) :=
  InvImage.wf (fun stage : Stage ρ => (stage.height size, stage))
    ((wellFounded_lt : WellFounded fun a b : Nat => a < b).prod_lex child_wellFounded)

end Stage

theorem Place.length_peers_le (here : Place) : here.peers.length ≤ here.size := by
  unfold Place.peers
  exact (List.length_filter_le _ _).trans (List.length_range).le

/-- A step takes a rank to a later stage, or leaves the ranks and takes a packet out of an
inbox. -/
theorem Hand.Step.later {rules : Crew.Rules σ ρ} {alone : Prop} {me : Rank}
    {hand hand' : Hand σ ρ} {net net' : Network}
    (h : Hand.Step rules alone me hand net hand' net') :
    hand'.stage.Later rules.size hand.stage ∨ hand' = hand ∧ net'.untaken < net.untaken := by
  have hpeers : (Place.peers ⟨me, rules.size⟩).length ≤ rules.size := Place.length_peers_le _
  -- within a job the program goes on; at its end there is a job less; to put a message aside takes
  -- a packet out of the inbox
  cases h with
  | model => exact .inl (.right _ ⟨_, _, _, rfl, rfl⟩)
  | panic => exact .inl (.left _ _ (by simp only [Stage.height]; omega))
  | send => exact .inl (.right _ ⟨_, _, _, rfl, rfl⟩)
  | message => exact .inl (.right _ ⟨_, _, _, rfl, rfl⟩)
  | early hbox hlook =>
    obtain ⟨inbox, hinbox, -, -, rfl⟩ := Mailbox.look_early hlook
    exact .inr ⟨rfl, Network.untaken_put_lt hbox (by simp [hinbox])⟩
  | down => exact .inl (.right _ ⟨_, _, _, rfl, rfl⟩)
  | lost => exact .inl (.right _ ⟨_, _, _, rfl, rfl⟩)
  | hungUp => exact .inl (.right _ ⟨_, _, _, rfl, rfl⟩)
  | @proceed s past r count todo =>
    cases todo with
    | nil => exact .inl (.left _ _ (by simp [Stage.height, Hand.proceed]))
    | cons job todo => exact .inl (.left _ _ (by simp [Stage.height, Hand.proceed]))
  | giveUp => exact .inl (.left _ _ (by simp [Stage.height]))
  | unwind => exact .inl (.left _ _ (by simp only [Stage.height]; omega))
  | unwindAfter => exact .inl (.left _ _ (by simp only [Stage.height]; omega))
  | tell => exact .inl (.left _ _ (by simp [Stage.height]))
  | told => exact .inl (.left _ _ (by simp [Stage.height]))
  | leave => exact .inl (.left _ _ (by simp [Stage.height]))

/-- No crew goes on forever: a step moves one rank on and leaves the others, or takes a packet out
of an inbox. -/
theorem Crew.step_wellFounded (rules : Crew.Rules σ ρ) :
    WellFounded fun crew' crew : Crew σ ρ => Crew.Step rules crew crew' := by
  have hstages : WellFounded (Pi.Lex (· < ·) fun {_ : Fin rules.size} =>
      (Stage.Later rules.size : Stage ρ → Stage ρ → Prop)) :=
    Pi.Lex.wellFounded (· < ·) fun _ => Stage.later_wellFounded rules.size
  -- first the stages of all ranks, then the packets in the inboxes
  have hlex := hstages.prod_lex (wellFounded_lt : WellFounded fun a b : Nat => a < b)
  refine Subrelation.wf ?_ (InvImage.wf (fun crew : Crew σ ρ =>
    (fun r : Fin rules.size => (crew.hands r).stage, crew.network.untaken)) hlex)
  rintro crew' crew ⟨me, hme, hand, net, hstep, rfl⟩
  rcases hstep.later with hlater | ⟨rfl, hlt⟩
  · refine .left _ _ ⟨⟨me, hme⟩, fun r hr => ?_, ?_⟩
    · have hne : (r : Rank) ≠ me := Nat.ne_of_lt hr
      simp [Function.update_of_ne hne]
    · simpa using hlater
  · have hsame : (fun r : Fin rules.size =>
        (Function.update crew.hands me (crew.hands me) r).stage) =
          fun r : Fin rules.size => (crew.hands r).stage := by
      rw [Function.update_eq_self]
    show Prod.Lex _ _ (_, _) (_, _)
    rw [hsame]
    exact .right _ hlt

theorem Crew.exists_stuck (rules : Crew.Rules σ ρ) (crew : Crew σ ρ) :
    ∃ crew', Crew.Reaches rules crew crew' ∧ ∀ next, ¬ Crew.Step rules crew' next := by
  obtain ⟨crew', hreaches, hmin⟩ := (Crew.step_wellFounded rules).has_min
    {crew' | Crew.Reaches rules crew crew'} ⟨crew, .refl⟩
  exact ⟨crew', hreaches, fun next hstep => hmin next (.tail hreaches hstep) hstep⟩

end Nlp
