import Nlp.Proofs.Contract
import Nlp.Proofs.Group.Ledger
import Nlp.Proofs.Group.Lockstep

/-!
# What ranks rely on each other for

A rank other than the root does what the root tells it.  So what it asks its model is known only as
far as it is known what the root tells, and this holds of a group as a whole: as long as no rank
has told or asked anything it should not, every message on its way is one that may be relied on.

Messages of all collectives look alike, and what is told at one may mean something else at another.
Therefore a rule for what the root tells covers the broadcasts at some positions only, from a
position on.

## Main definitions

* `Conduct`: what the ranks of a group may ask their models and what the root may tell them.
* `Conduct.ofRank`, `Conduct.onLink`: the same as contracts, of a rank and of an endpoint.
* `Conduct.Begins`: the programs that keep to the rules from their first broadcast on.
* `Hand.Calls`: a rank is about to call its model.

## Main results

* `Conduct.holds_overLink`: an endpoint keeps to the rules as its rank does.
* `Crew.Conforms.step`: no step breaks the rules.
* `Crew.asks_of_reaches`: in a group that keeps to the rules no model is asked anything else.
-/

namespace Nlp

variable {σ ρ τ υ : Type}

/-- What the ranks of a group may ask their models, and what the root may tell them. -/
structure Conduct where
  /-- The calls of a model. -/
  asks : ModelCall Double → Prop
  /-- The broadcasts of the root. -/
  tells : Bytes → Prop

namespace Conduct

variable (conduct : Conduct) (covered : Nat → Prop) (here : Place)

/-- The rules for a rank: what it is told in a broadcast it can rely on. -/
def ofRank : Contract rankAccess where
  asks
    | .model c => conduct.asks c
    | .broadcast payload => here.rank = rootRank → conduct.tells payload
    | .gather _ => True
  replies
    | .model _, _ => True
    | .broadcast _, reply => ∀ bytes, reply = .ok bytes → conduct.tells bytes
    | .gather _, _ => True

/-- The message says nothing but what the root may tell, if its position is covered. -/
def Vouches (m : Message) : Prop :=
  m.collective = .broadcast → covered m.sequence → conduct.tells m.payload

/-- The rules for an endpoint: what it receives it can rely on. -/
def onLink : Contract link where
  asks
    | .model c => conduct.asks c
    | .send _ m => conduct.Vouches covered m
    | .receive _ => True
  replies
    | .model _, _ => True
    | .send _ _, _ => True
    | .receive w, reply => ∀ m, reply = .ok m → w.accepts m ∧ conduct.Vouches covered m

/-! ## Endpoints -/

/-- The results of an endpoint that has come to a covered position. -/
abbrev linking : Always (StateT Nat (Program link)) :=
  (Always.program (conduct.onLink covered)).state covered

/-- The results, faults apart, of an exchange at a covered position. -/
abbrev exchanging : Always Exchange :=
  (conduct.linking covered).except CommFault

variable {conduct covered here}

theorem exchanging_receive (w : Wanted) :
    (conduct.exchanging covered).holds (Exchange.receive w) fun m =>
      w.accepts m ∧ conduct.Vouches covered m :=
  fun _ hcount => ⟨trivial, fun _ hreply => ⟨hreply, hcount⟩⟩

theorem exchanging_checkRoot (root : Rank) :
    (conduct.exchanging covered).holds (here.checkRoot root) fun _ => True := by
  refine (conduct.exchanging covered).ite (fun _ => ?_) fun _ => ?_
  · exact (conduct.exchanging covered).pure () trivial
  · exact fun _ hcount => ⟨fun _ _ => trivial, hcount⟩

section

variable (hup : ∀ k, covered k → covered (k + 1))
include hup

/-- The next position is covered, too. -/
theorem exchanging_nextSequence :
    (conduct.exchanging covered).holds Exchange.nextSequence covered := by
  intro count hcount
  refine ⟨?_, hup count hcount⟩
  rintro _ ⟨⟩
  exact hcount

theorem Always.holds_sendToAll {payload : Bytes}
    (hpayload : here.rank = rootRank → conduct.tells payload) :
    (conduct.exchanging covered).holds (here.sendToAll rootRank payload) conduct.tells := by
  refine (conduct.exchanging covered).seq (exchanging_checkRoot rootRank) fun _ => ?_
  refine (conduct.exchanging covered).chain (exchanging_nextSequence hup) ?_
  intro sequence hcovered
  refine (conduct.exchanging covered).ite (fun hroot => ?_) fun _ => ?_
  · refine (conduct.exchanging covered).seq
      (Always.holds_sendAll _ (fun _ => Always.holds_send fun _ _ => hpayload hroot) _) fun _ => ?_
    exact (conduct.exchanging covered).pure payload (hpayload hroot)
  -- the message that is accepted is a broadcast of the position that was waited for
  · refine (conduct.exchanging covered).chain (exchanging_receive _) ?_
    rintro m ⟨haccepts, hvouched⟩
    obtain ⟨⟨hcollective, hsequence⟩, -⟩ := Wanted.accepts_iff.mp haccepts
    refine (conduct.exchanging covered).pure m.payload (hvouched hcollective ?_)
    rw [hsequence]
    exact hcovered

theorem exchanging_collect (payload : Bytes) :
    (conduct.exchanging covered).holds (here.collect rootRank payload) fun _ => True := by
  refine (conduct.exchanging covered).seq (exchanging_checkRoot rootRank) fun _ => ?_
  refine (conduct.exchanging covered).chain (exchanging_nextSequence hup) fun sequence _ => ?_
  refine (conduct.exchanging covered).ite (fun _ => ?_) fun _ => ?_
  · refine (conduct.exchanging covered).chain
      (Always.holds_collectParts _ (exchanging_receive _) _ _) fun parts _ => ?_
    exact (conduct.exchanging covered).pure _ trivial
  · refine (conduct.exchanging covered).seq (Always.holds_send ?_) fun _ =>
      (conduct.exchanging covered).pure _ trivial
    intro hbroadcast
    cases hbroadcast

/-- An endpoint at a covered position keeps to the rules as its rank does. -/
theorem holds_overLink (c : RankCall) (hc : (conduct.ofRank here).asks c) :
    (conduct.linking covered).holds (here.overLink c) ((conduct.ofRank here).replies c) := by
  cases c with
  | model c => exact fun count hcount => ⟨hc, fun _ _ => ⟨trivial, hcount⟩⟩
  | broadcast payload => exact Always.holds_sendToAll hup hc
  | gather payload =>
    exact fun count hcount => (exchanging_collect hup payload count hcount).mono fun _ h =>
      ⟨trivial, h.2⟩

theorem meets_overLink {p : Program rankAccess τ} {post : τ → Prop}
    (h : p.Meets (conduct.ofRank here) post) {count : Nat} (hcount : covered count) :
    ((p.interpret here.overLink).run count).Meets (conduct.onLink covered) fun r : τ × Nat =>
      post r.1 ∧ covered r.2 :=
  h.interpret (conduct.linking covered) (holds_overLink hup) count hcount

end

/-! ## Programs with a beginning of their own -/

/-- Before it has a result the program comes to a broadcast, in which the root may tell anything.
Up to there it asks its model what it may, and from there on it keeps to the rules. -/
def Begins (conduct : Conduct) (here : Place) : Program rankAccess τ → Prop
  | .done _ => False
  | .call (.model c) next => conduct.asks c ∧ ∀ reply, Begins conduct here (next reply)
  | .call (.broadcast _) next =>
    ∀ reply, (next reply).Meets (conduct.ofRank here) fun _ => True
  | .call (.gather _) _ => False

/-- The first broadcast of a group is not covered, and the position after it is. -/
theorem meets_sendToAll {count : Nat} (hsize : rootRank < here.size) (hfirst : ¬ covered count)
    (hnext : covered (count + 1)) (payload : Bytes) :
    ((here.sendToAll rootRank payload).run.run count).Meets (conduct.onLink covered) fun r =>
      covered r.2 := by
  -- the messages of this exchange have its own position, which is not covered yet
  have hvouched : ∀ m : Message, m.sequence = count → conduct.Vouches covered m :=
    fun m hm _ hcovered => absurd (hm ▸ hcovered) hfirst
  have hrest : (conduct.exchanging covered).holds
      (if here.rank = rootRank then do
          Exchange.sendAll ⟨here.rank, .broadcast, count, payload⟩ here.peers
          return payload
        else do
          let m ← Exchange.receive ⟨.broadcast, count, some rootRank⟩
          return m.payload)
      fun _ => True := by
    refine (conduct.exchanging covered).ite (fun _ => ?_) fun _ => ?_
    · exact (conduct.exchanging covered).seq
        (Always.holds_sendAll _ (fun _ => Always.holds_send (hvouched _ rfl)) _) fun _ =>
        (conduct.exchanging covered).pure _ trivial
    · exact (conduct.exchanging covered).chain (exchanging_receive _) fun _ _ =>
        (conduct.exchanging covered).pure _ trivial
  rw [Place.sendToAll, Place.checkRoot, if_pos hsize]
  exact (hrest (count + 1) hnext).mono fun _ h => h.2

/-- The endpoint of a rank that has a beginning of its own keeps to the rules from the position
before those that are covered. -/
theorem Begins.meets_overLink (hup : ∀ k, covered k → covered (k + 1)) {p : Program rankAccess τ}
    (h : Begins conduct here p) {count : Nat} (hsize : rootRank < here.size)
    (hfirst : ¬ covered count) (hnext : covered (count + 1)) :
    ((p.interpret here.overLink).run count).Meets (conduct.onLink covered) fun _ => True := by
  -- up to the first collective, which is a broadcast, there are only calls to the model
  induction p with
  | done r => exact h.elim
  | call c next ih =>
    cases c with
    | model c => exact ⟨h.1, fun reply _ => ih reply (h.2 reply)⟩
    | broadcast payload =>
      refine (Program.meets_bind _ _).mpr ((meets_sendToAll hsize hfirst hnext payload).mono ?_)
      rintro ⟨reply, count'⟩ hcount'
      exact (Conduct.meets_overLink hup (h reply) hcount').mono fun _ _ => trivial
    | gather payload => exact h.elim

/-- A beginning that is followed by what keeps to the rules. -/
theorem Begins.bind {p : Program rankAccess τ} {f : τ → Program rankAccess υ}
    (h : Begins conduct here p) (hf : ∀ r, (f r).Meets (conduct.ofRank here) fun _ => True) :
    Begins conduct here (p.bind f) := by
  induction p with
  | done r => exact h.elim
  | call c next ih =>
    cases c with
    | model c => exact ⟨h.1, fun reply => ih reply (h.2 reply)⟩
    | broadcast payload =>
      exact fun reply => (Program.meets_bind _ _).mpr ((h reply).mono fun r _ => hf r)
    | gather payload => exact h.elim

end Conduct

/-! ## Crews -/

/-- The rank is about to make this call of its model. -/
def Hand.Calls (hand : Hand σ ρ) (c : ModelCall Double) : Prop :=
  ∃ next todo, hand.stage = .working (.call (.model c) next) todo

/-- The rank keeps to the rules with its only job. -/
def Hand.Conforms (C : Contract link) (hand : Hand σ ρ) : Prop :=
  match hand.stage with
  | .working program todo => program.Meets C (fun _ => True) ∧ todo = []
  | _ => True

/-- Every message on its way has the property. -/
def Network.Carries (good : Message → Prop) (net : Network) : Prop :=
  ∀ r b, net.mailbox? r = some b → ∀ m ∈ b.messages, good m

namespace Network.Carries

variable {good : Message → Prop} {net : Network} {me dest : Rank}

theorem new (size : Nat) : (Network.new size).Carries good :=
  fun _ b hbox _ hm => absurd ⟨b, hbox, hm⟩ not_holds_new

theorem put {b left : Mailbox} (h : net.Carries good) (hbox : net.mailbox? me = some b)
    (hleft : left.messages ⊆ b.messages) : (net.put me (some left)).Carries good :=
  Network.forall_put hbox h fun m hm => h me b hbox m (hleft hm)

theorem send_message {m : Message} (h : net.Carries good) (hm : good m) :
    (net.send dest (.message m)).2.Carries good := by
  cases hbox : net.mailbox? dest with
  | none =>
    rw [send_of_none _ hbox]
    exact h
  | some b =>
    rw [send_of_some _ hbox]
    refine Network.forall_put hbox h fun m' hm' => ?_
    rw [Mailbox.messages_deliver_message] at hm'
    rcases List.mem_append.mp hm' with hold | hnew
    · exact h dest b hbox m' hold
    · rw [List.mem_singleton.mp hnew]
      exact hm

theorem send_down (h : net.Carries good) (peer : Rank) :
    (net.send dest (.down peer)).2.Carries good := by
  cases hbox : net.mailbox? dest with
  | none =>
    rw [send_of_none _ hbox]
    exact h
  | some b =>
    rw [send_of_some _ hbox]
    refine h.put hbox ?_
    rw [Mailbox.messages_deliver_down]
    exact List.Subset.refl _

theorem leave (h : net.Carries good) (me : Rank) : (net.leave me).Carries good := by
  intro r b hbox
  rw [mailbox?_leave] at hbox
  split at hbox
  · cases hbox
  · exact h r b hbox

end Network.Carries

variable {rules : Crew.Rules σ ρ} {conduct : Conduct} {covered : Nat → Prop}

/-- A step of a rank breaks no rule. -/
theorem Hand.Step.conforms {alone : Prop} {me : Rank} {hand hand' : Hand σ ρ} {net net' : Network}
    (hstep : Hand.Step rules alone me hand net hand' net')
    (hhand : hand.Conforms (conduct.onLink covered))
    (hnet : net.Carries (conduct.Vouches covered)) :
    hand'.Conforms (conduct.onLink covered) ∧ net'.Carries (conduct.Vouches covered) := by
  cases hstep with
  | model => exact ⟨⟨hhand.1.2 _ trivial, hhand.2⟩, hnet⟩
  | send => exact ⟨⟨hhand.1.2 _ trivial, hhand.2⟩, hnet.send_message hhand.1.1⟩
  | message hbox hlook =>
    -- the message was in the mailbox, so it may be relied on
    obtain ⟨haccepts, ⟨before, after, hb, hleft⟩, -⟩ := Mailbox.look_message hlook
    refine ⟨⟨hhand.1.2 _ ?_, hhand.2⟩, hnet.put hbox ?_⟩
    · rintro _ ⟨⟩
      refine ⟨haccepts, hnet _ _ hbox _ ?_⟩
      rw [hb]
      exact List.mem_append_right _ List.mem_cons_self
    · rw [hb, hleft]
      exact List.append_subset.mpr ⟨List.subset_append_left _ _,
        fun m hm => List.mem_append_right _ (List.mem_cons_of_mem _ hm)⟩
  | early hbox hlook =>
    refine ⟨hhand, hnet.put hbox ?_⟩
    rw [Mailbox.messages_of_look_early hlook]
    exact List.Subset.refl _
  | down hbox hlook =>
    refine ⟨⟨hhand.1.2 _ ?_, hhand.2⟩, hnet.put hbox ?_⟩
    · intro m hm
      cases hm
    · rw [(Mailbox.look_down hlook).2]
      exact List.Subset.refl _
  | lost | hungUp =>
    refine ⟨⟨hhand.1.2 _ ?_, hhand.2⟩, hnet⟩
    intro m hm
    cases hm
  | @proceed s past r count todo =>
    obtain ⟨-, rfl⟩ := hhand
    exact ⟨trivial, hnet⟩
  | panic | giveUp | unwind | unwindAfter | told => exact ⟨trivial, hnet⟩
  | tell => exact ⟨trivial, hnet.send_down _⟩
  | leave => exact ⟨trivial, hnet.leave _⟩

namespace Crew

/-- Every rank keeps to the rules, and so does every message on its way. -/
structure Conforms (conduct : Conduct) (covered : Nat → Prop) (size : Nat) (crew : Crew σ ρ) :
    Prop where
  hands : ∀ r < size, (crew.hands r).Conforms (conduct.onLink covered)
  network : crew.network.Carries (conduct.Vouches covered)

/-- No step breaks the rules. -/
theorem Conforms.step {crew crew' : Crew σ ρ} (h : Conforms conduct covered rules.size crew)
    (hstep : Crew.Step rules crew crew') : Conforms conduct covered rules.size crew' := by
  obtain ⟨me, hme, hand, net, hstep, rfl⟩ := hstep
  obtain ⟨hhand, hnet⟩ := hstep.conforms (h.hands me hme) h.network
  refine ⟨fun r hr => ?_, hnet⟩
  show Hand.Conforms _ (Function.update crew.hands me hand r)
  by_cases hne : r = me
  · rw [hne, Function.update_self]
    exact hhand
  · rw [Function.update_of_ne hne]
    exact h.hands r hr

theorem Conforms.reaches {crew crew' : Crew σ ρ} (h : Conforms conduct covered rules.size crew)
    (hreaches : Crew.Reaches rules crew crew') : Conforms conduct covered rules.size crew' := by
  induction hreaches with
  | refl => exact h
  | tail _ hstep ih => exact ih.step hstep

/-- In a group whose endpoints keep to the rules, no model is ever asked anything else: whatever
the schedule is, and whichever ranks unwind. -/
theorem asks_of_reaches {rules : Crew.Rules σ (τ × Nat)} {programs : Rank → Program rankAccess τ}
    {states : Rank → σ} {count : Nat} {reached : Crew σ (τ × Nat)}
    (hprograms : ∀ r < rules.size,
      (((programs r).interpret (⟨r, rules.size⟩ : Place).overLink).run count).Meets
        (conduct.onLink covered) fun _ => True)
    (hreaches : Crew.Reaches rules (Crew.ofPrograms rules.size count states programs) reached)
    {r : Rank} (hr : r < rules.size) {c : ModelCall Double} (hcalls : (reached.hands r).Calls c) :
    conduct.asks c := by
  have hstart : Conforms conduct covered rules.size
      (Crew.ofPrograms rules.size count states programs) := by
    refine ⟨fun r hr => ⟨?_, rfl⟩, .new _⟩
    exact (Program.meets_bind _ _).mpr ((hprograms r hr).mono fun _ _ => trivial)
  obtain ⟨next, todo, hstage⟩ := hcalls
  have hhand := (hstart.reaches hreaches).hands r hr
  rw [Hand.Conforms, hstage] at hhand
  exact hhand.1.1

end Crew

end Nlp
