import Nlp.Proofs.Group.Lockstep

/-!
# A schedule in lockstep

What happens to a group in lockstep can happen to it over messages: the ranks take turns up to
their next collective, and there the senders go before the receivers.  So a group where no rank can
be ended over messages has its results in lockstep.

## Main definitions

* `Hand.Goes`: what a rank can do by itself.
* `Network.Holding`: a network with these messages in the inboxes, and nothing else.
* `Crew.follow`: what the ranks of a group do in a given order.

## Main results

* `Crew.sweep`: the ranks take turns.
* `Lockstep.reaches_unwinding`, `Lockstep.exists_results`: a rank that is ended in lockstep can be
  ended over messages, and where none can, the ranks come to results.
* `Crew.reaches_of_follow`: a group can do what it does in a given order.
-/

namespace Nlp

variable {σ ρ τ : Type} {rules : Crew.Rules σ ρ} {me : Rank} {hand hand' : Hand σ ρ}
  {net net' : Network}

/-! ## One rank -/

/-- What the rank `me` can do while the others wait. -/
abbrev Hand.Goes (rules : Crew.Rules σ ρ) (me : Rank) :
    Hand σ ρ × Network → Hand σ ρ × Network → Prop :=
  Relation.ReflTransGen fun a b => Hand.Step rules False me a.1 a.2 b.1 b.2

/-- The rank can come by itself to a hand and a network with some property. -/
def Hand.Leads (rules : Crew.Rules σ ρ) (me : Rank) (before : Hand σ ρ) (net : Network)
    (after : Hand σ ρ) (good : Network → Prop) : Prop :=
  ∃ net', Hand.Goes rules me (before, net) (after, net') ∧ good net'

theorem Hand.Step.of_not_alone {alone : Prop} (h : Hand.Step rules False me hand net hand' net') :
    Hand.Step rules alone me hand net hand' net' := by
  cases h with
  | model hreply => exact .model hreply
  | panic hreply => exact .panic hreply
  | send => exact .send
  | message hbox hlook => exact .message hbox hlook
  | early hbox hlook => exact .early hbox hlook
  | down hbox hlook => exact .down hbox hlook
  | lost hbox hlook => exact .lost hbox hlook
  | hungUp hbox hlook halone => exact halone.elim
  | proceed => exact .proceed
  | giveUp hr => exact .giveUp hr
  | unwind hfaulty => exact .unwind hfaulty
  | unwindAfter hfaulty => exact .unwindAfter hfaulty
  | tell => exact .tell
  | told => exact .told
  | leave => exact .leave

theorem Crew.reaches_of_goes {crew : Crew σ ρ} {b : Hand σ ρ × Network} (hme : me < rules.size)
    (h : Hand.Goes rules me (crew.hands me, crew.network) b) :
    Crew.Reaches rules crew ⟨Function.update crew.hands me b.1, b.2⟩ := by
  -- on the steps of the one rank, each of which is a step of the crew
  induction h with
  | refl =>
    rw [Function.update_eq_self]
  | @tail b c _ hstep ih =>
    refine ih.tail ⟨me, hme, c.1, c.2, ?_, ?_⟩
    · show Hand.Step rules _ me (Function.update crew.hands me b.1 me) b.2 c.1 c.2
      rw [Function.update_self]
      exact hstep.of_not_alone
    · rw [Function.update_idem]

/-- One rank has its turn. -/
theorem Crew.turn {crew : Crew σ ρ} {good : Network → Prop} (hme : me < rules.size)
    (h : Hand.Leads rules me (crew.hands me) crew.network hand good) :
    ∃ crew', Crew.Reaches rules crew crew' ∧ crew'.hands me = hand ∧
      (∀ r, r ≠ me → crew'.hands r = crew.hands r) ∧ good crew'.network := by
  obtain ⟨net, hgoes, hgood⟩ := h
  exact ⟨_, Crew.reaches_of_goes hme hgoes, Function.update_self _ _ _,
    fun r hr => Function.update_of_ne hr _ _, hgood⟩

/-- Some ranks take turns, while the network depends on those that have not had theirs. -/
theorem Crew.sweep (rules : Crew.Rules σ ρ) (left : List Rank → Network → Prop)
    (before after : Rank → Hand σ ρ)
    (hgo : ∀ me rest net, me < rules.size → me ∉ rest → left (me :: rest) net →
      Hand.Leads rules me (before me) net (after me) (left rest))
    {order : List Rank} (hnodup : order.Nodup) (hsize : ∀ r ∈ order, r < rules.size)
    {crew : Crew σ ρ} (hnet : left order crew.network)
    (hhands : ∀ r ∈ order, crew.hands r = before r) :
    ∃ crew', Crew.Reaches rules crew crew' ∧ (∀ r ∈ order, crew'.hands r = after r) ∧
      (∀ r ∉ order, crew'.hands r = crew.hands r) ∧ left [] crew'.network := by
  -- on the ranks whose turn is still to come
  induction order generalizing crew with
  | nil => exact ⟨crew, .refl, nofun, fun _ _ => rfl, hnet⟩
  | cons me rest ih =>
    obtain ⟨hnew, hnodup⟩ := List.nodup_cons.mp hnodup
    obtain ⟨hme, hsize⟩ := List.forall_mem_cons.mp hsize
    obtain ⟨hmine, hhands⟩ := List.forall_mem_cons.mp hhands
    have hleads := hgo me rest crew.network hme hnew hnet
    rw [← hmine] at hleads
    obtain ⟨crew₁, hturn, hhand, hothers, hnet₁⟩ := Crew.turn hme hleads
    obtain ⟨crew₂, hreaches, hafter, hsame, hnet₂⟩ := ih hnodup hsize hnet₁ fun r hr =>
      (hothers r fun h => hnew (h ▸ hr)).trans (hhands r hr)
    refine ⟨crew₂, hturn.trans hreaches, List.forall_mem_cons.mpr ⟨?_, hafter⟩, ?_, hnet₂⟩
    · exact (hsame me hnew).trans hhand
    · intro r hr
      obtain ⟨hne, hr⟩ := not_or.mp (List.mem_cons.not.mp hr)
      exact (hsame r hr).trans (hothers r hne)

/-- A rank with nothing but this program to carry out. -/
abbrev Hand.at (p : Program link (ρ × Nat)) (s : σ) : Hand σ ρ :=
  ⟨s, [], .working p []⟩

/-! ## Inboxes -/

/-- Every rank is there, with these messages in its inbox and nothing else. -/
def Network.Holding (size : Nat) (inboxes : Rank → List Message) (net : Network) : Prop :=
  ∀ r < size, net.mailbox? r = some ⟨(inboxes r).map .message, [], none⟩

namespace Network.Holding

variable {size : Nat} {inboxes : Rank → List Message} {s : σ} {m : Message}
  {good : Network → Prop}

theorem new : (Network.new size).Holding size fun _ => [] :=
  fun _ hr => mailbox?_new hr

theorem congr {inboxes' : Rank → List Message} (h : net.Holding size inboxes)
    (heq : ∀ r < size, inboxes r = inboxes' r) : net.Holding size inboxes' := by
  intro r hr
  rw [h r hr, heq r hr]

theorem put (h : net.Holding size inboxes) (hme : me < size) (inbox : List Message) :
    (net.put me (some ⟨inbox.map .message, [], none⟩)).Holding size
      (Function.update inboxes me inbox) := by
  intro r hr
  rw [mailbox?_put_of_some (h me hme)]
  by_cases hne : r = me
  · subst hne
    rw [if_pos rfl, Function.update_self]
  · rw [if_neg hne, Function.update_of_ne hne, h r hr]

/-- A message is sent. -/
theorem leads_send {dest : Rank} {next : Bool → Program link (ρ × Nat)}
    (h : net.Holding size inboxes) (hdest : dest < size)
    (hrest : ∀ net', net'.Holding size (Function.update inboxes dest (inboxes dest ++ [m])) →
      Hand.Leads rules me (.at (next true) s) net' hand good) :
    Hand.Leads rules me (.at (.call (.send dest m) next) s) net hand good := by
  have hsend := send_of_some (.message m) (h dest hdest)
  have hput := h.put hdest (inboxes dest ++ [m])
  rw [List.map_append] at hput
  have hstep : Hand.Step rules False me (.at (.call (.send dest m) next) s) net
      (.at (next (net.send dest (.message m)).1) s) (net.send dest (.message m)).2 := .send
  rw [hsend] at hstep
  obtain ⟨net', hgoes, hgood⟩ := hrest _ hput
  exact ⟨net', .head hstep hgoes, hgood⟩

/-- A message is taken. -/
theorem leads_receive {w : Wanted} {rest : List Message}
    {next : Except CommFault Message → Program link (ρ × Nat)} (h : net.Holding size inboxes)
    (hme : me < size) (hinbox : inboxes me = m :: rest) (haccepts : w.accepts m)
    (hrest : ∀ net', net'.Holding size (Function.update inboxes me rest) →
      Hand.Leads rules me (.at (next (.ok m)) s) net' hand good) :
    Hand.Leads rules me (.at (.call (.receive w) next) s) net hand good := by
  have hlook : Mailbox.look w ⟨(inboxes me).map .message, [], none⟩ =
      .message m ⟨rest.map .message, [], none⟩ := by
    rw [hinbox]
    simp [Mailbox.look, haccepts]
  obtain ⟨net', hgoes, hgood⟩ := hrest _ (h.put hme rest)
  exact ⟨net', .head (.message (h me hme) hlook) hgoes, hgood⟩

/-- A message is sent to some ranks. -/
theorem leads_sendAll {dests : List Rank} {count : Nat}
    {next : Except CommFault Unit × Nat → Program link (ρ × Nat)}
    (hdests : ∀ dest ∈ dests, dest < size) (hnodup : dests.Nodup) (h : net.Holding size inboxes)
    (hrest : ∀ net', (net'.Holding size fun r =>
        if r ∈ dests then inboxes r ++ [m] else inboxes r) →
      Hand.Leads rules me (.at (next (.ok (), count)) s) net' hand good) :
    Hand.Leads rules me (.at (((Exchange.sendAll m dests).run.run count).bind next) s) net hand
      good := by
  -- on the ranks still to be sent the message
  induction dests generalizing net inboxes with
  | nil => exact hrest net (h.congr fun r _ => by simp)
  | cons dest dests ih =>
    obtain ⟨hdest, hdests⟩ := List.forall_mem_cons.mp hdests
    obtain ⟨hnew, hnodup⟩ := List.nodup_cons.mp hnodup
    refine h.leads_send hdest fun net₁ hnet₁ => ih hdests hnodup hnet₁ fun net₂ hnet₂ => ?_
    refine hrest net₂ (hnet₂.congr fun r _ => ?_)
    by_cases hr : r = dest
    · subst hr
      simp [hnew]
    · simp [hr]

/-- The parts of the ranks that are left come in their order. -/
theorem leads_collectParts {payload : Rank → Bytes} {left : List Rank} {sequence count : Nat}
    {next : Except CommFault Parts × Nat → Program link (ρ × Nat)} (hme : me < size)
    (hleft : ∀ r ∈ left, r < size) (hnodup : left.Nodup) (h : net.Holding size inboxes)
    (hinbox : inboxes me = left.map fun r => ⟨r, .gather, sequence, payload r⟩)
    (hrest : ∀ net', net'.Holding size (Function.update inboxes me []) →
      Hand.Leads rules me
        (.at (next (.ok (Transfer.allParts size ⟨.gather, me, payload⟩), count)) s) net' hand
        good) :
    Hand.Leads rules me (.at (((Exchange.collectParts sequence left.length
      (Transfer.partsOf size ⟨.gather, me, payload⟩ (· ∉ left))).run.run count).bind next) s) net
      hand good := by
  -- on the ranks whose parts are still to come: the first of them is at the head of the inbox
  induction left generalizing net inboxes with
  | nil =>
    have hall : Transfer.partsOf size ⟨.gather, me, payload⟩ (· ∉ []) =
        Transfer.allParts size ⟨.gather, me, payload⟩ := Transfer.partsOf_all (by simp)
    rw [hall]
    refine hrest net (h.congr fun r _ => ?_)
    by_cases hr : r = me
    · subst hr
      rw [Function.update_self, hinbox, List.map_nil]
    · rw [Function.update_of_ne hr]
  | cons source left ih =>
    obtain ⟨hsource, hleft⟩ := List.forall_mem_cons.mp hleft
    obtain ⟨hnew, hnodup⟩ := List.nodup_cons.mp hnodup
    refine h.leads_receive hme (by rw [hinbox, List.map_cons]) (by simp [Wanted.accepts])
      fun net₁ hnet₁ => ?_
    have hinsert : Ascending.insert source (payload source)
        (Transfer.partsOf size ⟨.gather, me, payload⟩ (· ∉ source :: left)) =
          Transfer.partsOf size ⟨.gather, me, payload⟩ (· ∉ left) := by
      let t : Transfer := ⟨.gather, me, payload⟩
      refine (t.insert_partsOf hsource ?_).trans (congrArg _ (funext fun r => ?_))
      · exact decide_eq_false (not_not.mpr List.mem_cons_self)
      by_cases hr : r = source
      · subst hr
        simp [hnew]
      · simp [hr]
    have hnext := ih hleft hnodup hnet₁ (by rw [Function.update_self])
      (by rwa [Function.update_idem])
    rw [← hinsert] at hnext
    exact hnext

end Network.Holding

/-! ## Calls of a rank -/

section

variable {size : Nat} {respond : Rank → Responder σ} {here : Place} {count : Nat} {s s' : σ}

theorem Program.run_job_broadcast (payload : Bytes)
    (next : Except CommFault Bytes → Program rankAccess τ) :
    ((Program.call (I := rankAccess) (.broadcast payload) next).job here).run count =
      ((here.sendToAll rootRank payload).run.run count).bind fun r =>
        ((next r.1).job here).run r.2 :=
  Program.bind_assoc ((here.sendToAll rootRank payload).run.run count) _ _

theorem Program.run_job_gather (payload : Bytes)
    (next : Except CommFault (Option Parts) → Program rankAccess τ) :
    ((Program.call (I := rankAccess) (.gather payload) next).job here).run count =
      ((here.collect rootRank payload).run.run count).bind fun r =>
        ((next r.1).job here).run r.2 :=
  Program.bind_assoc ((here.collect rootRank payload).run.run count) _ _

/-- A rank goes on as its model answers it. -/
theorem Program.ComesTo.goes {p left : Program rankAccess τ}
    (h : ComesTo (respond me) left s' p s) :
    Hand.Goes (Crew.calmRules size respond) me (.at ((p.job here).run count) s, net)
      (.at ((left.job here).run count) s', net) := by
  induction h with
  | here => exact .refl
  | model hreply _ ih => exact .head (.model hreply) ih

/-- A rank goes on to its end. -/
theorem Program.goes_panic {p : Program rankAccess τ}
    (hpause : (p.pause (respond me) s).1 = .panic) :
    ∃ s', Hand.Goes (Crew.calmRules size respond) me (.at ((p.job here).run count) s, net)
      (⟨s', [], .unwinding (Place.peers ⟨me, size⟩)⟩, net) := by
  obtain ⟨c, next, s₁, s₂, hcomes, hnone⟩ := comesTo_of_panic hpause
  exact ⟨s₂, hcomes.goes.tail (.panic hnone)⟩

end

/-! ## A whole group -/

namespace Crew

variable {size count : Nat} {respond : Rank → Responder σ} {states : Rank → σ}
  {programs : Rank → Program rankAccess τ} {crew : Crew σ (τ × Nat)}

/-- Every rank works on its program, and nothing is on its way. -/
structure AtWork (size count : Nat) (programs : Rank → Program rankAccess τ) (states : Rank → σ)
    (crew : Crew σ (τ × Nat)) : Prop where
  hands : ∀ r < size, crew.hands r = .at (((programs r).job ⟨r, size⟩).run count) (states r)
  network : crew.network.Holding size fun _ => []

theorem AtWork.new : AtWork size count programs states (ofPrograms size count states programs) :=
  ⟨fun _ _ => rfl, .new⟩

/-- All ranks go on to their next pauses. -/
theorem AtWork.pause {pauses : Rank → Pause τ × σ} (h : AtWork size count programs states crew)
    (hpause : ∀ r < size, (programs r).pause (respond r) (states r) = pauses r)
    (hne : ∀ r < size, (pauses r).1 ≠ .panic) :
    ∃ crew', Reaches (calmRules size respond) crew crew' ∧
      AtWork size count (fun r => (pauses r).1.program) (fun r => (pauses r).2) crew' := by
  obtain ⟨crew', hreaches, hhands, -, hnet⟩ := sweep (calmRules size respond)
    (fun _ net => net.Holding size fun _ => [])
    (fun r => .at (((programs r).job ⟨r, size⟩).run count) (states r))
    (fun r => .at (((pauses r).1.program.job ⟨r, size⟩).run count) (pauses r).2)
    (fun me _ net hme _ hnet =>
      ⟨net, (Program.comesTo_of_pause (hpause me hme) (hne me hme)).goes, hnet⟩)
    List.nodup_range (fun r hr => List.mem_range.mp hr) h.network
    fun r hr => h.hands r (List.mem_range.mp hr)
  exact ⟨crew', hreaches, fun r hr => hhands r (List.mem_range.mpr hr), hnet⟩

theorem run_sendToAll_root (hsize : rootRank < size) (payload : Bytes) :
    ((⟨rootRank, size⟩ : Place).sendToAll rootRank payload).run.run count =
      ((Exchange.sendAll ⟨rootRank, .broadcast, count, payload⟩
        (Place.peers ⟨rootRank, size⟩)).run.run (count + 1)).bind fun
          | (.ok (), count) => .done (.ok payload, count)
          | (.error fault, count) => .done (.error fault, count) := by
  rw [Place.sendToAll, Place.checkRoot, if_pos hsize]
  show ((Exchange.sendAll ⟨rootRank, .broadcast, count, payload⟩
    (Place.peers ⟨rootRank, size⟩)).run.run (count + 1)).bind _ = _
  refine congrArg (Program.bind _) (funext fun r => ?_)
  rcases r with ⟨fault | ⟨⟩, count⟩
  · rfl
  · rfl

theorem run_sendToAll_other (hsize : rootRank < size) {r : Rank} (hr : r ≠ rootRank)
    (payload : Bytes) :
    ((⟨r, size⟩ : Place).sendToAll rootRank payload).run.run count =
      .call (I := link) (.receive ⟨.broadcast, count, some rootRank⟩) fun
        | .ok m => .done (.ok m.payload, count + 1)
        | .error fault => .done (.error fault, count + 1) := by
  rw [Place.sendToAll, Place.checkRoot, if_pos hsize]
  simp only [if_neg hr]
  refine congrArg (Program.call _) (funext fun reply => ?_)
  rcases reply with fault | m
  · rfl
  · rfl

theorem run_collect_root (hsize : rootRank < size) (payload : Bytes) :
    ((⟨rootRank, size⟩ : Place).collect rootRank payload).run.run count =
      ((Exchange.collectParts count (size - 1) [(rootRank, payload)]).run.run (count + 1)).bind fun
          | (.ok parts, count) => .done (.ok (some parts), count)
          | (.error fault, count) => .done (.error fault, count) := by
  rw [Place.collect, Place.checkRoot, if_pos hsize]
  show ((Exchange.collectParts count (size - 1) [(rootRank, payload)]).run.run
    (count + 1)).bind _ = _
  refine congrArg (Program.bind _) (funext fun r => ?_)
  rcases r with ⟨fault | parts, count⟩
  · rfl
  · rfl

theorem run_collect_other (hsize : rootRank < size) {r : Rank} (hr : r ≠ rootRank)
    (payload : Bytes) :
    ((⟨r, size⟩ : Place).collect rootRank payload).run.run count =
      .call (I := link) (.send rootRank ⟨r, .gather, count, payload⟩) fun
        | true => .done (.ok none, count + 1)
        | false => .done (.error (.hungUp rootRank), count + 1) := by
  rw [Place.collect, Place.checkRoot, if_pos hsize]
  simp only [if_neg hr]
  refine congrArg (Program.call _) (funext fun delivered => ?_)
  cases delivered with
  | true => rfl
  | false => rfl

theorem mem_peers_root {r : Rank} : r ∈ Place.peers ⟨rootRank, size⟩ ↔ r < size ∧ r ≠ rootRank :=
  Place.mem_peers

/-- A broadcast: first the root sends to all others, then they receive. -/
theorem AtWork.broadcast {payload : Rank → Bytes}
    {next : Rank → Except CommFault Bytes → Program rankAccess τ} (hsize : rootRank < size)
    (h : AtWork size count (fun r => .call (I := rankAccess) (.broadcast (payload r)) (next r))
      states crew) :
    ∃ crew', Reaches (calmRules size respond) crew crew' ∧
      AtWork size (count + 1) (fun r => next r (.ok (payload rootRank))) states crew' := by
  let m : Message := ⟨rootRank, .broadcast, count, payload rootRank⟩
  let peers := Place.peers ⟨rootRank, size⟩
  let inboxes : List Rank → Rank → List Message := fun left r => if r ∈ left then [m] else []
  let after : Rank → Hand σ (τ × Nat) := fun r =>
    .at (((next r (.ok (payload rootRank))).job ⟨r, size⟩).run (count + 1)) (states r)
  have hpeers : ∀ r ∈ peers, r < size := fun r hr => (mem_peers_root.mp hr).1
  have hnodup : peers.Nodup := Place.nodup_peers _
  -- the turn of the root puts its message into the inboxes of all others
  have hroot : Hand.Leads (calmRules size respond) rootRank (crew.hands rootRank) crew.network
      (after rootRank) fun net => net.Holding size (inboxes peers) := by
    rw [h.hands rootRank hsize, Program.run_job_broadcast, run_sendToAll_root hsize,
      Program.bind_assoc]
    refine h.network.leads_sendAll hpeers hnodup fun net hnet => ?_
    exact ⟨net, .refl, hnet.congr fun r _ => by simp [inboxes, m, peers]⟩
  obtain ⟨crew₁, hturn, hhand, hsame, hnet⟩ := turn hsize hroot
  let left : List Rank → Network → Prop := fun rest net =>
    rest ⊆ peers ∧ net.Holding size (inboxes rest)
  -- the turns of the others take it out
  have hother : ∀ me rest net, me < size → me ∉ rest → left (me :: rest) net →
      Hand.Leads (calmRules size respond) me (crew.hands me) net (after me) (left rest) := by
    rintro me rest net hme hnew ⟨hsub, hnet⟩
    obtain ⟨hmem, hsub⟩ := List.cons_subset.mp hsub
    rw [h.hands me hme, Program.run_job_broadcast,
      run_sendToAll_other hsize (mem_peers_root.mp hmem).2]
    refine hnet.leads_receive hme (if_pos List.mem_cons_self) (by simp [Wanted.accepts, m]) ?_
    intro net' hnet'
    refine ⟨net', .refl, hsub, hnet'.congr fun r _ => ?_⟩
    by_cases hr : r = me
    · subst hr
      simp [inboxes, hnew]
    · simp [inboxes, hr]
  obtain ⟨crew₂, hsweep, hhands, hsame', -, hnet⟩ := sweep (calmRules size respond) left crew.hands
    after hother hnodup hpeers ⟨List.Subset.refl _, hnet⟩ fun r hr =>
      hsame r (mem_peers_root.mp hr).2
  refine ⟨crew₂, hturn.trans hsweep, fun r hr => ?_, hnet.congr fun r _ => if_neg List.not_mem_nil⟩
  by_cases hr0 : r = rootRank
  · subst hr0
    exact (hsame' _ fun hmem => (mem_peers_root.mp hmem).2 rfl).trans hhand
  · exact hhands r (mem_peers_root.mpr ⟨hr, hr0⟩)

theorem partsOf_peers {t : Transfer} (hsize : rootRank < size) :
    t.partsOf size (· ∉ Place.peers ⟨rootRank, size⟩) = [(rootRank, t.payload rootRank)] := by
  rw [← Exchange.comeParts_start (k := 0) hsize, Exchange.comeParts, Transfer.partsOf,
    Transfer.partsOf]
  refine congrArg (List.map _) (List.filter_congr fun r hr => ?_)
  have hlt := List.mem_range.mp hr
  simp [mem_peers_root, hlt]

theorem length_peers_root (hsize : rootRank < size) :
    (Place.peers ⟨rootRank, size⟩).length = size - 1 := by
  have hmissing : Place.peers ⟨rootRank, size⟩ = Exchange.missing size rootRank ⟨0, []⟩ := by
    simp [Place.peers, Exchange.missing]
  rw [hmissing, Exchange.length_missing_start hsize]

/-- A gather: first the others send to the root, then it receives. -/
theorem AtWork.gather {payload : Rank → Bytes}
    {next : Rank → Except CommFault (Option Parts) → Program rankAccess τ}
    (hsize : rootRank < size)
    (h : AtWork size count (fun r => .call (I := rankAccess) (.gather (payload r)) (next r))
      states crew) :
    ∃ crew', Reaches (calmRules size respond) crew crew' ∧
      AtWork size (count + 1) (fun r => next r (.ok (if r = rootRank then
        some (Transfer.allParts size ⟨.gather, rootRank, payload⟩) else none))) states crew' := by
  let message : Rank → Message := fun r => ⟨r, .gather, count, payload r⟩
  let peers := Place.peers ⟨rootRank, size⟩
  let after : Rank → Hand σ (τ × Nat) := fun r =>
    .at (((next r (.ok (if r = rootRank then
      some (Transfer.allParts size ⟨.gather, rootRank, payload⟩) else none))).job
        ⟨r, size⟩).run (count + 1)) (states r)
  have hpeers : ∀ r ∈ peers, r < size := fun r hr => (mem_peers_root.mp hr).1
  have hnodup : peers.Nodup := Place.nodup_peers _
  let left : List Rank → Network → Prop := fun rest net => ∃ sent, sent ++ rest = peers ∧
    net.Holding size (Function.update (fun _ => []) rootRank (sent.map message))
  -- the turns of the others put their messages into the inbox of the root, in the order of ranks
  have hother : ∀ me rest net, me < size → me ∉ rest → left (me :: rest) net →
      Hand.Leads (calmRules size respond) me (crew.hands me) net (after me) (left rest) := by
    rintro me rest net hme - ⟨sent, hsent, hnet⟩
    have hmem : me ∈ peers := hsent ▸ List.mem_append_right _ List.mem_cons_self
    have hne := (mem_peers_root.mp hmem).2
    rw [h.hands me hme, Program.run_job_gather, run_collect_other hsize hne]
    refine hnet.leads_send hsize fun net' hnet' => ⟨net', ?_, sent ++ [me], ?_, ?_⟩
    · simp only [after, if_neg hne]
      exact .refl
    · rw [← hsent, List.append_assoc, List.singleton_append]
    · rw [Function.update_idem, Function.update_self] at hnet'
      rw [List.map_append]
      exact hnet'
  obtain ⟨crew₁, hsweep, hhands, hsame, sent, hsent, hnet⟩ := sweep (calmRules size respond) left
    crew.hands after hother hnodup hpeers
      ⟨[], rfl, h.network.congr fun r _ => by simp⟩ fun _ _ => rfl
  rw [List.append_nil] at hsent
  -- the turn of the root takes them out in this order
  have hroot : Hand.Leads (calmRules size respond) rootRank (crew₁.hands rootRank) crew₁.network
      (after rootRank) fun net => net.Holding size fun _ => [] := by
    rw [hsame _ fun hmem => (mem_peers_root.mp hmem).2 rfl, h.hands rootRank hsize,
      Program.run_job_gather, run_collect_root hsize, Program.bind_assoc, ← length_peers_root hsize,
      ← partsOf_peers (t := ⟨.gather, rootRank, payload⟩) hsize]
    refine hnet.leads_collectParts hsize hpeers hnodup
      (by rw [Function.update_self, hsent]) fun net hnet => ⟨net, .refl, hnet.congr fun r _ => ?_⟩
    simp
  obtain ⟨crew₂, hturn, hhand, hsame', hnet⟩ := turn hsize hroot
  refine ⟨crew₂, hsweep.trans hturn, fun r hr => ?_, hnet⟩
  by_cases hr0 : r = rootRank
  · subst hr0
    exact hhand
  · exact (hsame' r hr0).trans (hhands r (mem_peers_root.mpr ⟨hr, hr0⟩))

/-- All ranks go on to the same kind of pause. -/
theorem AtWork.meet {programs' : Rank → Program rankAccess τ} {states' : Rank → σ}
    {pause : Rank → Pause τ} (h : AtWork size count programs states crew)
    (hpause : ∀ r < size, (programs r).pause (respond r) (states r) = (pause r, states' r))
    (hne : ∀ r, pause r ≠ .panic) (hprograms : ∀ r, (pause r).program = programs' r) :
    ∃ crew', Reaches (calmRules size respond) crew crew' ∧
      AtWork size count programs' states' crew' := by
  obtain ⟨crew', hreaches, hwork⟩ := h.pause hpause fun r _ => hne r
  exact ⟨crew', hreaches, (funext hprograms : (fun r => (pause r).program) = programs') ▸ hwork⟩

end Crew

/-- A rank that is ended by its model in lockstep can be ended over messages. -/
theorem Lockstep.reaches_unwinding {size : Nat} {respond : Rank → Responder σ}
    {pauses : Rank → Pause τ × σ} {transfers : List Transfer} {outcome : Option (Rank → τ)}
    (h : Lockstep size respond pauses transfers outcome) (houtcome : outcome = none)
    (hsize : rootRank < size) {programs : Rank → Program rankAccess τ} {states : Rank → σ}
    {count : Nat} {crew : Crew σ (τ × Nat)} (hwork : crew.AtWork size count programs states)
    (hpauses : ∀ r < size, (programs r).pause (respond r) (states r) = pauses r) :
    ∃ crew' r untold, Crew.Reaches (Crew.calmRules size respond) crew crew' ∧ r < size ∧
      (crew'.hands r).stage = .unwinding untold := by
  -- on the collectives before the end of the rank, each of which can be carried out over messages
  induction h generalizing programs states count crew with
  | done h => nomatch houtcome
  | @panic pauses r hr h =>
    rw [← hpauses r hr] at h
    obtain ⟨s', hgoes⟩ : ∃ s', Hand.Goes (Crew.calmRules size respond) r
        (crew.hands r, crew.network)
        (⟨s', [], .unwinding (Place.peers ⟨r, size⟩)⟩, crew.network) := by
      rw [hwork.hands r hr]
      exact Program.goes_panic h
    refine ⟨_, r, Place.peers ⟨r, size⟩, Crew.reaches_of_goes hr hgoes, hr, ?_⟩
    show (Function.update crew.hands r _ r).stage = _
    rw [Function.update_self]
  | @broadcast pauses payload next states' transfers outcome h hrest ih =>
    obtain ⟨crew₁, hmeet, hwork⟩ := hwork.meet (fun r hr => (hpauses r hr).trans (h r hr))
      (fun _ => nofun) fun _ => rfl
    obtain ⟨crew₂, hreaches, hwork⟩ := hwork.broadcast hsize
    obtain ⟨crew₃, r, untold, hend, hr, hstage⟩ := ih houtcome hwork fun _ _ => rfl
    exact ⟨crew₃, r, untold, (hmeet.trans hreaches).trans hend, hr, hstage⟩
  | @gather pauses payload next states' transfers outcome h hrest ih =>
    obtain ⟨crew₁, hmeet, hwork⟩ := hwork.meet (fun r hr => (hpauses r hr).trans (h r hr))
      (fun _ => nofun) fun _ => rfl
    obtain ⟨crew₂, hreaches, hwork⟩ := hwork.gather hsize
    obtain ⟨crew₃, r, untold, hend, hr, hstage⟩ := ih houtcome hwork fun _ _ => rfl
    exact ⟨crew₃, r, untold, (hmeet.trans hreaches).trans hend, hr, hstage⟩

/-- Where no rank is ended by its model over messages, none is in lockstep, and the ranks come to
their results. -/
theorem Lockstep.exists_results {size : Nat} {respond : Rank → Responder σ}
    {programs : Rank → Program rankAccess τ} {states : Rank → σ} {transfers : List Transfer}
    {outcome : Option (Rank → τ)}
    (h : Lockstep size respond (fun r => (programs r).pause (respond r) (states r)) transfers
      outcome) (hsize : rootRank < size)
    (hcalm : ∀ reached,
      Crew.Reaches (Crew.calmRules size respond) (Crew.ofPrograms size 0 states programs) reached →
        ∀ r < size, ∀ untold, (reached.hands r).stage ≠ .unwinding untold) :
    ∃ results, outcome = some results := by
  cases outcome with
  | some results => exact ⟨results, rfl⟩
  | none =>
    obtain ⟨reached, r, untold, hreaches, hr, hstage⟩ :=
      h.reaches_unwinding rfl hsize .new fun _ _ => rfl
    exact absurd hstage (hcalm reached hreaches r hr untold)

/-! ## Ranks in a given order -/

/-- What a rank that is at work does next: its model answers, a message is sent, or one is taken out
of its mailbox or put aside. -/
def Program.act (respond : Responder σ) (me : Rank) :
    Program link τ → σ → Network → Option (Program link τ × σ × Network)
  | .done _, _, _ => none
  | .call (.model c) next, s, net =>
    match respond c s with
    | (some reply, s) => some (next reply, s, net)
    | (none, _) => none
  | .call (.send dest m) next, s, net =>
    let (delivered, net) := net.send dest (.message m)
    some (next delivered, s, net)
  | .call (.receive w) next, s, net =>
    match net.mailbox? me with
    | none => none
    | some b =>
      match b.look w with
      | .message m left => some (next (.ok m), s, net.put me (some left))
      | .early _ left => some (.call (.receive w) next, s, net.put me (some left))
      | _ => none

theorem Program.step_of_act {alone : Prop} {p p' : Program link (ρ × Nat)} {s s' : σ}
    (h : p.act (rules.respond me) me s net = some (p', s', net')) (past : List ρ)
    (todo : List (Job ρ)) :
    Hand.Step rules alone me ⟨s, past, .working p todo⟩ net ⟨s', past, .working p' todo⟩ net' := by
  -- `act` has a value only where a rule for the next call applies
  cases p with
  | done r => cases h
  | call c next =>
    cases c with
    | model c =>
      rw [act] at h
      rcases hreply : rules.respond me c s with ⟨_ | reply, s₁⟩
      · rw [hreply] at h
        cases h
      · rw [hreply] at h
        cases h
        exact .model hreply
    | send dest m =>
      cases h
      exact .send
    | receive w =>
      rw [act] at h
      cases hbox : net.mailbox? me with
      | none =>
        rw [hbox] at h
        cases h
      | some b =>
        rw [hbox] at h
        dsimp only at h
        cases hlook : b.look w with
        | message m left =>
          rw [hlook] at h
          cases h
          exact .message hbox hlook
        | early m left =>
          rw [hlook] at h
          cases h
          exact .early hbox hlook
        | down | lost | nothing =>
          rw [hlook] at h
          cases h

namespace Crew

/-- Some ranks do one thing each, in this order. -/
def follow (respond : Rank → Responder σ) : List Rank → Crew σ ρ → Option (Crew σ ρ)
  | [], crew => some crew
  | me :: order, crew =>
    match (crew.hands me).stage with
    | .working p todo =>
      match p.act (respond me) me (crew.hands me).state crew.network with
      | some (p, s, net) =>
        follow respond order
          ⟨Function.update crew.hands me ⟨s, (crew.hands me).past, .working p todo⟩, net⟩
      | none => none
    | _ => none

/-- What ranks do in a given order is one of the things that can happen. -/
theorem reaches_of_follow {order : List Rank} (hsize : ∀ r ∈ order, r < rules.size)
    {crew crew' : Crew σ ρ} (h : follow rules.respond order crew = some crew') :
    Reaches rules crew crew' := by
  -- on the order: as long as it can be followed, the rank named next takes a step
  induction order generalizing crew with
  | nil =>
    cases h
    exact .refl
  | cons me order ih =>
    obtain ⟨hme, hsize⟩ := List.forall_mem_cons.mp hsize
    rw [follow] at h
    split at h
    · next p todo hstage =>
      split at h
      · next p' s net hact =>
        refine .head ⟨me, hme, _, _, ?_, rfl⟩ (ih hsize h)
        have hstep : Hand.Step rules (crew.IsAlone rules.size me) me
            ⟨(crew.hands me).state, (crew.hands me).past, .working p todo⟩ crew.network
            ⟨s, (crew.hands me).past, .working p' todo⟩ net := Program.step_of_act hact _ _
        rwa [← hstage] at hstep
      · cases h
    · cases h

end Crew

end Nlp
