import Nlp.Proofs.Contract
import Nlp.Proofs.Group.Conformance

/-!
# The collectives follow their transfers

A broadcast and a gather do what a plan with that transfer allows, and give what the transfer has
to deliver, or a fault where ranks may unwind.  The parts of a gather come in any order; those that
have come are at every time the parts of the ranks that have been met.

## Main definitions

* `Exchange.Follows`: the judgment for programs that count their collectives and may fail.

## Main results

* `Exchange.sendAll_follows`, `Exchange.collectParts_follows`: the parts of the two collectives.
* `Transfer.call_follows`: a rank's part in a transfer.
-/

namespace Nlp

variable {σ τ υ : Type} {plan : Plan σ} {me : Rank}

/-! ## All results of the parts of a collective -/

namespace Always

/-- A send counts nothing, whether the message is delivered or not. -/
theorem holds_send {C : Contract link} {inv : Nat → Prop} {dest : Rank} {m : Message}
    (hasks : C.asks (.send dest m)) :
    (((Always.program C).state inv).except CommFault).holds (Exchange.send dest m)
      fun _ => True := by
  intro count hcount
  refine ⟨hasks, fun delivered _ => ?_⟩
  cases delivered with
  | true => exact ⟨fun _ _ => trivial, hcount⟩
  | false => exact ⟨fun _ _ => trivial, hcount⟩

variable (A : Always Exchange)

theorem holds_sendAll {m : Message}
    (hsend : ∀ dest, A.holds (Exchange.send dest m) fun _ => True) (dests : List Rank) :
    A.holds (Exchange.sendAll m dests) fun _ => True := by
  induction dests with
  | nil => exact A.pure () trivial
  | cons dest dests ih => exact A.seq (hsend dest) fun _ => ih

theorem holds_collectParts {sequence : Nat} {post : Message → Prop}
    (hreceive : A.holds (Exchange.receive ⟨.gather, sequence, none⟩) post) (missing : Nat)
    (parts : Parts) : A.holds (Exchange.collectParts sequence missing parts) fun _ => True := by
  induction missing generalizing parts with
  | zero => exact A.pure parts trivial
  | succ missing ih => exact A.chain hreceive fun m _ => ih _

end Always

/-! ## Programs that count their collectives -/

namespace Exchange

/-- From a count, a mark and a state, the exchange follows the plan. -/
def Follows (plan : Plan σ) (me : Rank) (post : Except CommFault τ → Nat → Mark → σ → Prop)
    (x : Exchange τ) (count : Nat) : Mark → σ → Prop :=
  (x.run.run count).Follows plan me fun r => post r.1 r.2

variable {post : Except CommFault τ → Nat → Mark → σ → Prop} {count : Nat} {mark : Mark} {s : σ}

theorem follows_pure {r : τ} (h : post (.ok r) count mark s) :
    Follows plan me post (pure r) count mark s :=
  ⟨mark, .refl, h⟩

theorem follows_throw {fault : CommFault} (h : post (.error fault) count mark s) :
    Follows plan me post (throw fault) count mark s :=
  ⟨mark, .refl, h⟩

/-- A sequence goes on from the result of its first part, and fails where that fails. -/
theorem follows_bind {post : Except CommFault υ → Nat → Mark → σ → Prop} {x : Exchange τ}
    {f : τ → Exchange υ}
    (h : Follows plan me
      (fun r count mark s => match r with
        | .ok r => Follows plan me post (f r) count mark s
        | .error fault => Follows plan me post (throw fault) count mark s) x count mark s) :
    Follows plan me post (x >>= f) count mark s := by
  refine Program.Follows.chain ?_ h
  rintro ⟨r, count⟩ mark s hr
  cases r with
  | ok r => exact hr
  | error fault => exact hr

theorem Follows.mono {post' : Except CommFault τ → Nat → Mark → σ → Prop} {x : Exchange τ}
    (himp : ∀ r count mark s, post r count mark s → post' r count mark s)
    (h : Follows plan me post x count mark s) : Follows plan me post' x count mark s :=
  Program.Follows.mono (fun (r : Except CommFault τ × Nat) => himp r.1 r.2) h

theorem follows_map {post : Except CommFault υ → Nat → Mark → σ → Prop} {x : Exchange τ} (f : τ → υ)
    (h : Follows plan me (fun r => post (r.map f)) x count mark s) :
    Follows plan me post (f <$> x) count mark s := by
  rw [map_eq_pure_bind]
  refine follows_bind (h.mono ?_)
  rintro (fault | r) count mark s hr
  · exact follows_throw hr
  · exact follows_pure hr

theorem Follows.advance {x : Exchange τ} {mark' : Mark} (hadvance : plan.Advances me mark mark')
    (h : Follows plan me post x count mark' s) : Follows plan me post x count mark s :=
  Program.Follows.advance hadvance h

theorem follows_nextSequence {post : Except CommFault Nat → Nat → Mark → σ → Prop}
    (h : post (.ok count) (count + 1) mark s) :
    Follows plan me post nextSequence count mark s :=
  ⟨mark, .refl, h⟩

/-- A message of the current transfer may be sent to whoever awaits it. -/
theorem follows_send {post : Except CommFault Unit → Nat → Mark → σ → Prop} {t : Transfer}
    {dest : Rank} (ht : plan.Current mark t) (hcarries : t.Carries plan.size me dest)
    (hmet : dest ∉ mark.met) (hok : post (.ok ()) count (mark.meet dest) s)
    (hfault : plan.faulty → post (.error (.hungUp dest)) count mark s) :
    Follows plan me post (send dest (t.message me mark.count)) count mark s :=
  ⟨mark, .refl, t, ht, hcarries, hmet, rfl, ⟨_, .refl, hok⟩, fun hf => ⟨_, .refl, hfault hf⟩⟩

/-- A message of the current transfer may be awaited, if somebody who has not been met sends
one. -/
theorem follows_receive {post : Except CommFault Message → Nat → Mark → σ → Prop} {t : Transfer}
    {w : Wanted} (ht : plan.Current mark t) (hcollective : w.collective = t.collective)
    (hsequence : w.sequence = mark.count)
    (hok : ∀ source, t.Carries plan.size source me → source ∉ mark.met →
      w.source.all (fun r => r = source) →
        post (.ok (t.message source mark.count)) count (mark.meet source) s)
    (hmissing : ∃ source, t.Carries plan.size source me ∧ source ∉ mark.met ∧
      w.source.all fun r => r = source)
    (hfault : plan.faulty → ∀ fault, post (.error fault) count mark s) :
    Follows plan me post (receive w) count mark s :=
  ⟨mark, .refl, t, ht, hcollective, hsequence,
    fun source hs hmet hw => ⟨_, .refl, hok source hs hmet hw⟩, fun _ => hmissing,
    fun hf fault => ⟨_, .refl, hfault hf fault⟩⟩

/-- The mark is still at the transfer, and these peers have been met, or ranks may unwind and the
exchange has failed. -/
def Met (plan : Plan σ) (k n : Nat) (s : σ) (met : List Rank) :
    Except CommFault Unit → Nat → Mark → σ → Prop :=
  fun r count mark s' => count = n ∧ s' = s ∧ mark.count = k ∧
    match r with
    | .ok () => met ⊆ mark.met
    | .error _ => plan.faulty

/-- A message to every rank that awaits it. -/
theorem sendAll_follows {t : Transfer} (ht : plan.Current mark t) {dests : List Rank}
    (hdests : ∀ dest ∈ dests, t.Carries plan.size me dest ∧ dest ∉ mark.met)
    (hnodup : dests.Nodup) :
    Follows plan me (Met plan mark.count count s (dests ++ mark.met))
      (sendAll (t.message me mark.count) dests) count mark s := by
  -- on the ranks still to be sent the message, while those that were are added to the mark
  induction dests generalizing mark with
  | nil => exact follows_pure ⟨rfl, rfl, rfl, fun _ h => h⟩
  | cons dest dests ih =>
    obtain ⟨hdest, hdests⟩ := List.forall_mem_cons.mp hdests
    obtain ⟨hnew, hnodup⟩ := List.nodup_cons.mp hnodup
    refine follows_bind (follows_send ht hdest.1 hdest.2 ?_ fun hf =>
      follows_throw ⟨rfl, rfl, rfl, hf⟩)
    have hrest : ∀ d ∈ dests, t.Carries plan.size me d ∧ d ∉ (mark.meet dest).met := by
      intro d hd
      refine ⟨(hdests d hd).1, ?_⟩
      rintro (_ | ⟨_, hmet⟩)
      · exact hnew hd
      · exact (hdests d hd).2 hmet
    refine Follows.mono ?_ (@ih (mark.meet dest) ht hrest hnodup)
    rintro r n mark' s' ⟨rfl, rfl, hcount, hr⟩
    refine ⟨rfl, rfl, hcount, ?_⟩
    cases r with
    | ok _ =>
      intro d hd
      refine hr ?_
      simp only [Mark.meet, List.mem_append, List.mem_cons] at hd ⊢
      tauto
    | error _ => exact hr

/-- The ranks the root of a gather still waits for. -/
def missing (size : Nat) (me : Rank) (mark : Mark) : List Rank :=
  (List.range size).filter fun r => r ≠ me ∧ r ∉ mark.met

theorem mem_missing {size : Nat} {r : Rank} :
    r ∈ missing size me mark ↔ r < size ∧ r ≠ me ∧ r ∉ mark.met := by
  simp [missing]

theorem length_missing_meet {size n : Nat} {source : Rank}
    (hlength : (missing size me mark).length = n + 1) (hsource : source ∈ missing size me mark) :
    (missing size me (mark.meet source)).length = n := by
  have herase : missing size me (mark.meet source) = (missing size me mark).erase source := by
    rw [missing, missing, (List.nodup_range.filter _).erase_eq_filter, List.filter_filter]
    refine List.filter_congr fun r _ => ?_
    by_cases hr : r = source <;> simp [Mark.meet, hr]
  rw [herase, List.length_erase_of_mem hsource, hlength]
  rfl

/-- The parts that have come are those of the ranks that have been met, and the own one. -/
def comeParts (size : Nat) (t : Transfer) (me : Rank) (mark : Mark) : Parts :=
  t.partsOf size fun r => r = me ∨ r ∈ mark.met

theorem length_missing_start {size k : Nat} (hme : me < size) :
    (missing size me ⟨k, []⟩).length = size - 1 := by
  have herase : missing size me ⟨k, []⟩ = (List.range size).erase me := by
    rw [missing, List.nodup_range.erase_eq_filter]
    refine List.filter_congr fun r _ => ?_
    by_cases hr : r = me <;> simp [hr]
  rw [herase, List.length_erase_of_mem (List.mem_range.mpr hme), List.length_range]

theorem comeParts_start {size k : Nat} {t : Transfer} (hme : me < size) :
    comeParts size t me ⟨k, []⟩ = [(me, t.payload me)] := by
  have hnone : t.partsOf size (fun _ => false) = [] := by
    simp [Transfer.partsOf]
  have hinsert : Ascending.insert me (t.payload me) (t.partsOf size fun _ => false) = _ :=
    Transfer.insert_partsOf hme rfl
  rw [hnone] at hinsert
  rw [comeParts]
  simpa [Ascending.insert] using hinsert.symm

/-- The mark is still at the transfer, and the parts of all ranks have come, or ranks may unwind
and the exchange has failed. -/
def Collected (plan : Plan σ) (t : Transfer) (me : Rank) (k n : Nat) (s : σ) :
    Except CommFault Parts → Nat → Mark → σ → Prop :=
  fun r count mark s' => count = n ∧ s' = s ∧ mark.count = k ∧
    match r with
    | .ok parts => parts = t.allParts plan.size ∧ ∀ r < plan.size, r ≠ me → r ∈ mark.met
    | .error _ => plan.faulty

theorem collectParts_follows {t : Transfer} (ht : plan.Current mark t)
    (hgather : t.collective = .gather) (hroot : t.root = me) (hme : me < plan.size) {n : Nat}
    (hmissing : (missing plan.size me mark).length = n) :
    Follows plan me (Collected plan t me mark.count count s)
      (collectParts mark.count n (comeParts plan.size t me mark)) count mark s := by
  -- on the number of parts to come: each one that comes is of a rank still missing
  induction n generalizing mark with
  | zero =>
    have hall : ∀ r < plan.size, r ≠ me → r ∈ mark.met := by
      intro r hr hne
      by_contra hmet
      have hmem := mem_missing.mpr ⟨hr, hne, hmet⟩
      rw [List.length_eq_zero_iff.mp hmissing] at hmem
      cases hmem
    refine follows_pure ⟨rfl, rfl, rfl, ?_, hall⟩
    refine Transfer.partsOf_all fun r hr => ?_
    by_cases hne : r = me
    · simp [hne]
    · simp [hall r hr hne]
  | succ n ih =>
    have hcarries : ∀ source, t.Carries plan.size source me ↔ source < plan.size ∧ source ≠ me := by
      intro source
      simp [Transfer.Carries, hgather, hroot, hme]
    -- some rank is missing, so the wait is for a message that the plan has
    obtain ⟨first, hfirst⟩ := List.exists_mem_of_length_pos (by omega :
      0 < (missing plan.size me mark).length)
    obtain ⟨hlt, hne, hmet⟩ := mem_missing.mp hfirst
    refine follows_bind (follows_receive ht hgather.symm rfl ?_
      ⟨first, (hcarries first).mpr ⟨hlt, hne⟩, hmet, rfl⟩
      fun hf _ => follows_throw ⟨rfl, rfl, rfl, hf⟩)
    intro source hsource hmet _
    obtain ⟨hlt, hne⟩ := (hcarries source).mp hsource
    have hrest := @ih (mark.meet source) ht
      (length_missing_meet hmissing (mem_missing.mpr ⟨hlt, hne, hmet⟩))
    have hparts : Ascending.insert source (t.payload source) (comeParts plan.size t me mark) =
        comeParts plan.size t me (mark.meet source) := by
      rw [comeParts, Transfer.insert_partsOf hlt (by simp [hne, hmet])]
      refine congrArg (t.partsOf plan.size) (funext fun r => ?_)
      simp [Mark.meet, Bool.or_left_comm]
    rw [← hparts] at hrest
    exact hrest

theorem follows_checkRoot {post : Except CommFault Unit → Nat → Mark → σ → Prop} {here : Place}
    {root : Rank} (hroot : root < here.size) (h : post (.ok ()) count mark s) :
    Follows plan me post (here.checkRoot root) count mark s := by
  rw [Place.checkRoot, if_pos hroot]
  exact follows_pure h

end Exchange

/-! ## Transfers -/

namespace Transfer

/-- The transfer is passed, and the rank has been given what it has to be, or ranks may unwind and
the call has failed. -/
def Passed (plan : Plan σ) (t : Transfer) (me : Rank) (k : Nat) (s : σ) :
    Except CommFault Delivery → Nat → Mark → σ → Prop :=
  fun r count mark s' => count = k + 1 ∧ s' = s ∧ mark = ⟨k + 1, []⟩ ∧
    match r with
    | .ok delivery => delivery = t.delivery ⟨me, plan.size⟩
    | .error _ => plan.faulty

/-- A rank passes a transfer once it has met its peers there. -/
theorem advances_pass {t : Transfer} {mark : Mark} (ht : plan.Current mark t)
    (h : ¬ plan.faulty → ∀ r, t.Carries plan.size me r ∨ t.Carries plan.size r me → r ∈ mark.met) :
    plan.Advances me mark mark.pass :=
  .single ⟨rfl, t, ht, h⟩

section

variable {γ : Type} {f : γ → Delivery} {t : Transfer} {mark : Mark} {s : σ}

/-- A rank that has met its peers in a transfer, and has been given what it has to be, passes it. -/
theorem follows_given {a : γ} (ht : plan.Current mark t)
    (hmet : ∀ r, t.Carries plan.size me r ∨ t.Carries plan.size r me → r ∈ mark.met)
    (hgiven : f a = t.delivery ⟨me, plan.size⟩) :
    Exchange.Follows plan me (fun r => t.Passed plan me mark.count s (r.map f)) (pure a)
      (mark.count + 1) mark s :=
  (Exchange.follows_pure ⟨rfl, rfl, rfl, hgiven⟩).advance (advances_pass ht fun _ => hmet)

/-- Where ranks may unwind, a rank may fail in a transfer. -/
theorem follows_failed {fault : CommFault} (ht : plan.Current mark t) (hf : plan.faulty) :
    Exchange.Follows plan me (fun r => t.Passed plan me mark.count s (r.map f)) (throw fault)
      (mark.count + 1) mark s :=
  (Exchange.follows_throw ⟨rfl, rfl, rfl, hf⟩).advance
    (advances_pass ht fun hcalm => absurd hf hcalm)

end

theorem broadcast_follows {t : Transfer} {k : Nat} {s : σ} (ht : plan.Current ⟨k, []⟩ t)
    (hbroadcast : t.collective = .broadcast) (hroot : t.root < plan.size) (hme : me < plan.size) :
    Exchange.Follows plan me (fun r => t.Passed plan me k s (r.map .bytes))
      ((⟨me, plan.size⟩ : Place).sendToAll t.root (t.payload me)) k ⟨k, []⟩ s := by
  have hcarries : ∀ source dest, t.Carries plan.size source dest ↔
      source < plan.size ∧ dest < plan.size ∧ source ≠ dest ∧ source = t.root := by
    intro source dest
    simp [Carries, hbroadcast]
  have hdelivery : t.delivery ⟨me, plan.size⟩ = .bytes (t.payload t.root) := by
    simp [delivery, hbroadcast]
  unfold Place.sendToAll
  refine Exchange.follows_bind (Exchange.follows_checkRoot hroot ?_)
  refine Exchange.follows_bind (Exchange.follows_nextSequence ?_)
  dsimp only
  split
  -- the root meets all its peers, as their sender
  · next hmine =>
    have hpeers : ∀ dest ∈ Place.peers ⟨me, plan.size⟩,
        t.Carries plan.size me dest ∧ dest ∉ (⟨k, []⟩ : Mark).met := by
      intro dest hdest
      obtain ⟨hlt, hne⟩ := Place.mem_peers.mp hdest
      exact ⟨(hcarries me dest).mpr ⟨hme, hlt, Ne.symm hne, hmine⟩, List.not_mem_nil⟩
    have hmessage : t.message me k = ⟨me, .broadcast, k, t.payload me⟩ := by
      simp [message, hbroadcast]
    have hsend : Exchange.Follows plan me
        (Exchange.Met plan k (k + 1) s (Place.peers ⟨me, plan.size⟩ ++ []))
        (Exchange.sendAll (t.message me k) (Place.peers ⟨me, plan.size⟩)) (k + 1) ⟨k, []⟩ s :=
      Exchange.sendAll_follows ht hpeers (Place.nodup_peers _)
    rw [hmessage] at hsend
    refine Exchange.follows_bind (hsend.mono ?_)
    rintro (fault | _) _ ⟨_, met⟩ _ ⟨rfl, rfl, rfl, hmet⟩
    · exact follows_failed ht hmet
    · have hall : ∀ r, t.Carries plan.size me r ∨ t.Carries plan.size r me → r ∈ met := by
        rintro r (hr | hr)
        · obtain ⟨-, hlt, hne, -⟩ := (hcarries me r).mp hr
          exact hmet (List.mem_append_left _ (Place.mem_peers.mpr ⟨hlt, Ne.symm hne⟩))
        · obtain ⟨-, -, hne, hroot⟩ := (hcarries r me).mp hr
          exact absurd (hroot.trans hmine.symm) hne
      have hgiven : Delivery.bytes (t.payload me) = t.delivery ⟨me, plan.size⟩ := by
        rw [hdelivery, ← hmine]
      exact follows_given ht hall hgiven
  -- any other rank meets the root alone, and takes the message from it
  · next hother =>
    have hroot' : t.Carries plan.size t.root me :=
      (hcarries t.root me).mpr ⟨hroot, hme, Ne.symm hother, rfl⟩
    refine Exchange.follows_bind (Exchange.follows_receive ht hbroadcast.symm rfl ?_
      ⟨t.root, hroot', List.not_mem_nil, by simp⟩ fun hf fault => ?_)
    · intro source hsource _ _
      obtain ⟨-, -, -, rfl⟩ := (hcarries source me).mp hsource
      have hall : ∀ r, t.Carries plan.size me r ∨ t.Carries plan.size r me → r ∈ [t.root] := by
        rintro r (hr | hr)
        · exact absurd ((hcarries me r).mp hr).2.2.2 hother
        · rw [((hcarries r me).mp hr).2.2.2]
          exact List.mem_singleton_self _
      exact follows_given ht hall hdelivery.symm
    · exact follows_failed ht hf

theorem gather_follows {t : Transfer} {k : Nat} {s : σ} (ht : plan.Current ⟨k, []⟩ t)
    (hgather : t.collective = .gather) (hroot : t.root < plan.size) (hme : me < plan.size) :
    Exchange.Follows plan me (fun r => t.Passed plan me k s (r.map .parts))
      ((⟨me, plan.size⟩ : Place).collect t.root (t.payload me)) k ⟨k, []⟩ s := by
  have hcarries : ∀ source dest, t.Carries plan.size source dest ↔
      source < plan.size ∧ dest < plan.size ∧ source ≠ dest ∧ dest = t.root := by
    intro source dest
    simp [Carries, hgather]
  unfold Place.collect
  refine Exchange.follows_bind (Exchange.follows_checkRoot hroot ?_)
  refine Exchange.follows_bind (Exchange.follows_nextSequence ?_)
  dsimp only
  split
  -- the root meets all its peers, in the order in which their messages come
  · next hmine =>
    have hparts := Exchange.comeParts_start (t := t) (k := k) hme
    have hlength := Exchange.length_missing_start (k := k) hme
    have hcollect : Exchange.Follows plan me (Exchange.Collected plan t me k (k + 1) s)
        (Exchange.collectParts k (plan.size - 1) (Exchange.comeParts plan.size t me ⟨k, []⟩))
        (k + 1) ⟨k, []⟩ s :=
      Exchange.collectParts_follows ht hgather hmine.symm hme hlength
    rw [hparts] at hcollect
    refine Exchange.follows_bind (hcollect.mono ?_)
    rintro (fault | parts) _ ⟨_, met⟩ _ ⟨rfl, rfl, rfl, hmet⟩
    · exact follows_failed ht hmet
    · obtain ⟨rfl, hmet⟩ := hmet
      have hall : ∀ r, t.Carries plan.size me r ∨ t.Carries plan.size r me → r ∈ met := by
        rintro r (hr | hr)
        · obtain ⟨-, -, hne, hroot⟩ := (hcarries me r).mp hr
          exact absurd (hmine.trans hroot.symm) hne
        · obtain ⟨hlt, -, hne, -⟩ := (hcarries r me).mp hr
          exact hmet r hlt hne
      have hgiven : Delivery.parts (some (t.allParts plan.size)) = t.delivery ⟨me, plan.size⟩ := by
        simp [delivery, hgather, hmine]
      exact follows_given ht hall hgiven
  -- any other rank meets the root alone, as its sender
  · next hother =>
    have hsend : t.Carries plan.size me t.root :=
      (hcarries me t.root).mpr ⟨hme, hroot, hother, rfl⟩
    have hmessage : t.message me k = ⟨me, .gather, k, t.payload me⟩ := by
      simp [message, hgather]
    rw [← hmessage]
    refine Exchange.follows_bind (Exchange.follows_send ht hsend List.not_mem_nil ?_ fun hf => ?_)
    · have hall : ∀ r, t.Carries plan.size me r ∨ t.Carries plan.size r me → r ∈ [t.root] := by
        rintro r (hr | hr)
        · rw [((hcarries me r).mp hr).2.2.2]
          exact List.mem_singleton_self _
        · exact absurd ((hcarries r me).mp hr).2.2.2 hother
      have hgiven : Delivery.parts none = t.delivery ⟨me, plan.size⟩ := by
        simp [delivery, hgather, hother]
      exact follows_given ht hall hgiven
    · exact follows_failed ht hf

/-- A rank's part in a transfer follows a plan that has the transfer at this position. -/
theorem call_follows {t : Transfer} {k : Nat} {s : σ} (ht : plan.Current ⟨k, []⟩ t)
    (hroot : t.root < plan.size) (hme : me < plan.size) :
    ((t.call ⟨me, plan.size⟩).run k).Follows plan me (fun r => t.Passed plan me k s r.1 r.2) ⟨k, []⟩
      s := by
  cases hcollective : t.collective with
  | broadcast =>
    have h := Exchange.follows_map _ (broadcast_follows (s := s) ht hcollective hroot hme)
    rw [call, hcollective]
    exact h
  | gather =>
    have h := Exchange.follows_map _ (gather_follows (s := s) ht hcollective hroot hme)
    rw [call, hcollective]
    exact h

end Transfer

end Nlp
