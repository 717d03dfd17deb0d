import Nlp.Proofs.Group.Exchange
import Nlp.Proofs.Group.Progress

/-!
# What the collectives of a group deliver

The ranks of a group carry out the same list of transfers, in any order of their steps and with any
of them unwinding at any point.  A call that returns gives what its transfer has to deliver, and
where nobody unwinds every call returns.

## Main definitions

* `Crew.carryingOut`, `Transfer.rules`: a group with a list of transfers, and what can happen there.

## Main results

* `Crew.sequence_lt_of_reaches`: the positions of messages stay within their limit.
* `Crew.collectives_deliver`: what the calls of the list return.
-/

namespace Nlp

namespace Transfer

/-- What can happen where the ranks only carry out transfers: after a fault a rank may leave its
other calls. -/
def rules (size : Nat) (faulty : Prop) : Crew.Rules Unit (Except CommFault Delivery) :=
  ⟨size, fun _ _ _ => (none, ()), fun r => ∃ fault, r = .error fault, faulty⟩

/-- The plan of a group that carries out transfers. -/
def plan (size : Nat) (faulty : Prop) (transfers : List Transfer) : Plan Unit :=
  ⟨size, fun _ _ _ => (none, ()), faulty, transfers⟩

/-- A call gives what the transfer has to deliver, or fails where ranks may unwind. -/
def Settles (faulty : Prop) (t : Transfer) (here : Place) : Except CommFault Delivery → Prop
  | .ok d => d = t.delivery here
  | .error _ => faulty

variable {size : Nat} {faulty : Prop} {me : Rank}

/-- The calls of a rank follow the plan from wherever they start. -/
theorem calls_follow (before : List Transfer) {todo : List Transfer}
    (hroots : ∀ t ∈ todo, t.root < size) (hme : me < size) :
    (plan size faulty (before ++ todo)).JobsFollow (rules size faulty).givesUp me
      (todo.map (·.call ⟨me, size⟩)) (todo.map fun t => t.Settles faulty ⟨me, size⟩)
      before.length () := by
  -- on the calls that are left: those made before them are the beginning of the plan
  induction todo generalizing before with
  | nil => exact .inr (by simp [plan])
  | cons t todo ih =>
    obtain ⟨hroot, hroots⟩ := List.forall_mem_cons.mp hroots
    have hcurrent : (plan size faulty (before ++ t :: todo)).Current ⟨before.length, []⟩ t := by
      simp [Plan.Current, plan]
    refine (call_follows (s := ()) hcurrent hroot hme).mono ?_
    rintro ⟨r, count⟩ mark ⟨⟩ ⟨rfl, -, rfl, hr⟩
    have hrest := ih (before ++ [t]) hroots
    rw [List.append_assoc, List.length_append] at hrest
    cases r with
    | ok d => exact ⟨rfl, hr, by rintro ⟨_, ⟨⟩⟩, hrest⟩
    | error fault => exact ⟨rfl, hr, fun _ => hr, hrest⟩

end Transfer

namespace Crew

/-- A group every rank of which carries out the transfers. -/
def carryingOut (size : Nat) (transfers : List Transfer) : Crew Unit (Except CommFault Delivery) :=
  .new size 0 (fun _ => ()) fun r => transfers.map (·.call ⟨r, size⟩)

variable {size : Nat} {transfers : List Transfer} {faulty : Prop}
  {crew : Crew Unit (Except CommFault Delivery)} {me : Rank}

theorem consistent_of_reaches (hroots : ∀ t ∈ transfers, t.root < size)
    (h : Reaches (Transfer.rules size faulty) (carryingOut size transfers) crew) :
    ∃ marks, Consistent (Transfer.plan size faulty transfers)
      (Transfer.rules size faulty).givesUp
      (fun r => transfers.map fun t => t.Settles faulty ⟨r, size⟩) marks crew := by
  have hstart :
      Consistent (Transfer.plan size faulty transfers) (Transfer.rules size faulty).givesUp
      (fun r => transfers.map fun t => t.Settles faulty ⟨r, size⟩) (fun _ => ⟨0, []⟩)
      (carryingOut size transfers) :=
    Consistent.new fun r hr => Transfer.calls_follow [] hroots hr
  exact hstart.reaches h

/-- A group does not run out of positions in as many transfers as an endpoint can count, whoever
unwinds. -/
theorem sequence_lt_of_reaches (hroots : ∀ t ∈ transfers, t.root < size)
    (hcount : transfers.length ≤ Message.sequenceLimit)
    (h : Reaches (Transfer.rules size faulty) (carryingOut size transfers) crew) {r : Rank}
    {m : Message} (hm : crew.network.Holds r m) : m.sequence < Message.sequenceLimit := by
  obtain ⟨marks, hconsistent⟩ := consistent_of_reaches hroots h
  obtain ⟨t, ht, -⟩ := hconsistent.ledger.genuine r m hm
  obtain ⟨hlt, -⟩ := List.getElem?_eq_some_iff.mp ht
  exact Nat.lt_of_lt_of_le hlt hcount

/-- A result belongs to the transfer of its position. -/
theorem settles_of_reaches (hroots : ∀ t ∈ transfers, t.root < size)
    (h : Reaches (Transfer.rules size faulty) (carryingOut size transfers) crew) (hme : me < size)
    {k : Nat} {r : Except CommFault Delivery} (hr : (crew.hands me).past[k]? = some r) :
    ∃ t, transfers[k]? = some t ∧ t.Settles faulty ⟨me, size⟩ r := by
  obtain ⟨marks, hconsistent⟩ := consistent_of_reaches hroots h
  obtain ⟨done, left, hexpected, hpast, -⟩ := hconsistent.hand me hme
  obtain ⟨hk, hget⟩ := List.getElem?_eq_some_iff.mp hr
  have hdone : k < done.length := hpast.length_eq ▸ hk
  have hlength := congrArg List.length hexpected
  rw [List.length_map, List.length_append] at hlength
  have hlt : k < transfers.length := by omega
  refine ⟨transfers[k], List.getElem?_eq_getElem hlt, ?_⟩
  have hgood := List.forall₂_iff_get.mp hpast |>.2 k hk hdone
  have hget' : done[k] = transfers[k].Settles faulty ⟨me, size⟩ := by
    have hsome := congrArg (·[k]?) hexpected
    simpa [List.getElem?_append_left hdone, hlt, hdone] using hsome.symm
  simpa [hget, hget'] using hgood

/-- The collectives of a group deliver.  Whoever unwinds, a call that returns gives what the
transfer of its position has to deliver to its rank.  Where nobody does, every call returns, no run
goes on forever, and a run that cannot go on has brought every rank the results of all transfers. -/
theorem collectives_deliver (hroots : ∀ t ∈ transfers, t.root < size) :
    (∀ crew, Reaches (Transfer.rules size True) (carryingOut size transfers) crew →
      ∀ r < size, ∀ (k : Nat) (d : Delivery), (crew.hands r).past[k]? = some (.ok d) →
        ∃ t, transfers[k]? = some t ∧ d = t.delivery ⟨r, size⟩) ∧
    (∀ crew, Reaches (Transfer.rules size False) (carryingOut size transfers) crew →
      ∀ r < size, ∀ (k : Nat) (result : Except CommFault Delivery),
        (crew.hands r).past[k]? = some result →
          ∃ t, transfers[k]? = some t ∧ result = .ok (t.delivery ⟨r, size⟩)) ∧
    (∀ crew, Reaches (Transfer.rules size False) (carryingOut size transfers) crew →
      (∀ next, ¬ Step (Transfer.rules size False) crew next) →
        ∀ r < size, (crew.hands r).past = transfers.map fun t => .ok (t.delivery ⟨r, size⟩)) ∧
    WellFounded fun next crew => Step (Transfer.rules size False) crew next := by
  have hcalm : ∀ crew, Reaches (Transfer.rules size False) (carryingOut size transfers) crew →
      ∀ r < size, ∀ (k : Nat) (result : Except CommFault Delivery),
        (crew.hands r).past[k]? = some result →
          ∃ t, transfers[k]? = some t ∧ result = .ok (t.delivery ⟨r, size⟩) := by
    intro crew h r hr k result hresult
    obtain ⟨t, ht, hsettles⟩ := settles_of_reaches hroots h hr hresult
    cases result with
    | ok d => exact ⟨t, ht, congrArg _ hsettles⟩
    | error fault => exact hsettles.elim
  refine ⟨fun crew h r hr k d hd => settles_of_reaches hroots h hr hd, hcalm, ?_,
    step_wellFounded _⟩
  -- a rank that is stuck has made all its calls, so there is a result for every transfer
  intro crew h hstuck r hr
  obtain ⟨marks, hconsistent⟩ := consistent_of_reaches hroots h
  have hlength := (hconsistent.of_stuck id hstuck hr).1.length_eq
  rw [List.length_map] at hlength
  refine List.ext_getElem (by rw [hlength, List.length_map]) fun k hk _ => ?_
  obtain ⟨t, ht, hresult⟩ := hcalm crew h r hr k _ (List.getElem?_eq_getElem hk)
  obtain ⟨hlt, rfl⟩ := List.getElem?_eq_some_iff.mp ht
  rw [hresult, List.getElem_map]

theorem pair_delivers :
    ∃ crew, Reaches (Transfer.rules 2 False)
        (carryingOut 2 [⟨.broadcast, 0, fun _ => [7]⟩, ⟨.gather, 1, fun r => [UInt8.ofNat r]⟩])
        crew ∧
      (crew.hands 0).past = [.ok (.bytes [7]), .ok (.parts none)] ∧
      (crew.hands 1).past = [.ok (.bytes [7]), .ok (.parts (some [(0, [0]), (1, [1])]))] := by
  obtain ⟨crew, hreaches, hstuck⟩ := exists_stuck (Transfer.rules 2 False)
    (carryingOut 2 [⟨.broadcast, 0, fun _ => [7]⟩, ⟨.gather, 1, fun r => [UInt8.ofNat r]⟩])
  have hresults := (collectives_deliver (by simp)).2.2.1 crew hreaches hstuck
  exact ⟨crew, hreaches, hresults 0 (by decide), hresults 1 (by decide)⟩

end Crew

end Nlp
