import Nlp.Proofs.Group.Crew
import Nlp.Proofs.Group.Transfer

/-!
# Programs that follow a plan

A plan is the list of the transfers a group carries out.  The program of a rank follows the plan
from a mark, which says how many transfers the rank has passed and which peers it has met in the
one after them, when it sends and awaits the messages of the current transfer only, each once, and
passes a transfer when it has met all its peers there.  Where ranks may unwind, a call may also
fail, and a rank may pass a transfer without having met everybody.

## Main definitions

* `Mark`, `Mark.Passed`: how far a rank is.
* `Plan`, `Plan.Advances`, `Plan.Allows`: what a plan allows a rank to do next.
* `Program.Follows`: the judgment, by recursion on the program.

## Main results

* `Program.Follows.advance`, `Program.Follows.mono`, `Program.Follows.chain`: the rules of the
  judgment.
-/

namespace Nlp

/-- How far a rank is: the number of transfers it has passed, and the peers it has met in the next
one. -/
structure Mark where
  /-- The transfers that have been passed. -/
  count : Nat
  /-- The peers met since. -/
  met : List Rank

namespace Mark

/-- The rank has exchanged with the peer whatever there is in the transfer of this position, or
never will. -/
def Passed (mark : Mark) (sequence : Nat) (peer : Rank) : Prop :=
  sequence < mark.count ∨ sequence = mark.count ∧ peer ∈ mark.met

/-- One more peer is met. -/
def meet (mark : Mark) (peer : Rank) : Mark :=
  { mark with met := peer :: mark.met }

/-- The transfer is passed. -/
def pass (mark : Mark) : Mark :=
  ⟨mark.count + 1, []⟩

variable {mark : Mark} {sequence : Nat} {peer other : Rank}

theorem passed_meet :
    (mark.meet peer).Passed sequence other ↔
      mark.Passed sequence other ∨ sequence = mark.count ∧ other = peer := by
  simp only [Passed, meet, List.mem_cons]
  tauto

theorem passed_pass :
    mark.pass.Passed sequence other ↔ sequence ≤ mark.count := by
  simp only [Passed, pass, List.not_mem_nil, and_false, or_false]
  exact Nat.lt_succ_iff

theorem Passed.le (h : mark.Passed sequence peer) : sequence ≤ mark.count := by
  rcases h with h | h
  · exact h.le
  · exact h.1.le

theorem passed_count : mark.Passed mark.count peer ↔ peer ∈ mark.met := by
  simp [Passed]

end Mark

/-- What the ranks of a group are to do: the transfers in their order, and whether ranks may
unwind. -/
structure Plan (σ : Type) where
  /-- The number of ranks. -/
  size : Nat
  /-- The answers of the ranks' models. -/
  respond : Rank → Responder σ
  /-- Ranks may unwind at any point. -/
  faulty : Prop
  /-- The transfers. -/
  transfers : List Transfer

namespace Plan

variable {σ : Type}

/-- The transfer at a mark. -/
def Current (plan : Plan σ) (mark : Mark) (t : Transfer) : Prop :=
  plan.transfers[mark.count]? = some t

/-- One transfer is passed. -/
def Advance (plan : Plan σ) (me : Rank) (a b : Mark) : Prop :=
  b = a.pass ∧ ∃ t, plan.Current a t ∧
    (¬ plan.faulty → ∀ r, t.Carries plan.size me r ∨ t.Carries plan.size r me → r ∈ a.met)

/-- Some transfers are passed. -/
abbrev Advances (plan : Plan σ) (me : Rank) : Mark → Mark → Prop :=
  Relation.ReflTransGen (plan.Advance me)

/-- The plan allows a call at a mark, and what follows the call satisfies `after`. -/
def Allows (plan : Plan σ) (me : Rank) :
    (c : LinkCall) → Mark → σ → (after : link.Reply c → Mark → σ → Prop) → Prop
  | .model c, mark, s, after =>
    match plan.respond me c s with
    | (some reply, s') => after reply mark s'
    | (none, _) => plan.faulty
  | .send dest m, mark, s, after =>
    ∃ t, plan.Current mark t ∧ t.Carries plan.size me dest ∧ dest ∉ mark.met ∧
      m = t.message me mark.count ∧ after true (mark.meet dest) s ∧
      (plan.faulty → after false mark s)
  | .receive w, mark, s, after =>
    ∃ t, plan.Current mark t ∧ w.collective = t.collective ∧ w.sequence = mark.count ∧
      (∀ source, t.Carries plan.size source me → source ∉ mark.met →
        w.source.all (fun r => r = source) →
          after (.ok (t.message source mark.count)) (mark.meet source) s) ∧
      (¬ plan.faulty → ∃ source, t.Carries plan.size source me ∧ source ∉ mark.met ∧
        w.source.all fun r => r = source) ∧
      (plan.faulty → ∀ fault, after (.error fault) mark s)

variable {plan : Plan σ} {me : Rank}

theorem Allows.mono {c : LinkCall} {mark : Mark} {s : σ}
    {after after' : link.Reply c → Mark → σ → Prop}
    (himp : ∀ reply mark s, after reply mark s → after' reply mark s)
    (h : plan.Allows me c mark s after) : plan.Allows me c mark s after' := by
  cases c with
  | model c =>
    simp only [Allows] at h ⊢
    split at h
    · exact himp _ _ _ h
    · exact h
  | send dest m =>
    obtain ⟨t, ht, hcarries, hmet, hm, htrue, hfalse⟩ := h
    exact ⟨t, ht, hcarries, hmet, hm, himp _ _ _ htrue, fun hf => himp _ _ _ (hfalse hf)⟩
  | receive w =>
    obtain ⟨t, ht, hcollective, hsequence, hok, hmissing, hfault⟩ := h
    exact ⟨t, ht, hcollective, hsequence,
      fun source hs hmet hw => himp _ _ _ (hok source hs hmet hw),
      hmissing, fun hf fault => himp _ _ _ (hfault hf fault)⟩

end Plan

namespace Program

variable {σ ρ τ : Type} {plan : Plan σ} {me : Rank}

/-- From a mark and a state of its model, the program of the rank `me` does what the plan allows,
and its result satisfies `post` at the mark it ends at. -/
def Follows (plan : Plan σ) (me : Rank) (post : τ → Mark → σ → Prop) :
    Program link τ → Mark → σ → Prop
  | done r, mark, s => ∃ mark', plan.Advances me mark mark' ∧ post r mark' s
  | call c next, mark, s => ∃ mark', plan.Advances me mark mark' ∧
      plan.Allows me c mark' s fun reply mark s => (next reply).Follows plan me post mark s

theorem Follows.advance {post : τ → Mark → σ → Prop} {p : Program link τ} {a b : Mark} {s : σ}
    (hadvance : plan.Advances me a b) (h : p.Follows plan me post b s) :
    p.Follows plan me post a s := by
  cases p with
  | done r =>
    obtain ⟨mark, hmark, hpost⟩ := h
    exact ⟨mark, hadvance.trans hmark, hpost⟩
  | call c next =>
    obtain ⟨mark, hmark, hallows⟩ := h
    exact ⟨mark, hadvance.trans hmark, hallows⟩

/-- A sequence follows the plan part by part. -/
theorem Follows.chain {post : ρ → Mark → σ → Prop} {post' : τ → Mark → σ → Prop}
    {f : ρ → Program link τ}
    (hf : ∀ r mark s, post r mark s → (f r).Follows plan me post' mark s) {p : Program link ρ}
    {mark : Mark} {s : σ} (h : p.Follows plan me post mark s) :
    (p.bind f).Follows plan me post' mark s := by
  induction p generalizing mark s with
  | done r =>
    obtain ⟨mark', hmark, hpost⟩ := h
    exact (hf r mark' s hpost).advance hmark
  | call c next ih =>
    obtain ⟨mark', hmark, hallows⟩ := h
    exact ⟨mark', hmark, hallows.mono fun reply _ _ => ih reply⟩

theorem Follows.mono {post post' : τ → Mark → σ → Prop}
    (himp : ∀ r mark s, post r mark s → post' r mark s) {p : Program link τ} {mark : Mark} {s : σ}
    (h : p.Follows plan me post mark s) : p.Follows plan me post' mark s := by
  have hdone : ∀ r mark s, post r mark s → (done r).Follows plan me post' mark s :=
    fun r mark s hpost => ⟨mark, .refl, himp r mark s hpost⟩
  rw [← bind_pure p]
  exact h.chain hdone

end Program

end Nlp
