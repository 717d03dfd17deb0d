import Nlp.Group.Endpoint
import Mathlib.Tactic.Common

/-!
# Transfers

A transfer is a collective of a whole group, seen from outside: which collective it is, who its
root is and what every rank contributes.  It says which messages have to travel and what every rank
has to be given in the end.

## Main definitions

* `Transfer`, `Transfer.call`: a collective, and what a rank does to take part in it.
* `Transfer.Carries`, `Transfer.message`: the messages that travel.
* `Transfer.delivery`: what a rank is given.
-/

namespace Nlp

theorem Place.mem_peers {here : Place} {r : Rank} :
    r ∈ here.peers ↔ r < here.size ∧ r ≠ here.rank := by
  simp [peers]

theorem Place.nodup_peers (here : Place) : here.peers.Nodup :=
  List.nodup_range.filter _

/-- What a rank is given by a collective. -/
inductive Delivery where
  /-- The bytes of a broadcast. -/
  | bytes (payload : Bytes)
  /-- The parts of a gather, at its root. -/
  | parts (parts : Option Parts)
deriving DecidableEq

/-- A collective of a group. -/
structure Transfer where
  /-- Which collective. -/
  collective : Collective
  /-- The rank whose bytes are distributed, or where they are collected. -/
  root : Rank
  /-- The bytes every rank passes. -/
  payload : Rank → Bytes

namespace Transfer

variable {size : Nat} {t : Transfer} {source dest other : Rank}

/-- A rank's part in the collective. -/
def call (t : Transfer) (here : Place) : StateT Nat (Program link) (Except CommFault Delivery) :=
  match t.collective with
  | .broadcast => (Delivery.bytes <$> here.sendToAll t.root (t.payload here.rank)).run
  | .gather => (Delivery.parts <$> here.collect t.root (t.payload here.rank)).run

/-- The part of every rank, in order. -/
def allParts (size : Nat) (t : Transfer) : Parts :=
  (List.range size).map fun r => (r, t.payload r)

/-- The parts of some ranks, in order. -/
def partsOf (size : Nat) (t : Transfer) (ranks : Rank → Bool) : Parts :=
  ((List.range size).filter ranks).map fun r => (r, t.payload r)

theorem partsOf_all {ranks : Rank → Bool} (h : ∀ r < size, ranks r) :
    t.partsOf size ranks = t.allParts size := by
  rw [partsOf, List.filter_eq_self.mpr fun r hr => h r (List.mem_range.mp hr)]
  rfl

/-- In ascending order, a further part has its place among those of some ranks. -/
theorem insert_map_filter {l : List Rank} (hl : l.Pairwise (· < ·)) {ranks : Rank → Bool}
    (hmem : source ∈ l) (hnew : ranks source = false) :
    Ascending.insert source (t.payload source) ((l.filter ranks).map fun r => (r, t.payload r)) =
      (l.filter fun r => r = source || ranks r).map fun r => (r, t.payload r) := by
  -- on the ranks in order: those before `source` stay in front, those after it are larger
  induction l with
  | nil => cases hmem
  | cons r l ih =>
    obtain ⟨hlt, hl⟩ := List.pairwise_cons.mp hl
    by_cases hr : r = source
    · subst hr
      have hrest : (l.filter fun a => a = r || ranks a) = l.filter ranks := by
        refine List.filter_congr fun a ha => ?_
        simp [Nat.ne_of_gt (hlt a ha)]
      rw [List.filter_cons_of_neg (by simp [hnew]), List.filter_cons_of_pos (by simp), hrest]
      cases hfilter : l.filter ranks with
      | nil => rfl
      | cons a rest =>
        have ha : a ∈ l := (List.mem_filter.mp (hfilter ▸ List.mem_cons_self)).1
        simp [Ascending.insert, hlt a ha]
    · have hin : source ∈ l := (List.mem_cons.mp hmem).resolve_left (Ne.symm hr)
      have hbelow : r < source := hlt source hin
      by_cases hranks : ranks r
      · rw [List.filter_cons_of_pos hranks, List.filter_cons_of_pos (by simp [hranks]),
          List.map_cons, List.map_cons, ← ih hl hin]
        simp [Ascending.insert, Nat.lt_asymm hbelow, Nat.ne_of_gt hbelow]
      · rw [List.filter_cons_of_neg hranks, List.filter_cons_of_neg (by simp [hranks, hr]),
          ih hl hin]

theorem insert_partsOf {ranks : Rank → Bool} (hsource : source < size)
    (hnew : ranks source = false) :
    Ascending.insert source (t.payload source) (t.partsOf size ranks) =
      t.partsOf size fun r => r = source || ranks r :=
  insert_map_filter List.pairwise_lt_range (List.mem_range.mpr hsource) hnew

/-- What a rank has to be given. -/
def delivery (t : Transfer) (here : Place) : Delivery :=
  match t.collective with
  | .broadcast => .bytes (t.payload t.root)
  | .gather => .parts (if here.rank = t.root then some (t.allParts here.size) else none)

/-- A message travels between these two ranks. -/
def Carries (size : Nat) (t : Transfer) (source dest : Rank) : Prop :=
  source < size ∧ dest < size ∧ source ≠ dest ∧
    match t.collective with
    | .broadcast => source = t.root
    | .gather => dest = t.root

/-- The message of a rank in the transfer of this position. -/
def message (t : Transfer) (source : Rank) (sequence : Nat) : Message :=
  ⟨source, t.collective, sequence, t.payload source⟩

/-- Nobody both sends and receives. -/
theorem Carries.not_carries (h : t.Carries size source dest) : ¬ t.Carries size other source := by
  rintro ⟨-, -, hne, hroot⟩
  obtain ⟨-, -, hne', hroot'⟩ := h
  cases hc : t.collective with
  | broadcast =>
    rw [hc] at hroot hroot'
    exact hne (hroot.trans hroot'.symm)
  | gather =>
    rw [hc] at hroot hroot'
    exact hne' (hroot.trans hroot'.symm)

end Transfer

end Nlp
