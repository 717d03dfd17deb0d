import Nlp.Group.Run

/-!
# Endpoints one by one

The endpoints of a group when somebody calls them one after another, each call being carried out
up to its end before the next.

## Main definitions

* `Endpoints`, `Endpoints.run`.
-/

namespace Nlp

/-- The endpoints of a group. -/
structure Endpoints where
  /-- The network. -/
  network : Network
  /-- How many collectives each endpoint has taken part in. -/
  counts : List Nat
  /-- What was reported, the newest first. -/
  events : List (Event Double)

namespace Endpoints

/-- The endpoints of a group of this size. -/
def new (size : Nat) : Endpoints :=
  ⟨.new size, List.replicate size 0, []⟩

/-- An endpoint that is still there. -/
def isOpen (s : Endpoints) (rank : Rank) : Bool :=
  (s.network.mailbox? rank).isSome

/-- The endpoints without one. -/
def close (s : Endpoints) (rank : Rank) : Endpoints :=
  { s with network := s.network.leave rank }

/-- An endpoint has no model; it is ended by the first question about one. -/
def respond : Responder (List (Event Double)) := fun c events =>
  match c with
  | .note e => (some (), e :: events)
  | _ => (none, events)

/-- A program of one endpoint, and its result unless the endpoint was ended or would have to
wait. -/
def run {τ : Type} (s : Endpoints) (rank : Rank) (p : StateT Nat (Program link) τ) :
    Option τ × Endpoints :=
  let (phase, events, network) :=
    (p.run (s.counts.getD rank 0)).advance respond rank s.events s.network
  match phase with
  | .finished (r, count) => (some r, ⟨network, s.counts.set rank count, events⟩)
  | _ => (none, ⟨network, s.counts, events⟩)

/-- The endpoints without one that unwinds. -/
def unwind (s : Endpoints) (rank : Rank) : Endpoints :=
  (s.run rank (τ := Empty) (StateT.lift
    (Program.call (I := link) (.model (.outOfRange 0 0)) fun e => nomatch e))).2

end Endpoints

end Nlp
