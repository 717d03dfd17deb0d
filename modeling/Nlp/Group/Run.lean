import Nlp.Group.Endpoint
import Nlp.Group.Network

/-!
# Groups at work

Ranks that run their programs side by side.  Which rank goes on at a time is left open by the
messages, so any order that lets every rank go on that can is as good as another; here the ranks
take turns, each going on until it has to wait.

## Main definitions

* `Program.advance`: a rank's program up to its end or its next wait.
* `Group`, `Group.run`.
-/

namespace Nlp

/-- Where a rank is. -/
inductive Phase (τ : Type) where
  /-- It has more to do. -/
  | running (program : Program link τ)
  /-- It has its result. -/
  | finished (result : τ)
  /-- Its model has ended it. -/
  | unwound

/-- What a rank is asked about its model, with a state that is kept; no answer ends the rank. -/
abbrev Responder (σ : Type) : Type :=
  (c : ModelCall Double) → σ → Option ((modelAccess Double).Reply c) × σ

/-- The state after some reports. -/
def Responder.noteAll {σ : Type} (respond : Responder σ) (events : List (Event Double)) (s : σ) :
    σ :=
  events.foldl (fun s event => (respond (.note event) s).2) s

/-- The program of the rank `me` up to its end or its next wait. -/
def Program.advance {σ τ : Type} (respond : Responder σ) (me : Rank) :
    Program link τ → σ → Network → Phase τ × σ × Network
  | .done r, s, net => (.finished r, s, net)
  | .call (.model c) next, s, net =>
    match respond c s with
    | (some reply, s) => (next reply).advance respond me s net
    | (none, s) => (.unwound, respond.noteAll [.unwinding me] s, net.unwind me)
  | .call (.send dest m) next, s, net =>
    let (delivered, net) := net.send dest (.message m)
    (next delivered).advance respond me s net
  | .call (.receive w) next, s, net =>
    let (answer, events, net) := net.receive me w
    let s := respond.noteAll events s
    match answer with
    | .settled result => (next result).advance respond me s net
    | .unsettled => (.running (.call (.receive w) next), s, net)

/-- A rank of a group: what it answers for its model, the state of that, and where it is. -/
structure Member (σ τ : Type) where
  /-- The answers of its model. -/
  respond : Responder σ
  /-- The state. -/
  state : σ
  /-- Where it is. -/
  phase : Phase τ

/-- Ranks with a network. -/
structure Group (σ τ : Type) where
  /-- The ranks. -/
  members : List (Member σ τ)
  /-- The network. -/
  network : Network

namespace Group

variable {σ τ : Type}

/-- A group of ranks with their programs, responders and first states. -/
def new (ranks : List (Responder σ × σ × Program link τ)) : Group σ τ :=
  ⟨ranks.map fun (respond, state, program) => ⟨respond, state, .running program⟩,
    .new ranks.length⟩

/-- One turn of the rank `me`. -/
def turn (me : Rank) (member : Member σ τ) (net : Network) : Member σ τ × Network :=
  match member.phase with
  | .running program =>
    let (phase, state, net) := program.advance member.respond me member.state net
    match phase with
    | .finished r => ({ member with state, phase := .finished r }, net.leave me)
    | phase => ({ member with state, phase }, net)
  | _ => (member, net)

/-- One turn of each rank from `me` on. -/
def turns : (me : Rank) → List (Member σ τ) → Network → List (Member σ τ) × Network
  | _, [], net => ([], net)
  | me, member :: members, net =>
    let (member, net) := turn me member net
    let (members, net) := turns (me + 1) members net
    (member :: members, net)

/-- Some rank has more to do. -/
def isRunning (g : Group σ τ) : Bool :=
  g.members.any fun member => match member.phase with
    | .running _ => true
    | _ => false

/-- At most so many rounds, until no rank has more to do. -/
def run : (rounds : Nat) → Group σ τ → Group σ τ
  | 0, g => g
  | rounds + 1, g =>
    if g.isRunning then
      let (members, network) := turns 0 g.members g.network
      run rounds ⟨members, network⟩
    else g

end Group

end Nlp
