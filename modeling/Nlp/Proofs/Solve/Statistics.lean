import Nlp.Proofs.Solve.Box
import Nlp.Proofs.Solve.Tally
import Nlp.Proofs.Solve.Watched

/-!
# The statistics of a solve

A record says how many evaluations and Jacobians a solver has asked for, and how many model calls
the Jacobians have taken on all ranks.  Here these numbers are compared with what is counted
elsewhere: the callbacks where the solver asks for them, and the model calls where every rank makes
them.

## Main definitions

* `Work.solving`: the part of a rank in a solve, with its model calls counted.
* `Solved.Recounts`, `Work.Audited`: the statistics on record are what has been counted.

## Main results

* `Work.solving_concludes`: the rule for a solve with counts, in any mode.
* `Work.statistics_add_up`: the statistics on record, for the solvers of this library.
-/

namespace Nlp

variable {σ τ α β : Type} {size : Nat} {respond : Rank → Responder σ}

/-! ## The parts of a solve that cost nothing -/

namespace Work

theorem IsFree.tallied_bind {p : Program rankAccess α} (hp : IsFree p)
    (f : α → Program rankAccess β) (w : Workbench) :
    tallied (p.bind f) w = p.bind fun a => tallied (f a) w := by
  rw [Work.tallied_bind, hp, Program.bind_assoc]
  rfl

theorem isFree_throw (e : Error Double) : IsFree (throw e : Task α).run :=
  isFree_done _

theorem isFree_settle (size : Nat) (acks : List (Rank × Option String)) :
    IsFree (Session.settle size acks).run := by
  rw [Session.settle]
  split
  · exact isFree_note _
  · exact isFree_throw _

theorem isFree_acknowledge (r : Rank) (mismatch : Option String) :
    IsFree (Session.acknowledge r mismatch).run := by
  rw [Session.acknowledge]
  refine IsFree.andThen ?_ fun _ => (isFree_gather _).andThen fun _ => isFree_done _
  cases mismatch with
  | none => exact isFree_done _
  | some reason => exact isFree_note _

/-- The handshake asks no model for anything. -/
theorem isFree_handshake (problem : Problem Double) (here : Place) :
    IsFree (Session.handshake problem here).run := by
  obtain ⟨r, size⟩ := here
  by_cases hr : r = rootRank
  · subst hr
    rw [Session.handshake_root]
    refine (isFree_broadcast _ _).andThen fun _ => (isFree_gather _).andThen fun acks => ?_
    cases acks with
    | none => exact isFree_throw _
    | some acks => exact isFree_settle size acks
  · rw [Session.handshake_other _ hr]
    exact (isFree_broadcast _ _).andThen fun _ => isFree_acknowledge r _

theorem isFree_noteAll (events : List (Event Double)) : IsFree (Adapter.noteAll events).run := by
  induction events with
  | nil => exact isFree_done _
  | cons event events ih => exact (isFree_note event).andThen fun _ => ih

theorem isFree_prepare (problem : Problem Double) (engine : Engine) (here : Place) :
    IsFree (Adapter.prepare problem engine here).run := by
  rw [Adapter.prepare]
  split
  · exact (isFree_handshake problem here).andThen fun _ => isFree_noteAll _
  · exact isFree_noteAll _

/-- What comes after a task, with both counted. -/
theorem tallied_run_bind (t : Task α) (k : α → Task β) (w : Workbench)
    (f : Except (Error Double) β × Workbench → Program rankAccess τ) :
    (tallied (t >>= k).run w).bind f =
      (tallied t.run w).bind fun a => andThen k a.2 f a.1 := by
  rw [ExceptT.run_bind, Program.bind_eq, tallied_bind, Program.bind_assoc]
  refine congrArg (Program.bind _) (funext fun a => ?_)
  rcases a with ⟨_ | a, w⟩
  · rfl
  · rfl

end Work

/-! ## A solve by itself -/

namespace Session

variable (problem : Problem Double) (here : Place)

/-- The first call of a request for columns is a collective, or there is no message for it. -/
theorem exists_request_eq_call (q : Request)
    (next : Except (Error Double) (List (Column Double)) → Program rankAccess α) :
    ∃ c rest, (request problem q.kernel q.x q.partition here).run.bind next = .call c rest ∧
      ∀ c', c = .model c' → IsEmpty ((modelAccess Double).Reply c') := by
  rw [request_root, Task.run_bind_bind, Place.broadcast]
  cases here.isRoot with
  | false =>
    refine ⟨.broadcast [], _, rfl, ?_⟩
    rintro _ ⟨⟩
  | true =>
    by_cases hextent : Wire.extent q.command < Wire.wordLimit
    · rw [if_pos rfl, Task.encode, if_pos hextent]
      refine ⟨.broadcast (Wire.toBytes q.command), _, rfl, ?_⟩
      rintro _ ⟨⟩
    -- a command that is too long for a message ends the rank: a call without an answer
    · rw [if_pos rfl, Task.encode, if_neg hextent]
      refine ⟨.model (.outOfRange _ _), _, rfl, ?_⟩
      rintro _ ⟨⟩
      exact inferInstanceAs (IsEmpty Empty)

variable {problem here} {n : Nat}

/-- A program that asks its own model only spends by itself what it spends in a session. -/
theorem Spends.of_onRank {good : Nat → α → Prop} {p : Program (modelAccess Double) α}
    (h : Spends problem here good n p.onRank) : p.Spends good n := by
  -- on the program: the judgment cannot take a call of the model for the begin of a request
  induction p generalizing n with
  | done a =>
    generalize hp : (Program.done (I := modelAccess Double) a).onRank = q at h
    cases h with
    | done h =>
      obtain rfl := Program.done.inj hp
      exact h
    | model h => cases hp
    | @request _ q next _ _ =>
      obtain ⟨c, rest, hcall, -⟩ := exists_request_eq_call problem here q next
      cases hp.trans hcall
  | call c next ih =>
    intro reply
    generalize hp : (Program.call (I := modelAccess Double) c next).onRank = q at h
    cases h with
    | done h => cases hp
    | model h =>
      cases hp
      exact ih reply (h reply)
    | @request _ q next' _ _ =>
      obtain ⟨c', rest, hcall, hempty⟩ :=
        exists_request_eq_call problem here q next'
      cases hp.trans hcall
      exact (hempty c rfl).elim reply

open Workbench Work in
/-- Whatever the root asks its own model for, all ranks together have counted what it spends. -/
theorem onRank_concludes {good : Nat → α → Prop} {p : Program (modelAccess Double) α}
    {k : α × Workbench → Program rankAccess τ} {w₀ : Workbench} {w : Rank → Workbench} {s₀ : σ}
    {s : Rank → σ} {others : Rank → Program rankAccess τ} {post : Option (Rank → τ) → Prop}
    (hsize : rootRank < size) (hpanic : post none) (hp : p.Spends good n)
    (hn : spent size (lead w₀ w) = n)
    (h : ∀ a w₀' s₁, good (spent size (lead w₀' w)) a →
      Concludes size respond (k (a, w₀')) s₁ others s fun _ => post) :
    Concludes size respond ((p.tallied w₀).onRank.bind k) s₀ others s fun _ => post := by
  -- on the calls to the model, which are all counted at the root
  induction p generalizing n w₀ s₀ with
  | done a => exact h a w₀ s₀ (hn ▸ hp)
  | call c next ih =>
    have hcall : ((Program.call (I := modelAccess Double) c next).tallied w₀).onRank.bind k =
        (Program.perform (I := modelAccess Double) c).onRank.bind fun reply =>
          ((next reply).tallied (w₀.called (.model c))).onRank.bind k := rfl
    rw [hcall]
    refine .local_root hsize (fun _ _ => hpanic) fun reply s₁ _ => ih reply (hp reply) ?_
    rw [spent_root hsize (w₀.calls.total_add c), hn]

end Session

namespace Adapter

variable {adapter : Adapter τ} {problem : Problem Double} {engine : Engine} {here : Place}

/-- Without a group the answers to the callbacks of a run come from the rank's own model. -/
theorem exists_onRank_interpret (hmode : engine.mode ≠ .parallel) (here : Place)
    (run : Program (callbacks Double (Error Double)) α) (b : Bridge) :
    ∃ l : Program (modelAccess Double) (α × Bridge),
      (run.interpret (Bridge.answer problem engine here)).run b = l.onRank := by
  -- on the run: one answer comes from the model, and the rest does, from the bridge it leaves on
  induction run generalizing b with
  | done r => exact ⟨.done (r, b), rfl⟩
  | call c next ih =>
    choose rest hrest using ih
    have hanswer : ∃ l : Program (modelAccess Double) (_ × Bridge),
        (Bridge.answer problem engine here c).run b = l.onRank := by
      cases c with
      | evaluate x =>
        refine ⟨(problem.evaluate x).run.bind fun a =>
          .done (Bridge.afterEvaluation problem x b a), ?_⟩
        rw [Program.onRank_bind]
        exact Bridge.run_evaluate x
      | jacobian x =>
        have hlocal : (engine.jacobianAt problem x (b.known x) here).IsLocal :=
          Engine.isLocal_jacobianAt hmode
        obtain ⟨l, hl, -⟩ := hlocal b.memory
        refine ⟨l.bind fun a => .done (b.afterJacobian a), ?_⟩
        rw [Program.onRank_bind, ← hl]
        exact Bridge.run_jacobian x
      | report progress => exact ⟨.call (.note (.solver progress)) fun a => .done (a, b), rfl⟩
      | outOfRange index size => exact ⟨.call (.outOfRange index size) fun a => .done (a, b), rfl⟩
    obtain ⟨l, hl⟩ := hanswer
    refine ⟨l.bind fun a => rest a.1 a.2, ?_⟩
    rw [Bridge.run_interpret_call, hl, Program.onRank_bind]
    exact congrArg (Program.bind _) (funext fun a => hrest a.1 a.2)

/-- What the root does after its run. -/
def afterRun (adapter : Adapter τ) (problem : Problem Double) (history : History) (engine : Engine)
    (here : Place) (elapsed : Duration) (o : Outcome τ) : Program rankAccess (Solved τ) :=
  (finish engine here o).run.bind (adapter.keep problem history engine here elapsed o)

end Adapter

/-! ## A solve with counts -/

namespace Work

open Workbench

variable {adapter : Adapter τ} {engine : Engine} {memory : Engine.Memory} {elapsed : Duration}
  {w₀ : Workbench} {w : Rank → Workbench} {s₀ : σ} {s : Rank → σ}

/-- The part of a rank in a solve at its workbench, with its model calls counted. -/
def solving (adapter : Adapter τ) (engine : Engine) (memory : Engine.Memory) (elapsed : Duration)
    (here : Place) (w : Workbench) : Program rankAccess (Solved τ × Workbench) :=
  tallied (adapter.solve w.problem w.history engine memory here elapsed) w

/-- The root keeps what its run has come to, and counts nothing more. -/
theorem tallied_keep_concludes {problem : Problem Double} {history : History} {here : Place}
    {o : Adapter.Outcome τ} {others : Rank → Program rankAccess (Solved τ × Workbench)}
    {post : Option (Rank → Solved τ × Workbench) → Prop} (hsize : rootRank < size)
    (hpanic : post none)
    (h : ∀ s₁, Concludes size respond
      (.done (adapter.kept problem history engine here elapsed o, w₀)) s₁ others s
        fun _ => post) :
    Concludes size respond
      (tallied (adapter.keep problem history engine here elapsed o o.result) w₀) s₀ others s
      fun _ => post := by
  obtain ⟨result, findings⟩ := o
  rcases result with e | ⟨t, counters⟩
  · exact h s₀
  · rw [Adapter.keep, (isFree_note _).tallied_bind]
    exact .quiet_root (Task.isQuiet_note _) hsize (fun _ => hpanic) fun s₁ => h s₁

/-- What a rank other than the root makes of the end of its part. -/
def dismissed (benches : Rank → Workbench) (r : Rank)
    (a : Except (Error Double) (Option Nat) × Workbench) :
    Program rankAccess (Solved τ × Workbench) :=
  .done (⟨(benches r).history, a.1, none⟩, a.2)

/-- What a rank other than the root makes of the end of a session. -/
def parting (benches : Rank → Workbench) (r : Rank) (a : Except (Error Double) Nat × Workbench) :
    Program rankAccess (Solved τ × Workbench) :=
  andThen (fun _ => (pure none : Task (Option Nat))) a.2 (dismissed benches r) a.1

theorem exists_parting_eq (benches : Rank → Workbench) (r : Rank)
    (a : Except (Error Double) Nat × Workbench) :
    ∃ solved : Solved τ, parting benches r a = .done (solved, a.2) := by
  rcases a with ⟨_ | served, w⟩
  · exact ⟨_, rfl⟩
  · exact ⟨_, rfl⟩

/-- The root has its result, and the other ranks are released with what they have counted. -/
theorem tallied_afterRun_concludes {problems : Rank → Problem Double} {benches : Rank → Workbench}
    {problem : Problem Double} {history : History} {o : Adapter.Outcome τ} {rounds served : Nat}
    {post : Option (Rank → Solved τ × Workbench) → Prop} (hmode : engine.mode = .parallel)
    (hsize : rootRank < size) (hpanic : post none)
    (h : ∀ ends : Rank → Solved τ, post (some (lead
      (adapter.kept problem history engine ⟨rootRank, size⟩ elapsed o, w₀)
        fun r => (ends r, w r)))) :
    Concludes size respond
      (tallied (adapter.afterRun problem history engine ⟨rootRank, size⟩ elapsed o) w₀) s₀
      (Session.serving problems size rounds served w (parting benches)) s fun _ => post := by
  rw [Adapter.afterRun, Adapter.finish_parallel hmode, Task.run_lift_bind_bind, tallied_bind]
  refine Session.tallied_release_concludes hsize hpanic fun s' served' => ?_
  -- the others may have failed, but what they have counted they have counted
  have hends : ∀ r, ∃ solved : Solved τ,
      parting benches r (Session.released served' o.error?, w r) = .done (solved, w r) :=
    fun r => exists_parting_eq benches r _
  choose ends hends using hends
  simp only [hends, Adapter.wrapUp_ok]
  exact tallied_keep_concludes hsize hpanic fun s₁ => .done (h ends)

theorem solving_root (adapter : Adapter τ) (engine : Engine) (memory : Engine.Memory)
    (elapsed : Duration) (w : Workbench) :
    solving adapter engine memory elapsed ⟨rootRank, size⟩ w =
      (Task.note
        (.solveStarted w.problem.name adapter.name engine.method engine.mode size)).run.bind
        fun _ => (Adapter.prepare w.problem engine ⟨rootRank, size⟩).run.bind fun
          | .error e => tallied (adapter.afterRun w.problem w.history engine ⟨rootRank, size⟩
              elapsed ⟨.error e, none⟩) w
          | .ok () =>
            (tallied (adapter.answered w.problem engine memory ⟨rootRank, size⟩) w).bind fun a =>
              tallied (adapter.afterRun w.problem w.history engine ⟨rootRank, size⟩ elapsed
                (.ofRun a.1)) a.2 := by
  rw [solving, Adapter.solve_root, (isFree_note _).tallied_bind]
  refine congrArg (Program.bind _) (funext fun _ => ?_)
  rw [Adapter.runAtRoot_bind, (isFree_prepare _ _ _).tallied_bind]
  refine congrArg (Program.bind _) (funext fun prepared => ?_)
  cases prepared with
  | error e => rfl
  | ok prepared => exact tallied_bind _ _ _

theorem solving_other (hmode : engine.mode = .parallel) (benches : Rank → Workbench) {r : Rank}
    (hr : r ≠ rootRank) :
    solving adapter engine memory elapsed ⟨r, size⟩ (benches r) =
      (Session.handshake (benches r).problem ⟨r, size⟩).run.bind (andThen (fun _ => do
        let _ ← Session.serve (benches r).problem ⟨r, size⟩
        return none) (benches r) (dismissed benches r)) := by
  rw [solving, Adapter.solve_other _ _ _ _ _ _ hr, Adapter.assist_parallel _ hmode, tallied_bind]
  exact tallied_bind_bind (isFree_handshake _ _) _ _ _

/-- The root has recorded nothing, or it has what a run has come to that is good together with the
model calls all ranks have counted by then. -/
def Leaves (adapter : Adapter τ) (engine : Engine) (elapsed : Duration) (size : Nat)
    (good : Nat → (Except (Error Double) (Termination Double) × τ) × Bridge → Prop)
    (benches : Rank → Workbench) (results : Rank → Solved τ × Workbench) : Prop :=
  (results rootRank).1.history = (benches rootRank).history ∨
    ∃ ran, good (spent size fun r => (results r).2) ran ∧
      (results rootRank).1 = adapter.concluded (benches rootRank).problem
        (benches rootRank).history engine ⟨rootRank, size⟩ elapsed ran

section

variable {benches : Rank → Workbench} {states : Rank → σ}
  {good : Nat → (Except (Error Double) (Termination Double) × τ) × Bridge → Prop}

theorem leaves_of_ran {ran : (Except (Error Double) (Termination Double) × τ) × Bridge}
    (hran : good (spent size (lead w₀ w)) ran) (ends : Rank → Solved τ) :
    Leaves adapter engine elapsed size good benches
      (lead (adapter.concluded (benches rootRank).problem (benches rootRank).history engine
        ⟨rootRank, size⟩ elapsed ran, w₀) fun r => (ends r, w r)) := by
  refine .inr ⟨ran, ?_, congrArg Prod.fst (lead_root _ _)⟩
  rw [funext (apply_lead Prod.snd _ _)]
  exact hran

/-- What is known of the run of the root and of what it spends, is known of what a solve in parallel
mode leaves. -/
theorem solving_concludes_of_parallel (hmode : engine.mode = .parallel) (hsize : rootRank < size)
    (hspends : Session.Spends (benches rootRank).problem ⟨rootRank, size⟩ good (spent size benches)
      (adapter.answered (benches rootRank).problem engine memory ⟨rootRank, size⟩)) :
    Concludes size respond
      (solving adapter engine memory elapsed ⟨rootRank, size⟩ (benches rootRank))
      (states rootRank) (fun r => solving adapter engine memory elapsed ⟨r, size⟩ (benches r))
      states fun _ outcome => ∀ results, outcome = some results →
        Leaves adapter engine elapsed size good benches results := by
  have hpanic : ∀ results, none = some results →
      Leaves adapter engine elapsed size good benches results := by
    rintro _ ⟨⟩
  refine Concludes.congr ?_ (congrArg (fun p => Program.pause _ p _) (solving_root _ _ _ _ _))
    fun r hr _ => by rw [solving_other hmode _ hr]
  refine .quiet_root (Task.isQuiet_note _) hsize (fun _ => hpanic) fun s₁ => ?_
  rw [Adapter.prepare_parallel _ hmode, Task.run_bind_bind]
  let problems := fun r => (benches r).problem
  refine @Session.handshake_concludes _ _ _ _ _ _ _ problems _ _ hsize
    (.inr fun _ => hpanic) fun s₂ s' => ?_
  simp only [andThen_ok, tallied_run_bind]
  cases Session.welcome (Session.byRank size (Session.ack fun r => (benches r).problem)) with
  -- the layouts differ: the root does not start its run, but it releases the others
  | error e =>
    refine tallied_afterRun_concludes hmode hsize hpanic ?_
    rintro ends _ ⟨⟩
    refine .inl ?_
    rw [lead_root]
    rfl
  | ok _ =>
    refine Adapter.noteAll_concludes hsize (fun _ => hpanic) fun s₃ => ?_
    refine hspends.concludes hsize hpanic (congrArg (spent size) (lead_self benches)) ?_
    intro ran w₀ w s₄ s'' rounds served hran _
    refine tallied_afterRun_concludes hmode hsize hpanic ?_
    rintro ends _ ⟨⟩
    exact leaves_of_ran hran ends

/-- The same in sequential and threads mode, where the root is by itself. -/
theorem solving_concludes_of_ne_parallel (hmode : engine.mode ≠ .parallel)
    (hsize : rootRank < size)
    (hspends : Session.Spends (benches rootRank).problem ⟨rootRank, size⟩ good (spent size benches)
      (adapter.answered (benches rootRank).problem engine memory ⟨rootRank, size⟩)) :
    Concludes size respond
      (solving adapter engine memory elapsed ⟨rootRank, size⟩ (benches rootRank))
      (states rootRank) (fun r => solving adapter engine memory elapsed ⟨r, size⟩ (benches r))
      states fun _ outcome => ∀ results, outcome = some results →
        Leaves adapter engine elapsed size good benches results := by
  have hpanic : ∀ results, none = some results →
      Leaves adapter engine elapsed size good benches results := by
    rintro _ ⟨⟩
  have hother : ∀ r, r ≠ rootRank → solving adapter engine memory elapsed ⟨r, size⟩ (benches r) =
      .done (⟨(benches r).history, .ok none, none⟩, benches r) := by
    intro r hr
    rw [solving, Adapter.solve_other _ _ _ _ _ _ hr, Adapter.assist, if_neg hmode]
    rfl
  refine Concludes.congr ?_ (congrArg (fun p => Program.pause _ p _) (solving_root _ _ _ _ _))
    fun r hr _ => by rw [hother r hr]
  refine .quiet_root (Task.isQuiet_note _) hsize (fun _ => hpanic) fun s₁ => ?_
  rw [Adapter.prepare, if_neg hmode]
  refine Adapter.noteAll_concludes hsize (fun _ => hpanic) fun s₂ => ?_
  -- the run is one of the root's own model, and what it spends is known without the group
  obtain ⟨l, hl⟩ := Adapter.exists_onRank_interpret hmode ⟨rootRank, size⟩
    (adapter.run (benches rootRank).problem.layout) (.new memory)
  rw [Adapter.answered, hl] at hspends
  dsimp only
  rw [Adapter.answered, hl, tallied_onRank]
  refine Session.onRank_concludes hsize hpanic hspends.of_onRank
    (congrArg (spent size) (lead_self benches)) fun ran w₀ s₃ hran => ?_
  rw [Adapter.afterRun, Adapter.run_finish hmode, Program.bind_done]
  refine tallied_keep_concludes hsize hpanic fun s₄ => .done ?_
  rintro _ ⟨⟩
  exact leaves_of_ran hran fun r => ⟨(benches r).history, .ok none, none⟩

/-- The same in any mode. -/
theorem solving_concludes (hsize : rootRank < size)
    (hspends : Session.Spends (benches rootRank).problem ⟨rootRank, size⟩ good (spent size benches)
      (adapter.answered (benches rootRank).problem engine memory ⟨rootRank, size⟩)) :
    Concludes size respond
      (solving adapter engine memory elapsed ⟨rootRank, size⟩ (benches rootRank))
      (states rootRank) (fun r => solving adapter engine memory elapsed ⟨r, size⟩ (benches r))
      states fun _ outcome => ∀ results, outcome = some results →
        Leaves adapter engine elapsed size good benches results := by
  by_cases hmode : engine.mode = .parallel
  · exact solving_concludes_of_parallel hmode hsize hspends
  · exact solving_concludes_of_ne_parallel hmode hsize hspends

end

end Work

/-! ## Statistics on record -/

/-- A solution that is put on record says how often the solver has asked for values and for
Jacobians. -/
def Solved.Recounts (solved : Solved (τ × CallbackCount)) (before : History) : Prop :=
  ∀ solution result, solved.Records before solution result →
    ∃ findings asked, solved.findings = some (findings, asked) ∧
      solution.statistics.evaluations = asked.evaluations ∧
        solution.statistics.jacobians = asked.jacobians

/-- A solution that is put on record says, too, how many model calls the solve has taken on all
ranks. -/
structure Work.Audited (size : Nat) (benches : Rank → Workbench)
    (results : Rank → Solved (τ × CallbackCount) × Workbench) : Prop where
  recounts : (results rootRank).1.Recounts (benches rootRank).history
  spent : ∀ solution result, (results rootRank).1.Records (benches rootRank).history solution
      result →
    Workbench.spent size (fun r => (results r).2) = Workbench.spent size benches +
      (solution.statistics.evaluations + solution.statistics.sensitivityEvaluations)

namespace Adapter

variable {adapter : Adapter (τ × CallbackCount)} {problem : Problem Double} {history : History}
  {engine : Engine} {here : Place} {elapsed : Duration} {start n : Nat}
  {ran : (Except (Error Double) (Termination Double) × τ × CallbackCount) × Bridge}

/-- What is on record is what the bridge of the run has counted. -/
theorem balanced_of_records {solution : Solution} {result : Except (Error Double) (Option Nat)}
    (hran : ¬ Fails ran.1 → ran.2.Balanced start ran.1.2.2 n)
    (h : (adapter.concluded problem history engine here elapsed ran).Records history solution
      result) :
    (∃ findings asked, (adapter.concluded problem history engine here elapsed ran).findings =
        some (findings, asked) ∧ solution.statistics.evaluations = asked.evaluations ∧
      solution.statistics.jacobians = asked.jacobians) ∧
    n = start + (solution.statistics.evaluations + solution.statistics.sensitivityEvaluations) := by
  rcases ran with ⟨⟨e | t, findings, asked⟩, b⟩
  -- a run that has failed may have counted more, but leaves no solution
  · exact absurd h (not_records_concluded rfl solution result)
  obtain ⟨hevaluations, hjacobians, hspent⟩ := hran fun hfails => hfails t rfl
  obtain ⟨rfl⟩ := List.append_cancel_left h.solutions
  exact ⟨⟨findings, asked, rfl, hevaluations, hjacobians⟩, hspent.trans (Nat.add_assoc _ _ _)⟩

end Adapter

/-- An engine that takes real steps has nothing to find out about its model. -/
theorem Engine.probes_eq_zero {engine : Engine} (hreal : ∀ step, engine.method ≠ .complexStep step)
    (memory : Memory) : engine.probes memory = 0 := by
  cases memory with
  | some known => rfl
  | none =>
    cases hmethod : engine.method with
    | complexStep step => exact absurd hmethod (hreal step)
    | analytic | finiteDifference => simp only [Engine.probes, hmethod]

namespace Work

theorem meets_tallied {good : α → Prop} {p : Program rankAccess α}
    (h : p.Meets (.anything rankAccess) good) (w : Workbench) :
    (tallied p w).Meets (.anything rankAccess) fun a => good a.1 := by
  induction p generalizing w with
  | done a => exact h
  | call c next ih => exact ⟨trivial, fun reply _ => ih reply (h.2 reply trivial) _⟩

variable {adapter : Adapter Unit} {engine : Engine} {memory : Engine.Memory} {elapsed : Duration}

/-- To watch the solver of a solve changes nothing. -/
theorem solving_watched (here : Place) (w : Workbench) :
    solving adapter engine memory elapsed here w =
      (solving adapter.watched engine memory elapsed here w).bind
        fun a => .done (a.1.map Prod.fst, a.2) := by
  have hsolve := Adapter.solve_mapFindings Prod.fst adapter.watched w.problem w.history engine
    memory here elapsed
  rw [Adapter.mapFindings_watched] at hsolve
  rw [solving, hsolve, tallied_bind]
  rfl

/-- What the root puts on record has the callbacks its solver has asked for, whatever it is
answered. -/
theorem meets_solving_watched (hbundled : adapter.Bundled)
    (hreal : ∀ step, engine.method ≠ .complexStep step) (here : Place) (w : Workbench) :
    (solving adapter.watched engine memory elapsed here w).Meets (.anything rankAccess) fun a =>
      a.1.Recounts w.history := by
  have hanswered : (adapter.watched.answered w.problem engine memory here).Meets
      (.anything rankAccess) fun ran => ∃ n, ¬ Adapter.Fails ran.1 → ran.2.Balanced 0 ran.1.2.2 n :=
    (Session.spends_answered (Engine.probes_eq_zero hreal) (hbundled.strict _) memory 0).meets
  have hsolve : (adapter.watched.solve w.problem w.history engine memory here elapsed).Meets
      (.anything rankAccess) fun solved => solved.Recounts w.history := by
    refine (Adapter.meets_solve hanswered).mono ?_
    intro solved hsolved solution result hrecords
    rcases hsolved with hsame | ⟨ran, ⟨n, hran⟩, rfl⟩
    · exact absurd hrecords (Solved.not_records hsame solution result)
    · exact (Adapter.balanced_of_records hran hrecords).1
  exact meets_tallied hsolve w

/-- In any mode the root's record agrees with what is counted on all ranks. -/
theorem solving_watched_concludes (hbundled : adapter.Bundled)
    (hreal : ∀ step, engine.method ≠ .complexStep step) (hsize : rootRank < size)
    (benches : Rank → Workbench) (states : Rank → σ) :
    Concludes size respond
      (solving adapter.watched engine memory elapsed ⟨rootRank, size⟩ (benches rootRank))
      (states rootRank)
      (fun r => solving adapter.watched engine memory elapsed ⟨r, size⟩ (benches r)) states
      fun _ outcome => ∀ results, outcome = some results → Audited size benches results := by
  refine (solving_concludes hsize (Session.spends_answered (Engine.probes_eq_zero hreal)
    (hbundled.strict _) memory _)).mono ?_
  intro _ outcome hleaves results hresults
  rcases hleaves results hresults with hsame | ⟨ran, hran, hconcluded⟩
  · have hnot := Solved.not_records hsame
    exact ⟨fun _ _ h => absurd h (hnot _ _), fun _ _ h => absurd h (hnot _ _)⟩
  · constructor
    · rw [hconcluded]
      exact fun _ _ hrecords => (Adapter.balanced_of_records hran hrecords).1
    · rw [hconcluded]
      exact fun _ _ hrecords => (Adapter.balanced_of_records hran hrecords).2

/-- The ranks of a group in a solve whose solver is watched, after this many collectives. -/
def watchedCrew (adapter : Adapter Unit) (engine : Engine) (memory : Engine.Memory)
    (elapsed : Duration) (size count : Nat) (states : Rank → σ) (benches : Rank → Workbench) :
    Crew σ ((Solved (Unit × CallbackCount) × Workbench) × Nat) :=
  .ofPrograms size count states fun r =>
    solving adapter.watched engine memory elapsed ⟨r, size⟩ (benches r)

/-- The statistics of a solve add up, for the solvers of this library with any options, by finite
differences or with the model's own gradient, and in any mode.  To count what the solver asks for
changes nothing.  What the root puts on record are the evaluations and the Jacobians the solver has
asked for, whatever the models answer and whatever happens to the group.  Where no rank is ended by
its model, every rank comes to one result, in whatever order the messages come; and if there is a
solution on record, its evaluations and its sensitivity evaluations are all model calls that all
ranks have made during the solve. -/
theorem statistics_add_up (hbundled : adapter.Bundled)
    (hreal : ∀ step, engine.method ≠ .complexStep step) (memory : Engine.Memory)
    (elapsed : Duration) (benches : Rank → Workbench) (states : Rank → σ) :
    (∀ here w, solving adapter engine memory elapsed here w =
      (solving adapter.watched engine memory elapsed here w).bind
        fun a => .done (a.1.map Prod.fst, a.2)) ∧
    (∀ rules count reached, Crew.Reaches rules
      (watchedCrew adapter engine memory elapsed size count states benches) reached →
        ∀ entry ∈ (reached.hands rootRank).past,
          entry.1.1.Recounts (benches rootRank).history) ∧
    (rootRank < size →
      (∀ reached, Crew.Reaches (Crew.calmRules size respond)
        (watchedCrew adapter engine memory elapsed size 0 states benches) reached →
        ∀ r < size, ∀ untold, (reached.hands r).stage ≠ .unwinding untold) →
      ∃ results last, Audited size benches results ∧
        ∀ reached, Crew.Reaches (Crew.calmRules size respond)
          (watchedCrew adapter engine memory elapsed size 0 states benches) reached →
          (∀ r < size, (reached.hands r).past = [] ∨
            (reached.hands r).past = [(results r, last)]) ∧
          ((∀ next, ¬ Crew.Step (Crew.calmRules size respond) reached next) →
            ∀ r < size, (reached.hands r).past = [(results r, last)])) := by
  refine ⟨solving_watched, ?_, fun hsize hcalm => ?_⟩
  -- a judgment of the root's program alone, so nothing has to be known of the group
  · intro rules count reached hreaches entry hentry
    exact Crew.past_of_meets (meets_solving_watched hbundled hreal _ _) hreaches entry hentry
  let part := fun r => solving adapter.watched engine memory elapsed ⟨r, size⟩ (benches r)
  have hconcludes : Concludes size respond (part rootRank) (states rootRank) part states
      fun _ outcome => ∀ results, outcome = some results → Audited size benches results :=
    solving_watched_concludes hbundled hreal hsize benches states
  obtain ⟨transfers, outcome, hlockstep, haudited⟩ := hconcludes
  rw [lead_self fun r => (part r).pause (respond r) (states r)] at hlockstep
  obtain ⟨results, rfl⟩ := hlockstep.exists_results hsize hcalm
  refine ⟨results, 0 + transfers.length, haudited results rfl, fun reached hreaches => ?_⟩
  exact ⟨fun r hr => hlockstep.past_eq hreaches hr,
    fun hstuck r hr => hlockstep.past_of_stuck hreaches hstuck hr⟩

/-- A workbench with a problem that starts in a corner of its box. -/
def cornerBench : Workbench :=
  .new (GroupSolve.cornerProblem Double)

/-- The part of a rank in a watched solve of that problem, up to its first action. -/
def cornerPause (r : Rank) : Pause (Solved (Unit × CallbackCount) × Workbench) × Unit :=
  (solving (Adapter.projectedBfgs .default []).watched (.new (.finiteDifference 0.5) .parallel)
    none ⟨1, 0⟩ ⟨r, 2⟩ cornerBench).pause GroupSolve.flat.responder ()

/-- What one rank has on record, if it has come to its end. -/
def recorded : Pause (Solved (Unit × CallbackCount) × Workbench) → List (Nat × Nat)
  | .done (solved, _) => solved.history.solutions.map fun solution =>
      (solution.statistics.evaluations, solution.statistics.sensitivityEvaluations)
  | _ => []

/-- Two evaluations, and two Jacobians of two columns, for one of which there was no baseline. -/
theorem corner_statistics :
    ∃ (results : Rank → Solved (Unit × CallbackCount) × Workbench) (solution : Solution),
      (results rootRank).1.Records ⟨[]⟩ solution (results rootRank).1.result ∧
      solution.statistics.evaluations = 2 ∧ solution.statistics.sensitivityEvaluations = 5 ∧
      Audited 2 (fun _ => cornerBench) results ∧
      Workbench.spent 2 (fun r => (results r).2) = 7 := by
  have hend : Lockstep.comesToEnd 2 (fun _ => GroupSolve.flat.responder) 7 cornerPause = true := by
    decide +kernel
  have hrecorded : recorded (Lockstep.ending 2 (fun _ => GroupSolve.flat.responder) 7 cornerPause
      rootRank).1 = [(2, 5)] := by
    decide +kernel
  have hsize : rootRank < 2 := Nat.zero_lt_two
  have : Nonempty (Solved (Unit × CallbackCount) × Workbench) :=
    ⟨⟨⟨[]⟩, .ok none, none⟩, cornerBench⟩
  obtain ⟨transfers, results, hresults, hlockstep⟩ := Lockstep.of_comesToEnd hend
  have hbundled : (Adapter.projectedBfgs .default []).Bundled := .projectedBfgs .default []
  have hreal : ∀ step, (Engine.new (.finiteDifference 0.5) .parallel).method ≠
      .complexStep step := by
    intro step hstep
    cases hstep
  obtain ⟨results', last, haudited, hreached⟩ :=
    (statistics_add_up hbundled hreal none ⟨1, 0⟩ (fun _ => cornerBench) fun _ => ()).2.2 hsize
      fun reached hreaches r hr untold => hlockstep.not_unwinding hreaches hr untold
  -- what the theorem knows of the results is known of those of the run
  have hsame : results' rootRank = results rootRank :=
    congrArg Prod.fst (hlockstep.eq_of_past hsize fun reached hreaches hstuck =>
      (hreached reached hreaches).2 hstuck rootRank hsize)
  rw [hresults rootRank hsize, ← hsame] at hrecorded
  obtain ⟨solution, hsolution, hstatistics⟩ := List.map_eq_singleton_iff.mp hrecorded
  obtain ⟨hevaluations, hsensitivity⟩ := Prod.mk.inj hstatistics
  have hrecords : (results' rootRank).1.Records ⟨[]⟩ solution (results' rootRank).1.result :=
    ⟨hsolution, rfl⟩
  refine ⟨results', solution, hrecords, hevaluations, hsensitivity, haudited, ?_⟩
  rw [haudited.spent solution _ hrecords, hevaluations, hsensitivity]
  rfl

end Work

end Nlp
