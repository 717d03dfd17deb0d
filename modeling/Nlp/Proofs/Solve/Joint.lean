import Nlp.Proofs.Derivative.Round
import Nlp.Proofs.Group.Schedule
import Nlp.Proofs.Solve.Asking
import Nlp.Solve.Probe
import Nlp.Solve.Record

/-!
# Joint solves

What the ranks of a group bring to a solve in parallel mode, and how far they agree in the end.  A
solve is a session: a handshake, the requests of the root's run, and one release, whatever the run
comes to.  Solves may follow one another, and the collectives of one do not mix with those of the
next.

## Main definitions

* `JointSolve`, `JointSolve.program`: what the ranks bring, and the part of each of them.
* `Session.Course`: what happens between the handshake and the end of a session.
* `JointSolve.Agreed`, `JointSolve.AllAgreed`: the ranks agree on the course of a session, and of
  several.

## Main results

* `JointSolve.begin_concludes`, `JointSolve.end_concludes`: the rules for a solve up to the run of
  the root and from there on.
* `JointSolve.program_concludes`: the rule for a whole solve.
* `JointSolve.sessions_agreed`: over messages the ranks agree on all sessions.
-/

namespace Nlp

variable {σ τ α β : Type} {size : Nat} {respond : Rank → Responder σ}

namespace Adapter

/-- The run of an adapter, with its callbacks answered. -/
def answered (adapter : Adapter τ) (problem : Problem Double) (engine : Engine)
    (memory : Engine.Memory) (here : Place) :
    Program rankAccess ((Except (Error Double) (Termination Double) × τ) × Bridge) :=
  ((adapter.run problem.layout).interpret (Bridge.answer problem engine here)).run (.new memory)

/-- What came of a run that came to its end. -/
def Outcome.ofRun : (Except (Error Double) (Termination Double) × τ) × Bridge → Outcome τ
  | ((result, findings), bridge) =>
    ⟨result.map fun t => (t, bridge.counters), some findings⟩

/-- What the root makes of the end of a session. -/
def wrapUp (o : Outcome τ) (released : Except (Error Double) Unit) :
    Task (Termination Double × Counters) := do
  match released with
  | .ok () => pure ()
  | .error e =>
    match o.result with
    | .ok _ => throw e
    | .error _ => Task.note (.releaseFailed e)
  Task.ofExcept o.result

theorem finish_parallel {engine : Engine} (hmode : engine.mode = .parallel) (here : Place)
    (o : Outcome τ) :
    finish engine here o =
      ExceptT.lift (Session.release here o.error?).run >>= wrapUp o := by
  rw [finish, if_pos hmode]
  refine congrArg (_ >>= ·) (funext fun released => ?_)
  rcases released with e | ⟨⟩
  · unfold wrapUp
    cases o.result with
    | ok _ => rfl
    | error _ => rfl
  · rfl

/-- What the root makes of its run. -/
def keep (adapter : Adapter τ) (problem : Problem Double) (history : History) (engine : Engine)
    (here : Place) (elapsed : Duration) (o : Outcome τ) :
    Except (Error Double) (Termination Double × Counters) → Program rankAccess (Solved τ)
  | .error e => .done ⟨history, .error e, o.findings⟩
  | .ok (t, counters) =>
    let solution := Solution.ofTermination adapter problem engine here elapsed t counters
    (Task.note (.solveFinished problem.name history.count solution.status t.objective)).run.bind
      fun _ => .done ⟨history.append solution, verdict history.count solution.status, o.findings⟩

/-- What the root has after a run of which this came, and a session that was released. -/
def kept (adapter : Adapter τ) (problem : Problem Double) (history : History) (engine : Engine)
    (here : Place) (elapsed : Duration) (o : Outcome τ) : Solved τ :=
  match o.result with
  | .error e => ⟨history, .error e, o.findings⟩
  | .ok (t, counters) =>
    let solution := Solution.ofTermination adapter problem engine here elapsed t counters
    ⟨history.append solution, verdict history.count solution.status, o.findings⟩

theorem wrapUp_ok (o : Outcome τ)
    (f : Except (Error Double) (Termination Double × Counters) → Program rankAccess α) :
    (wrapUp o (.ok ())).run.bind f = f o.result := by
  rcases o with ⟨e | t, findings⟩
  · rfl
  · rfl

theorem keep_ok (adapter : Adapter τ) (problem : Problem Double) (history : History)
    (engine : Engine) (here : Place) (elapsed : Duration) (o : Outcome τ) (t : Termination Double)
    (counters : Counters) (f : Solved τ → Program rankAccess α) :
    (adapter.keep problem history engine here elapsed o (.ok (t, counters))).bind f =
      let solution := Solution.ofTermination adapter problem engine here elapsed t counters
      (Task.note (.solveFinished problem.name history.count solution.status t.objective)).run.bind
        fun _ => f ⟨history.append solution, verdict history.count solution.status, o.findings⟩ :=
  rfl

theorem solve_root (adapter : Adapter τ) (problem : Problem Double) (history : History)
    (engine : Engine) (memory : Engine.Memory) (elapsed : Duration) :
    adapter.solve problem history engine memory ⟨rootRank, size⟩ elapsed =
      (Task.note (.solveStarted problem.name adapter.name engine.method engine.mode size)).run.bind
        fun _ => (adapter.runAtRoot problem engine memory ⟨rootRank, size⟩).bind fun outcome =>
          (finish engine ⟨rootRank, size⟩ outcome).run.bind
            (adapter.keep problem history engine ⟨rootRank, size⟩ elapsed outcome) := by
  refine congrArg (Program.bind _) (funext fun _ => congrArg (Program.bind _)
    (funext fun outcome => congrArg (Program.bind _) (funext fun result => ?_)))
  rcases result with e | ⟨t, counters⟩
  · rfl
  · rfl

theorem runAtRoot_bind (adapter : Adapter τ) (problem : Problem Double) (engine : Engine)
    (memory : Engine.Memory) (here : Place) (f : Outcome τ → Program rankAccess α) :
    (adapter.runAtRoot problem engine memory here).bind f =
      (prepare problem engine here).run.bind fun
        | .error e => f ⟨.error e, none⟩
        | .ok () => (adapter.answered problem engine memory here).bind fun ran =>
          f (.ofRun ran) := by
  rw [runAtRoot, Program.bind_eq, Program.bind_assoc]
  refine congrArg (Program.bind _) (funext fun prepared => ?_)
  rcases prepared with e | ⟨⟩
  · rfl
  · rw [Program.bind_eq, Program.bind_assoc]
    rfl

theorem prepare_parallel (problem : Problem Double) {engine : Engine}
    (hmode : engine.mode = .parallel) (here : Place) :
    prepare problem engine here =
      Session.handshake problem here >>= fun _ => noteAll (relaxations problem) := by
  rw [prepare, if_pos hmode]

theorem assist_parallel (problem : Problem Double) {engine : Engine}
    (hmode : engine.mode = .parallel) (here : Place) :
    assist problem engine here = (do
      Session.handshake problem here
      let _ ← Session.serve problem here
      return none) := by
  rw [assist, if_pos hmode]

theorem solve_other (adapter : Adapter τ) (problem : Problem Double) (history : History)
    (engine : Engine) (memory : Engine.Memory) (elapsed : Duration) {r : Rank}
    (hr : r ≠ rootRank) :
    adapter.solve problem history engine memory ⟨r, size⟩ elapsed =
      (assist problem engine ⟨r, size⟩).run.bind fun result => .done ⟨history, result, none⟩ := by
  have hother : (⟨r, size⟩ : Place).isRoot = false := decide_eq_false hr
  rw [solve, hother]
  rfl

/-- The root only reports some events. -/
theorem noteAll_concludes {events : List (Event Double)} {s₀ : σ}
    {others : Rank → Program rankAccess τ} {s : Rank → σ}
    {f : Except (Error Double) Unit → Program rankAccess τ}
    {post : List Transfer → Option (Rank → τ) → Prop} (hsize : rootRank < size)
    (hpanic : ¬ (respond rootRank).TakesNotes → post [] none)
    (h : ∀ s₁, Concludes size respond (f (.ok ())) s₁ others s post) :
    Concludes size respond ((noteAll events).run.bind f) s₀ others s post := by
  induction events generalizing s₀ with
  | nil => exact h s₀
  | cons event events ih =>
    rw [noteAll, Task.run_bind_bind]
    exact .quiet_root (Task.isQuiet_note event) hsize hpanic fun s₁ => ih

end Adapter

/-- What happens between the handshake of a session and its end. -/
structure Session.Course where
  /-- The requests of the root. -/
  requests : List Session.Request
  /-- Their collectives. -/
  rounds : List Transfer
  /-- The error the root ends with, if there is one. -/
  error : Option (Error Double)

/-- The collectives of a session: a handshake, the rounds and one release. -/
def Session.Course.transfers (course : Session.Course) (problems : Rank → Problem Double) :
    List Transfer :=
  Session.greeting problems ++ course.rounds ++ [Session.farewell course.error]

/-- What the ranks of a group bring to a solve in parallel mode. -/
structure JointSolve (τ : Type) where
  /-- The solvers; only the root's is run. -/
  adapter : Rank → Adapter τ
  /-- The problems, whose layouts and models may differ. -/
  problem : Rank → Problem Double
  /-- The histories of the problems. -/
  history : Rank → History
  /-- The engines. -/
  engine : Rank → Engine
  /-- What the engines remember of earlier requests. -/
  memory : Rank → Engine.Memory
  /-- What the clocks of the ranks say of the solve. -/
  elapsed : Rank → Duration
  /-- Every rank solves in parallel mode. -/
  parallel : ∀ r, (engine r).mode = .parallel

namespace JointSolve

/-- The part of a rank. -/
def program (solve : JointSolve τ) (here : Place) : Program rankAccess (Solved τ) :=
  (solve.adapter here.rank).solve (solve.problem here.rank) (solve.history here.rank)
    (solve.engine here.rank) (solve.memory here.rank) here (solve.elapsed here.rank)

/-- What another rank has after the session: nothing where the run of the root came to a
termination, and the root's failures otherwise. -/
def otherEnds (solve : JointSolve τ) (error : Option (Error Double)) (r : Rank) : Solved τ where
  history := solve.history r
  result := match error with
    | none => .ok none
    | some e => .error (.derivativeEvaluation (Session.reasons e))
  findings := none

/-- A rank other than the root takes part in the handshake, and then serves the session. -/
theorem program_other (solve : JointSolve τ) {r : Rank} (hr : r ≠ rootRank)
    (g : Solved τ → Program rankAccess β) :
    (solve.program ⟨r, size⟩).bind g =
      (Session.handshake (solve.problem r) ⟨r, size⟩).run.bind (Task.andThen (fun _ => do
        let _ ← Session.serve (solve.problem r) ⟨r, size⟩
        return none) fun result => g ⟨solve.history r, result, none⟩) := by
  rw [program, Adapter.solve_other _ _ _ _ _ _ hr, Adapter.assist_parallel _ (solve.parallel r),
    Program.bind_assoc, Task.run_bind_bind]
  rfl

section

variable {solve : JointSolve τ} {f : Solved τ → Program rankAccess β}
  {g : Rank → Solved τ → Program rankAccess β} {s₀ : σ} {s : Rank → σ}
  {post : List Transfer → Option (Rank → β) → Prop}

/-- What the root goes on with after its run. -/
def afterRun (solve : JointSolve τ) (here : Place) (o : Adapter.Outcome τ) :
    Program rankAccess (Solved τ) :=
  (Adapter.finish (solve.engine rootRank) here o).run.bind
    ((solve.adapter rootRank).keep (solve.problem rootRank) (solve.history rootRank)
      (solve.engine rootRank) here (solve.elapsed rootRank) o)

/-- What a rank other than the root goes on with after the handshake. -/
def servesFrom (solve : JointSolve τ) (g : Rank → Solved τ → Program rankAccess β) (size : Nat)
    (rounds served : Nat) (r : Rank) : Program rankAccess β :=
  (Session.serveFrom (solve.problem r) ⟨r, size⟩ rounds served).run.bind
    (Task.andThen (fun _ => pure none) fun result => g r ⟨solve.history r, result, none⟩)

/-- A solve up to the run of the root. -/
theorem begin_concludes (hsize : rootRank < size)
    (hpanic : Wire.extent (solve.problem rootRank).toSnapshot < Wire.wordLimit ∧
        (∀ r < size, Wire.extent (Session.ack solve.problem r) < Wire.wordLimit) ∧
        (∀ r < size, (respond r).TakesNotes) ∨ ∀ transfers, post transfers none)
    (hdiffers : ∀ e s₁ s',
      Session.welcome (Session.byRank size (Session.ack solve.problem)) = .error e →
      Concludes size respond ((solve.afterRun ⟨rootRank, size⟩ ⟨.error e, none⟩).bind f) s₁
        (solve.servesFrom g size Session.countLimit 0) s'
        fun transfers => post (Session.greeting solve.problem ++ transfers))
    (hagrees : ∀ s₁ s',
      Session.welcome (Session.byRank size (Session.ack solve.problem)) = .ok () →
      Concludes size respond
        (((solve.adapter rootRank).answered (solve.problem rootRank) (solve.engine rootRank)
          (solve.memory rootRank) ⟨rootRank, size⟩).bind fun ran =>
            (solve.afterRun ⟨rootRank, size⟩ (.ofRun ran)).bind f) s₁
        (solve.servesFrom g size Session.countLimit 0) s'
        fun transfers => post (Session.greeting solve.problem ++ transfers)) :
    Concludes size respond ((solve.program ⟨rootRank, size⟩).bind f) s₀
      (fun r => (solve.program ⟨r, size⟩).bind (g r)) s post := by
  have hnotes : ¬ (respond rootRank).TakesNotes → ∀ transfers, post transfers none :=
    fun hnotes => hpanic.resolve_left fun hb => hnotes (hb.2.2 _ hsize)
  refine Concludes.congr ?_ rfl fun r hr _ => by rw [solve.program_other hr]
  rw [program, Adapter.solve_root, Program.bind_assoc]
  refine .quiet_root (Task.isQuiet_note _) hsize (fun hn => hnotes hn _) fun s₁ => ?_
  rw [Program.bind_assoc, Adapter.runAtRoot_bind,
    Adapter.prepare_parallel _ (solve.parallel rootRank), Task.run_bind_bind]
  refine Session.handshake_concludes hsize hpanic fun s₂ s' => ?_
  simp only [Task.andThen_ok, Task.run_bind_bind]
  cases hwelcome : Session.welcome (Session.byRank size (Session.ack solve.problem)) with
  | error e => exact hdiffers e s₂ s' hwelcome
  | ok _ =>
    rw [Task.andThen_ok]
    exact Adapter.noteAll_concludes hsize (fun hn => hnotes hn _) fun s₃ => hagrees s₃ s' hwelcome

/-- What another rank has after its part. -/
theorem servesFrom_released (error : Option (Error Double)) (served : Nat) (r : Rank) :
    (Task.andThen (fun _ => pure none) fun result =>
        g r ⟨solve.history r, result, none⟩ : Except (Error Double) Nat → Program rankAccess β)
      (Session.released served error) = g r (solve.otherEnds error r) := by
  cases error with
  | none => rfl
  | some e => rfl

/-- A solve from the end of the run on: the session is released whatever came of the run. -/
theorem end_concludes {o : Adapter.Outcome τ} {rounds served : Nat} (hsize : rootRank < size)
    (hpanic : (1 < size → rounds ≠ 0) ∧
        Wire.extent (Session.releaseCommand o.error?) < Wire.wordLimit ∧
        (∀ r < size, (respond r).TakesNotes) ∨ ∀ transfers, post transfers none)
    (h : ∀ s₁ s', Concludes size respond
      (f ((solve.adapter rootRank).kept (solve.problem rootRank) (solve.history rootRank)
        (solve.engine rootRank) ⟨rootRank, size⟩ (solve.elapsed rootRank) o)) s₁
      (fun r => g r (solve.otherEnds o.error? r)) s'
      fun transfers => post (Session.farewell o.error? :: transfers)) :
    Concludes size respond ((solve.afterRun ⟨rootRank, size⟩ o).bind f) s₀
      (solve.servesFrom g size rounds served) s post := by
  have hnotes : ¬ (respond rootRank).TakesNotes → ∀ transfers, post transfers none :=
    fun hnotes => hpanic.resolve_left fun hb => hnotes (hb.2.2 _ hsize)
  rw [afterRun, Program.bind_assoc, Adapter.finish_parallel (solve.parallel rootRank),
    Task.run_lift_bind_bind]
  refine Session.release_concludes hsize hpanic fun s' served' => ?_
  simp only [servesFrom_released]
  rw [Adapter.wrapUp_ok]
  rcases o with ⟨e | ⟨t, counters⟩, findings⟩
  · exact h s₀ s'
  · rw [Adapter.keep_ok]
    exact .quiet_root (Task.isQuiet_note _) hsize (fun hn => hnotes hn _) fun s₁ => h s₁ s'

end

/-! ## Solves one after another -/

/-- The part of a rank in some solves. -/
def programs : List (JointSolve τ) → Place → Program rankAccess (List (Solved τ))
  | [], _ => .done []
  | solve :: solves, here =>
    (solve.program here).bind fun solved =>
      (programs solves here).bind fun rest => .done (solved :: rest)

/-- The group with its programs, which put on record what they pass to their collectives. -/
def crew (solves : List (JointSolve τ)) (size count : Nat) (states : Rank → σ) :
    Crew σ ((List (Solved τ) × Sent) × Nat) :=
  .ofPrograms size count states fun r => (programs solves ⟨r, size⟩).recorded

/-- A solve that asks for Jacobians at some points, and stops at the first that fails or at none. -/
def probing (stops : Bool) (points : List (List Double)) : JointSolve (List Finding) where
  adapter _ := .probing "probing" (points.map .jacobian) stops ⟨0, [0, 0], 0, [0], [0], 0, []⟩
  problem _ := Session.slope
  history _ := ⟨[]⟩
  engine _ := .new (.finiteDifference 0.5) .parallel
  memory _ := none
  elapsed _ := ⟨0, 0⟩
  parallel _ := rfl

/-- A solve that goes on after a point that is too short, and one that ends there. -/
def probes : List (JointSolve (List Finding)) :=
  [probing false [[0], [0, 0]], probing true [[0, 0], [0]]]

end JointSolve

end Nlp
