import Nlp.Proofs.Solve.Joint
import Nlp.Proofs.Solve.Mirror

/-!
# Solves in all modes

What a solve puts on record does not depend on where the columns of its Jacobians are evaluated: one
after another, on a pool, or by a group of ranks that have the same model.

## Main definitions

* `Solution.carriedOut`: the record of the same run in another mode.
* `Adapter.concluded`: what the root has after a run.
* `JointSolve.Manageable`: a solve in which every message can be sent.
* `JointSolve.RecordsAlone`, `JointSolve.RecordsTogether`: what the root has put on record, without
  a group and in one.

## Main results

* `JointSolve.concludes_concluded`: a group comes to what the run of its root comes to.
* `JointSolve.same_in_all_modes`: the mode does not change a solve.
-/

namespace Nlp

variable {τ α : Type} {m : Model Double} {size : Nat}

/-! ## What a solve has on record -/

/-- The record of the same run, carried out in another mode, by so many ranks and in another
time. -/
def Solution.carriedOut (solution : Solution) (mode : Mode) (ranks : Nat) (elapsed : Duration) :
    Solution :=
  { solution with statistics := { solution.statistics with wallTime := elapsed, mode, ranks } }

/-- The solve has put this solution on record, and ends with this result. -/
structure Solved.Records (solved : Solved τ) (before : History) (solution : Solution)
    (result : Except (Error Double) (Option Nat)) : Prop where
  solutions : solved.history.solutions = before.solutions ++ [solution]
  result : solved.result = result

theorem Solved.not_records {solved : Solved τ} {before : History} (h : solved.history = before)
    (solution : Solution) (result : Except (Error Double) (Option Nat)) :
    ¬ solved.Records before solution result := by
  rintro ⟨hsolutions, -⟩
  rw [h] at hsolutions
  exact absurd (congrArg List.length hsolutions) (by simp)

namespace Adapter

variable (adapter : Adapter τ) (problem : Problem Double) (history : History) (engine : Engine)
  (memory : Engine.Memory) (here : Place) (elapsed : Duration)

/-- What the root has after a run that came to this. -/
def concluded (ran : (Except (Error Double) (Termination Double) × τ) × Bridge) : Solved τ :=
  adapter.kept problem history engine here elapsed (.ofRun ran)

/-- The run has ended with this error. -/
def FailsWith (e : Error Double) (r : Except (Error Double) (Termination Double) × τ) : Prop :=
  r.1 = .error e

variable {adapter problem history engine memory here elapsed}

theorem not_records_concluded {ran : (Except (Error Double) (Termination Double) × τ) × Bridge}
    {e : Error Double} (h : ran.1.1 = .error e) (solution : Solution)
    (result : Except (Error Double) (Option Nat)) :
    ¬ (adapter.concluded problem history engine here elapsed ran).Records history solution
      result := by
  obtain ⟨⟨ended, findings⟩, bridge⟩ := ran
  obtain rfl : ended = .error e := h
  exact Solved.not_records rfl solution result

/-- Runs that come to the same, or both to failures, put the same on record. -/
theorem records_concluded_alike
    {ran ran' : (Except (Error Double) (Termination Double) × τ) × Bridge}
    (halike : Session.RunsAlike FailsWith ran ran') {solution : Solution}
    {result : Except (Error Double) (Option Nat)} :
    (adapter.concluded problem history engine here elapsed ran').Records history solution result ↔
      (adapter.concluded problem history engine here elapsed ran).Records history solution
        result := by
  rcases halike with rfl | ⟨e, e', he, he', -⟩
  · rfl
  · exact iff_of_false (not_records_concluded he' _ _) (not_records_concluded he _ _)

/-- The record of a run says in which mode it was carried out, by how many ranks and in what time,
and is the same in all modes otherwise. -/
theorem records_concluded_within {mode : Mode} {here' : Place} {elapsed' : Duration}
    {ran : (Except (Error Double) (Termination Double) × τ) × Bridge} {solution' : Solution}
    {result : Except (Error Double) (Option Nat)} :
    (adapter.concluded problem history (engine.within mode) here' elapsed' ran).Records history
        solution' result ↔
      ∃ solution,
        (adapter.concluded problem history (engine.within .sequential) here elapsed ran).Records
          history solution result ∧
        solution' =
          solution.carriedOut mode (if mode = .parallel then here'.size else 1) elapsed' := by
  rcases ran with ⟨⟨e | t, findings⟩, bridge⟩
  · exact ⟨fun h => absurd h (not_records_concluded rfl _ _),
      fun ⟨_, h, _⟩ => absurd h (not_records_concluded rfl _ _)⟩
  · constructor
    · rintro ⟨hsolutions, hresult⟩
      refine ⟨_, ⟨rfl, hresult⟩, ?_⟩
      obtain ⟨rfl⟩ := List.append_cancel_left hsolutions
      rfl
    · rintro ⟨solution, ⟨hsolutions, hresult⟩, rfl⟩
      obtain ⟨rfl⟩ := List.append_cancel_left hsolutions
      exact ⟨rfl, hresult⟩

/-! ## A solve by the root alone -/

theorem gives_quiet_bind {t : Task Unit} (ht : t.IsQuiet)
    {f : Except (Error Double) Unit → Program rankAccess α} {a : α} :
    m.Gives (t.run.bind f).alone a ↔ m.Gives (f (.ok ())).alone a := by
  obtain ⟨l, rfl, hl⟩ := ht
  have hquiet : m.Gives l.run (.ok ()) := by
    rcases hl m.responder () with ⟨s', h⟩ | ⟨-, hnotes⟩
    · exact h
    · exact absurd (fun _ _ => rfl) hnotes
  show m.Gives (l.run.onRank.bind f).alone a ↔ _
  rw [Model.gives_onRank_bind]
  constructor
  · rintro ⟨result, hresult, ha⟩
    obtain rfl := hresult.unique hquiet
    exact ha
  · exact fun ha => ⟨_, hquiet, ha⟩

theorem gives_noteAll_bind {events : List (Event Double)}
    {f : Except (Error Double) Unit → Program rankAccess α} {a : α} :
    m.Gives ((noteAll events).run.bind f).alone a ↔ m.Gives (f (.ok ())).alone a := by
  induction events with
  | nil => rfl
  | cons event events ih =>
    rw [noteAll, Task.run_bind_bind, gives_quiet_bind (Task.isQuiet_note event), Task.andThen_ok,
      ih]

/-- Without a session there is nothing to end. -/
theorem run_finish (hmode : engine.mode ≠ .parallel) (o : Outcome τ) :
    (finish engine here o).run = .done o.result := by
  rw [finish, if_neg hmode]
  rcases o with ⟨e | t, findings⟩
  · rfl
  · rfl

/-- Without a group, what a solve comes to is what its run comes to. -/
theorem gives_solve (hmode : engine.mode ≠ .parallel) {n : Nat} {solved : Solved τ} :
    m.Gives (adapter.solve problem history engine memory ⟨rootRank, n⟩ elapsed).alone solved ↔
      ∃ ran, m.Gives (adapter.answered problem engine memory ⟨rootRank, n⟩).alone ran ∧
        solved = adapter.concluded problem history engine ⟨rootRank, n⟩ elapsed ran := by
  have hprepare : prepare problem engine ⟨rootRank, n⟩ = noteAll (relaxations problem) := by
    rw [prepare, if_neg hmode]
  rw [solve_root, gives_quiet_bind (Task.isQuiet_note _), runAtRoot_bind, hprepare,
    gives_noteAll_bind, Model.gives_alone_bind]
  refine exists_congr fun ran => and_congr_right fun _ => ?_
  rw [run_finish hmode]
  rcases ran with ⟨⟨e | t, findings⟩, bridge⟩
  · exact Model.gives_done.trans eq_comm
  · exact (gives_quiet_bind (Task.isQuiet_note _)).trans (Model.gives_done.trans eq_comm)

/-! ## What a solve leaves -/

variable {good : (Except (Error Double) (Termination Double) × τ) × Bridge → Prop}

/-- The root goes on from what its run has come to, or from a failure. -/
theorem meets_runAtRoot
    (h : (adapter.answered problem engine memory here).Meets (.anything rankAccess) good) :
    (Always.program (.anything rankAccess)).holds (adapter.runAtRoot problem engine memory here)
      fun o => (∀ t, o.result ≠ .ok t) ∨ ∃ ran, good ran ∧ o = .ofRun ran := by
  let ending := Always.program (.anything rankAccess)
  show ending.holds (adapter.runAtRoot problem engine memory here) _
  rw [runAtRoot]
  refine ending.seq (Program.meets_anything _) fun prepared => ?_
  cases prepared with
  | error e =>
    refine .inl fun t ht => ?_
    cases ht
  | ok prepared => exact ending.chain h fun ran hran => ending.pure _ (.inr ⟨ran, hran, rfl⟩)

/-- The end of a session makes no result of a failure, and no other result of one. -/
theorem meets_finish (o : Outcome τ) :
    (Always.program (.anything rankAccess)).holds (finish engine here o).run
      fun kept => ∀ t, kept = .ok t → o.result = .ok t := by
  let ending := Always.program (.anything rankAccess)
  show ending.holds (finish engine here o).run _
  -- the release of a session may make a failure of a result, but no result of a failure
  by_cases hmode : engine.mode = .parallel
  · rw [finish_parallel hmode]
    refine (ending.except (Error Double)).seq
      ((Program.meets_anything _).mono fun _ _ _ _ => trivial) fun released => ?_
    rcases o with ⟨e' | t, findings⟩
    · cases released with
      | ok released => exact ending.pure _ nofun
      | error e => exact ⟨trivial, fun _ _ => nofun⟩
    · cases released with
      | ok released => exact ending.pure _ fun t ht => ht
      | error e => exact ending.pure _ nofun
  · rw [run_finish hmode]
    exact fun t ht => ht

/-- Whatever a rank is answered, its solve leaves the history as it is, or what its run has come
to. -/
theorem meets_solve
    (h : (adapter.answered problem engine memory here).Meets (.anything rankAccess) good) :
    (adapter.solve problem history engine memory here elapsed).Meets (.anything rankAccess)
      fun solved => solved.history = history ∨
        ∃ ran, good ran ∧ solved = adapter.concluded problem history engine here elapsed ran := by
  let ending := Always.program (.anything rankAccess)
  show ending.holds (adapter.solve problem history engine memory here elapsed) _
  rw [solve]
  split
  · refine ending.seq (Program.meets_anything _) fun _ =>
      ending.chain (meets_runAtRoot h) fun o ho =>
        ending.chain (meets_finish o) fun kept hkept => ?_
    rcases kept with e | ⟨t, counters⟩
    · exact ending.pure _ (.inl rfl)
    refine ending.seq (Program.meets_anything _) fun _ => ending.pure _ ?_
    have hresult := hkept _ rfl
    rcases ho with hnot | ⟨ran, hran, rfl⟩
    · exact absurd hresult (hnot _)
    · refine .inr ⟨ran, hran, ?_⟩
      rw [concluded, kept, hresult]
  · exact ending.seq (Program.meets_anything _) fun result => ending.pure _ (.inl rfl)

/-- Where the run of an adapter comes to no result, nothing is put on record. -/
theorem history_of_neverDone (h : (adapter.run problem.layout).NeverDone) :
    (adapter.solve problem history engine memory here elapsed).Meets (.anything rankAccess)
      fun solved => solved.history = history := by
  have hnever : ((Always.program (.anything rankAccess)).state fun _ : Bridge => True).holds
      ((adapter.run problem.layout).interpret (Bridge.answer problem engine here))
      fun _ => False :=
    h.interpret _ fun c _ b _ => (Program.meets_anything _).mono fun _ _ => ⟨trivial, trivial⟩
  refine (meets_solve (hnever (.new memory) trivial)).mono fun solved hsolved => ?_
  exact hsolved.resolve_right fun ⟨_, hfalse, _⟩ => hfalse.1

/-! ## The solvers of this library -/

/-- The solvers of this library, with any settings. -/
inductive Bundled : Adapter Unit → Prop
  | augmentedLagrangian (config : AugmentedLagrangian.Config Double) (options : OptionTable) :
    Bundled (.augmentedLagrangian config options)
  | projectedBfgs (config : ProjectedBfgs.Config Double) (options : OptionTable) :
    Bundled (.projectedBfgs config options)

theorem heeds_plain {rows : Nat} {run : Run Double (Error Double) (Termination Double)}
    (h : (heeding Double (Error Double) rows).holds run fun _ => True) :
    (plain run).Heeds rows FailsWith fun _ => True := by
  refine h.map (fun e r hr => ?_) fun _ _ => trivial
  rw [hr]
  rfl

/-- The solvers heed their callbacks, or come to no result. -/
theorem Bundled.heeds {adapter : Adapter Unit} (h : adapter.Bundled) (layout : Layout Double) :
    (adapter.run layout).Heeds layout.rows.length FailsWith (fun _ => True) ∨
      (adapter.run layout).NeverDone := by
  cases h with
  | augmentedLagrangian config options =>
    refine (AugmentedLagrangian.run_heeds config layout).imp heeds_plain fun hnever => ?_
    exact (Program.meets_bind _ _).mpr (hnever.mono fun _ => False.elim)
  | projectedBfgs config options =>
    refine .inl ?_
    show Program.Heeds _ _ _ (if layout.rows = [] then _ else _)
    split
    · exact heeds_plain (ProjectedBfgs.run_heeds config layout)
    · trivial

end Adapter

/-! ## A solve by a group -/

namespace Session

variable {problems : Rank → Problem Double}

/-- Ranks whose layouts do not differ from the root's have nothing to say about them. -/
theorem ack_eq_none (hlayout : ∀ r < size,
      (problems rootRank).toSnapshot.mismatch? (problems r).toSnapshot = none) {r : Rank}
    (hr : r < size) : ack problems r = none := by
  by_cases hr0 : r = rootRank
  · rw [hr0, ack, lead_root]
  · rw [ack, lead_other _ _ hr0, difference, hlayout r hr]
    rfl

theorem welcome_eq_ok (hlayout : ∀ r < size,
      (problems rootRank).toSnapshot.mismatch? (problems r).toSnapshot = none) :
    welcome (byRank size (ack problems)) = .ok () := by
  have hnone : mismatches (byRank size (ack problems)) = [] := by
    refine List.filterMap_eq_nil_iff.mpr fun a ha => ?_
    obtain ⟨r, hr, rfl⟩ := List.mem_map.mp ha
    rw [ack_eq_none hlayout (List.mem_range.mp hr)]
    rfl
  rw [welcome, hnone]

end Session

namespace JointSolve

/-- What the run of the root comes to in sequential mode. -/
def RunsTo (solve : JointSolve τ) (m : Model Double)
    (ran : (Except (Error Double) (Termination Double) × τ) × Bridge) : Prop :=
  m.Gives ((solve.adapter rootRank).answered (solve.problem rootRank)
    ((solve.engine rootRank).within .sequential) (solve.memory rootRank) .single).alone ran

theorem sequential (solve : JointSolve τ) :
    ((solve.engine rootRank).within .sequential).mode ≠ .parallel :=
  nofun

/-- Whatever the ranks have to tell each other in a solve has a message, and no rank loses count of
the requests. -/
structure Manageable (solve : JointSolve τ) (m : Model Double) (size : Nat) : Prop where
  sendable : Session.Sendable m size (solve.problem rootRank)
  snapshot : Wire.extent (solve.problem rootRank).toSnapshot < Wire.wordLimit
  requests : ∀ ran, solve.RunsTo m ran → ran.2.counters.jacobians + 1 < Session.countLimit
  failure : ∀ ran e, solve.RunsTo m ran → ran.1.1 = .error e → Session.Tellable e

variable {solve : JointSolve τ}

/-- With ranks that have the same layout and the same model, a solve comes to what the run of the
root comes to in sequential mode. -/
theorem concludes_concluded (hmanageable : solve.Manageable m size)
    (hlayout : ∀ r < size,
      (solve.problem rootRank).toSnapshot.mismatch? (solve.problem r).toSnapshot = none)
    (hheeds : ((solve.adapter rootRank).run (solve.problem rootRank).layout).Heeds
      (solve.problem rootRank).constraints.length Adapter.FailsWith fun _ => True)
    {ran : (Except (Error Double) (Termination Double) × τ) × Bridge} (hran : solve.RunsTo m ran) :
    Concludes size (fun _ => m.responder) (solve.program ⟨rootRank, size⟩) ()
      (fun r => solve.program ⟨r, size⟩) (fun _ => ()) fun _ outcome =>
        ∃ results, outcome = some results ∧ ∃ ran', Session.RunsAlike Adapter.FailsWith ran ran' ∧
          results rootRank = (solve.adapter rootRank).concluded (solve.problem rootRank)
            (solve.history rootRank) (solve.engine rootRank) ⟨rootRank, size⟩
            (solve.elapsed rootRank) ran' := by
  have hroot := hmanageable.sendable.root
  have hrequests := hmanageable.requests ran hran
  have hnotes : ∀ r < size, m.responder.TakesNotes := fun _ _ _ _ => rfl
  have hacks : ∀ r < size, Wire.extent (Session.ack solve.problem r) < Wire.wordLimit := by
    intro r hr
    rw [Session.ack_eq_none hlayout hr]
    exact Wire.wordLimit_pos
  have hcounts : ∀ r < size, (solve.problem rootRank).SameCounts (solve.problem r) := fun r hr =>
    Session.sameCounts_of_mismatch? (hlayout r hr)
  have hmirrors : Session.Mirrors m size solve.problem
      (Session.Asked (.new (solve.memory rootRank)))
      (Session.RunsAlike Adapter.FailsWith)
      ((solve.adapter rootRank).answered (solve.problem rootRank)
        ((solve.engine rootRank).within .sequential) (solve.memory rootRank) .single)
      ((solve.adapter rootRank).answered (solve.problem rootRank) (solve.engine rootRank)
        (solve.memory rootRank) ⟨rootRank, size⟩) :=
    Session.mirrors_interpret hheeds rfl hmanageable.sendable hcounts solve.sequential
      (solve.parallel rootRank) rfl rfl nofun
  refine Concludes.of_bind_done (begin_concludes (g := fun _ => .done) hroot
    (.inl ⟨hmanageable.snapshot, hacks, hnotes⟩) (fun e s₁ s' hwelcome => ?_) fun s₁ s' _ => ?_)
  · rw [Session.welcome_eq_ok hlayout] at hwelcome
    cases hwelcome
  refine hmirrors _ _ _ _ _ _ _ hran (fun _ => hrequests.le) ?_
  intro ran' rounds served halike hrounds
  have htellable : ∀ e, ran'.1.1 = .error e → Session.Tellable e := by
    rcases halike with rfl | ⟨_, e', -, he', htellable⟩
    · exact fun e => hmanageable.failure ran' e hran
    · intro e he
      obtain rfl := Except.error.inj (he'.symm.trans he)
      exact htellable
  refine end_concludes (g := fun _ => .done) hroot (.inl ⟨fun hsize => ?_, ?_, hnotes⟩)
    fun s₄ s'' => ?_
  -- after all requests of the run there is a round left for the release
  · have hrounds := hrounds hsize
    simp only [Session.Asked, Bridge.new] at hrounds
    omega
  · rcases ran' with ⟨⟨e | t, findings⟩, bridge⟩
    · exact htellable e rfl
    · exact Wire.wordLimit_pos
  · exact .done ⟨_, rfl, ran', halike, lead_root _ _⟩

/-! ## All modes -/

/-- The solve puts this solution on record where the root is without a group, in this mode and in
this time, and ends with this result. -/
def RecordsAlone (solve : JointSolve τ) (m : Model Double) (mode : Mode) (n : Nat)
    (elapsed : Duration) (solution : Solution) (result : Except (Error Double) (Option Nat)) :
    Prop :=
  ∃ solved, m.Gives ((solve.adapter rootRank).solve (solve.problem rootRank)
      (solve.history rootRank) ((solve.engine rootRank).within mode) (solve.memory rootRank)
      ⟨rootRank, n⟩ elapsed).alone solved ∧
    solved.Records (solve.history rootRank) solution result

/-- The ranks of a group with their parts of the solve, after this many collectives. -/
def team (solve : JointSolve τ) (size count : Nat) : Crew Unit (Solved τ × Nat) :=
  .ofPrograms size count (fun _ => ()) fun r => solve.program ⟨r, size⟩

/-- The solve of a group can come over messages to a point where the root has put this solution on
record, and has this result. -/
def RecordsTogether (solve : JointSolve τ) (m : Model Double) (size : Nat) (solution : Solution)
    (result : Except (Error Double) (Option Nat)) : Prop :=
  ∃ count reached,
    Crew.Reaches (Crew.calmRules size fun _ => m.responder) (solve.team size count) reached ∧
      ∃ entry ∈ (reached.hands rootRank).past,
        entry.1.Records (solve.history rootRank) solution result

theorem recordsAlone_iff {mode : Mode} (hmode : mode ≠ .parallel) {n : Nat} {elapsed : Duration}
    {solution : Solution} {result : Except (Error Double) (Option Nat)} :
    solve.RecordsAlone m mode n elapsed solution result ↔ ∃ ran, solve.RunsTo m ran ∧
      ((solve.adapter rootRank).concluded (solve.problem rootRank) (solve.history rootRank)
        ((solve.engine rootRank).within mode) ⟨rootRank, n⟩ elapsed ran).Records
          (solve.history rootRank) solution result := by
  have hmode' : ((solve.engine rootRank).within mode).mode ≠ .parallel := hmode
  have hsame : m.Same
      ((solve.adapter rootRank).answered (solve.problem rootRank)
        ((solve.engine rootRank).within .sequential) (solve.memory rootRank) .single)
      ((solve.adapter rootRank).answered (solve.problem rootRank)
        ((solve.engine rootRank).within mode) (solve.memory rootRank) ⟨rootRank, n⟩) :=
    Bridge.same_interpret solve.sequential hmode' rfl rfl _ _
  constructor
  · rintro ⟨solved, hgives, hrecords⟩
    obtain ⟨ran, hran, rfl⟩ := (Adapter.gives_solve hmode).mp hgives
    exact ⟨ran, (hsame ran).mp hran, hrecords⟩
  · rintro ⟨ran, hran, hrecords⟩
    exact ⟨_, (Adapter.gives_solve hmode).mpr ⟨ran, (hsame ran).mpr hran, rfl⟩, hrecords⟩

/-- A group that brings its root a result puts on record what is on record there. -/
theorem recordsTogether_iff {solved : Solved τ}
    (hbrings : ∀ count, (solve.team size count).Brings
      (Crew.calmRules size fun _ => m.responder) rootRank solved)
    {solution : Solution} {result : Except (Error Double) (Option Nat)} :
    solve.RecordsTogether m size solution result ↔
      solved.Records (solve.history rootRank) solution result := by
  constructor
  · rintro ⟨count, reached, hreaches, entry, hentry, hrecords⟩
    rcases (hbrings count).past reached hreaches with hpast | ⟨c, hpast⟩
    · rw [hpast] at hentry
      cases hentry
    · rw [hpast] at hentry
      obtain rfl := List.mem_singleton.mp hentry
      exact hrecords
  · intro hrecords
    -- for the other direction there is a run to the end, as no run goes on forever
    obtain ⟨reached, hreaches, hstuck⟩ :=
      Crew.exists_stuck (Crew.calmRules size fun _ => m.responder) (solve.team size 0)
    obtain ⟨c, hpast⟩ := (hbrings 0).stuck reached hreaches hstuck
    exact ⟨0, reached, hreaches, (solved, c), by rw [hpast]; exact List.mem_singleton_self _,
      hrecords⟩

theorem recordsAlone_iff_of_runsTo {ran : (Except (Error Double) (Termination Double) × τ) × Bridge}
    (hran : solve.RunsTo m ran) {mode : Mode} (hmode : mode ≠ .parallel) {n : Nat}
    {elapsed : Duration} {solution : Solution} {result : Except (Error Double) (Option Nat)} :
    solve.RecordsAlone m mode n elapsed solution result ↔
      ((solve.adapter rootRank).concluded (solve.problem rootRank) (solve.history rootRank)
        ((solve.engine rootRank).within mode) ⟨rootRank, n⟩ elapsed ran).Records
          (solve.history rootRank) solution result := by
  rw [recordsAlone_iff hmode]
  refine ⟨fun ⟨ran', hran', hrecords⟩ => ?_, fun hrecords => ⟨ran, hran, hrecords⟩⟩
  obtain rfl := hran'.unique hran
  exact hrecords

/-- The group brings its root what the run of the root comes to in sequential mode. -/
theorem exists_brings (hmanageable : solve.Manageable m size)
    (hlayout : ∀ r < size,
      (solve.problem rootRank).toSnapshot.mismatch? (solve.problem r).toSnapshot = none)
    (hheeds : ((solve.adapter rootRank).run (solve.problem rootRank).layout).Heeds
      (solve.problem rootRank).constraints.length Adapter.FailsWith fun _ => True) :
    ∃ ran solved, solve.RunsTo m ran ∧
      (∀ solution result, solved.Records (solve.history rootRank) solution result ↔
        ((solve.adapter rootRank).concluded (solve.problem rootRank) (solve.history rootRank)
          ((solve.engine rootRank).within .parallel) ⟨rootRank, size⟩ (solve.elapsed rootRank)
          ran).Records (solve.history rootRank) solution result) ∧
      ∀ count, (solve.team size count).Brings (Crew.calmRules size fun _ => m.responder)
        rootRank solved := by
  obtain ⟨ran, hran⟩ : ∃ ran, solve.RunsTo m ran :=
    Bridge.exists_gives_interpret solve.sequential hheeds (.new (solve.memory rootRank))
  obtain ⟨solved, ⟨ran', halike, rfl⟩, hbrings⟩ :
      ∃ solved, (∃ ran', Session.RunsAlike Adapter.FailsWith ran ran' ∧
        solved = (solve.adapter rootRank).concluded (solve.problem rootRank)
          (solve.history rootRank) (solve.engine rootRank) ⟨rootRank, size⟩
          (solve.elapsed rootRank) ran') ∧
        ∀ count, (solve.team size count).Brings (Crew.calmRules size fun _ => m.responder)
          rootRank solved :=
    Concludes.brings hmanageable.sendable.root
      (concludes_concluded hmanageable hlayout hheeds hran)
  -- a joint solve is one in parallel mode already
  have hwithin : (solve.engine rootRank).within .parallel = solve.engine rootRank := by
    rw [← solve.parallel rootRank]
    rfl
  refine ⟨ran, _, hran, fun solution result => ?_, hbrings⟩
  rw [hwithin]
  exact Adapter.records_concluded_alike halike

/-- The mode does not change a solve with one of the solvers of this library.  Where all ranks have
the same layout and the same model, which always answers alike, a group puts a solution on record
exactly if the root by itself does in sequential mode, whatever the order of the messages, and so
does the root in threads mode.  The result is the same, and so is the solution, except for the mode,
the number of ranks and the time; and if one course of events ends in it, all of them do. -/
theorem same_in_all_modes {solve : JointSolve Unit} (hbundled : (solve.adapter rootRank).Bundled)
    (hlayout : ∀ r < size,
      (solve.problem rootRank).toSnapshot.mismatch? (solve.problem r).toSnapshot = none)
    (hmanageable : solve.Manageable m size) (n n' : Nat) (elapsed elapsed' : Duration) :
    (∀ solution' result, solve.RecordsAlone m .threads n' elapsed' solution' result ↔
      ∃ solution, solve.RecordsAlone m .sequential n elapsed solution result ∧
        solution' = solution.carriedOut .threads 1 elapsed') ∧
    (∀ solution' result, solve.RecordsTogether m size solution' result ↔
      ∃ solution, solve.RecordsAlone m .sequential n elapsed solution result ∧
        solution' = solution.carriedOut .parallel size (solve.elapsed rootRank)) ∧
    ∀ solution' result, solve.RecordsTogether m size solution' result →
      ∃ solved : Solved Unit, solved.Records (solve.history rootRank) solution' result ∧
        ∀ count, (solve.team size count).Brings (Crew.calmRules size fun _ => m.responder)
          rootRank solved := by
  rcases hbundled.heeds (solve.problem rootRank).layout with hheeds | hnever
  · have hrows : (solve.problem rootRank).layout.rows.length =
        (solve.problem rootRank).constraints.length := List.length_map _
    rw [hrows] at hheeds
    obtain ⟨ran, solved, hran, hsolved, hbrings⟩ := exists_brings hmanageable hlayout hheeds
    have hsequential : Mode.sequential ≠ .parallel := nofun
    have hthreads : Mode.threads ≠ .parallel := nofun
    refine ⟨fun solution' result => ?_, fun solution' result => ?_, fun solution' result h => ?_⟩
    · rw [recordsAlone_iff_of_runsTo hran hthreads, Adapter.records_concluded_within]
      exact exists_congr fun solution => and_congr_left fun _ =>
        (recordsAlone_iff_of_runsTo hran hsequential).symm
    · rw [recordsTogether_iff hbrings, hsolved, Adapter.records_concluded_within]
      exact exists_congr fun solution => and_congr_left fun _ =>
        (recordsAlone_iff_of_runsTo hran hsequential).symm
    · exact ⟨solved, (recordsTogether_iff hbrings).mp h, hbrings⟩
  · -- a run that comes to no result puts nothing on record, with or without a group
    have halone : ∀ mode k time solution result,
        ¬ solve.RecordsAlone m mode k time solution result := by
      rintro mode k time solution result ⟨solved, hgives, hrecords⟩
      have hkept := (Adapter.history_of_neverDone hnever).of_gives hgives
      exact Solved.not_records hkept _ _ hrecords
    have htogether : ∀ solution result, ¬ solve.RecordsTogether m size solution result := by
      rintro solution result ⟨count, reached, hreaches, entry, hentry, hrecords⟩
      have hkept := Crew.past_of_meets (Adapter.history_of_neverDone hnever) hreaches entry hentry
      exact Solved.not_records hkept _ _ hrecords
    refine ⟨fun solution' result => ?_, fun solution' result => ?_, fun solution' result h => ?_⟩
    · exact iff_of_false (halone _ _ _ _ _) fun ⟨_, h, _⟩ => halone _ _ _ _ _ h
    · exact iff_of_false (htogether _ _) fun ⟨_, h, _⟩ => halone _ _ _ _ _ h
    · exact absurd h (htogether _ _)

/-- A solve with the augmented Lagrangian solver, which asks for two Jacobians of two columns. -/
def steady : JointSolve Unit where
  adapter _ := .augmentedLagrangian .default []
  problem _ := Session.slope
  history _ := ⟨[]⟩
  engine _ := .new (.complexStep 1) .parallel
  memory _ := none
  elapsed _ := ⟨2, 0⟩
  parallel _ := rfl

theorem steady_runsTo :
    ∃ t bridge, steady.RunsTo Session.level ((.ok t, ()), bridge) ∧
      Status.ofCode t.code = .optimal ∧ bridge.counters.jacobians = 2 := by
  have hresult : (((steady.adapter rootRank).answered (steady.problem rootRank)
      ((steady.engine rootRank).within .sequential) (steady.memory rootRank) .single).alone.run
        Session.level.responder ()).result?.map (fun ran =>
          (ran.1.1.toOption.map fun t => Status.ofCode t.code, ran.2.counters.jacobians)) =
            some (some .optimal, 2) := by
    decide +kernel
  obtain ⟨⟨⟨_ | t, ⟨⟩⟩, bridge⟩, ⟨⟩, hran, hresult⟩ := Program.Ending.exists_of_result? hresult
  · cases hresult
  · obtain ⟨hstatus, hjacobians⟩ := Prod.mk.inj hresult
    exact ⟨t, bridge, hran, Option.some.inj hstatus, hjacobians⟩

/-- A solve with two Jacobians leaves the same solution on one rank, on a pool and on two ranks,
where it takes three, one and two seconds. -/
theorem steady_in_all_modes :
    ∃ solution, solution.statistics.jacobians = 2 ∧
      steady.RecordsAlone Session.level .sequential 1 ⟨3, 0⟩ solution (.ok (some 0)) ∧
      steady.RecordsAlone Session.level .threads 1 ⟨1, 0⟩ (solution.carriedOut .threads 1 ⟨1, 0⟩)
        (.ok (some 0)) ∧
      steady.RecordsTogether Session.level 2 (solution.carriedOut .parallel 2 ⟨2, 0⟩)
        (.ok (some 0)) := by
  obtain ⟨t, bridge, hran, hstatus, hjacobians⟩ := steady_runsTo
  have hmanageable : steady.Manageable Session.level 2 := by
    refine ⟨⟨by decide, by decide, by decide, fun k x j e hx h => ?_⟩, by decide,
      fun ran' hran' => ?_, fun ran' e hran' he => ?_⟩
    · exact absurd h (Session.level_not_fails hx j e)
    · obtain rfl := hran'.unique hran
      show bridge.counters.jacobians + 1 < _
      rw [hjacobians]
      decide
    · obtain rfl := hran'.unique hran
      cases he
  obtain ⟨hthreads, htogether, -⟩ := @same_in_all_modes Session.level 2 steady
    (.augmentedLagrangian .default []) (by decide) hmanageable 1 1 ⟨3, 0⟩ ⟨1, 0⟩
  have hmode : Mode.sequential ≠ .parallel := nofun
  have halone := (@recordsAlone_iff _ _ steady _ hmode 1 ⟨3, 0⟩ _ _).mpr
    ⟨_, hran, rfl, congrArg (Adapter.verdict 0) hstatus⟩
  exact ⟨_, hjacobians, halone, (hthreads _ _).mpr ⟨_, halone, rfl⟩,
    (htogether _ _).mpr ⟨_, halone, rfl⟩⟩

end JointSolve

end Nlp
