import Nlp.Proofs.Run
import Nlp.Proofs.Solve.Joint
import Nlp.Solve.Workbench

/-!
# Histories of solves

Solves of one problem, one after another, whatever the adapters, the modes and the ranks do.  The
history grows at its end only, by one solution for every run that has come to a termination and
whose session has been released.

## Main definitions

* `SolveCall`, `Work.solveAll`: solves that are asked for, one after another.
* `SolveCall.Ran`, `SolveCall.Released`: what the run of a solve and the end of its session come to.
* `SolveCall.Keeps`: what a solve does to the history.

## Main results

* `SolveCall.keeps_of_run`: every solve keeps the history.
* `Work.history_law`: so do any number of them.
-/

namespace Nlp

variable {σ τ α : Type}

/-! ## Solves that are asked for -/

/-- A solve that is asked for. -/
structure SolveCall (τ : Type) where
  /-- The solver. -/
  adapter : Adapter τ
  /-- The engine. -/
  engine : Engine
  /-- What the engine remembers of earlier requests. -/
  memory : Engine.Memory
  /-- The rank. -/
  here : Place
  /-- What a clock says of the run. -/
  elapsed : Duration

/-- The part of the rank in the solve. -/
def SolveCall.program (call : SolveCall τ) (problem : Problem Double) (history : History) :
    Program rankAccess (Solved τ) :=
  call.adapter.solve problem history call.engine call.memory call.here call.elapsed

/-- Some solves at a workbench, with the result of each. -/
def Work.solveAll : List (SolveCall τ) → Work (List (Except (Error Double) (Option Nat)))
  | [] => return []
  | call :: calls => do
    let (result, _) ←
      Work.solveWith call.adapter call.engine call.memory call.here call.elapsed
    let results ← solveAll calls
    return result :: results

/-- What a rank is answered, with a state that is kept; no answer ends the rank. -/
abbrev RankHandler (σ : Type) : Type :=
  (c : RankCall) → σ → Option (rankAccess.Reply c) × σ

/-- The error of a result, if it is one. -/
def errorOf? : Except (Error Double) α → Option (Error Double)
  | .ok _ => none
  | .error e => some e

/-- The result of a recorded solve by its code. -/
def resultOfCode (index : Nat) (code : Int) : Except (Error Double) (Option Nat) :=
  if code = 0 ∨ code = 1 ∨ code = 3 then .ok (some index)
  else if code = 2 then .error (.solverInfeasible index)
  else .error (.solverDiverged index (.ofCode code))

theorem verdict_ofCode (index : Nat) (code : Int) :
    Adapter.verdict index (.ofCode code) = resultOfCode index code := by
  by_cases h0 : code = 0
  · subst h0
    rfl
  by_cases h1 : code = 1
  · subst h1
    rfl
  by_cases h3 : code = 3
  · subst h3
    rfl
  by_cases h2 : code = 2
  · subst h2
    rfl
  have hdiverged : resultOfCode index code = .error (.solverDiverged index (.ofCode code)) := by
    rw [resultOfCode, if_neg (by omega), if_neg h2]
  have hsmall : ¬ (code = ReturnCode.acceptable.toInt ∨ code = ReturnCode.smallStep.toInt) :=
    not_or.mpr ⟨h1, h3⟩
  have hinfeasible : ¬ code = ReturnCode.infeasible.toInt := h2
  rw [hdiverged, Status.ofCode, if_neg fun h : code = ReturnCode.succeeded.toInt => h0 h,
    if_neg hsmall, if_neg hinfeasible]
  split <;> rfl

namespace SolveCall

section

variable (call : SolveCall τ) (problem : Problem Double) (handler : RankHandler σ)

/-- What the run of a solve at the root comes to: the error of the handshake, or what its adapter
comes to. -/
inductive Ran : σ → Except (Error Double) (Termination Double × Counters) → σ → Prop
  | refused {s s' : σ} {e : Error Double}
      (h : (Adapter.prepare problem call.engine call.here).run.run handler s =
        .finished (.error e) s') : Ran s (.error e) s'
  | ran {s s₁ s' : σ} {result : Except (Error Double) (Termination Double)} {findings : τ}
      {bridge : Bridge}
      (hprepared : (Adapter.prepare problem call.engine call.here).run.run handler s =
        .finished (.ok ()) s₁)
      (h : (((call.adapter.run problem.layout).interpret
        (Bridge.answer problem call.engine call.here)).run (.new call.memory)).run handler s₁ =
          .finished ((result, findings), bridge) s') :
    Ran s (result.map fun t => (t, bridge.counters)) s'

/-- What the end of the session comes to, which only a solve in parallel mode has. -/
inductive Released (ran : Except (Error Double) (Termination Double × Counters)) :
    σ → Except (Error Double) Unit → σ → Prop
  | alone {s : σ} (hmode : call.engine.mode ≠ .parallel) : Released ran s (.ok ()) s
  | session {s s' : σ} {released : Except (Error Double) Unit}
      (hmode : call.engine.mode = .parallel)
      (h : (Session.release call.here (errorOf? ran)).run.run handler s = .finished released s') :
    Released ran s released s'

/-- What a solve makes of the history.  At the root, a solution is appended exactly if the run has
come to a termination and the session has been released; its index is the number of solutions
before, and its code decides the result.  Otherwise the history stays as it is, and the result is
the error of the run, or of the release if the run has none.  Another rank leaves the history as it
is. -/
structure Keeps (s : σ) (before : History) (result : Except (Error Double) (Option Nat))
    (after : History) (s' : σ) : Prop where
  run : ∃ findings, (call.program problem before).run handler s =
    .finished ⟨after, result, findings⟩ s'
  root : call.here.isRoot → ∃ s₀ ran s₁ released s₂,
    call.Ran problem handler s₀ ran s₁ ∧ call.Released handler ran s₁ released s₂ ∧
    ((∃ solution, after = before.append solution) ↔
      (∃ t counters, ran = .ok (t, counters)) ∧ released = .ok ()) ∧
    (∀ t counters, ran = .ok (t, counters) → released = .ok () →
      after = before.append (.ofTermination call.adapter problem call.engine call.here call.elapsed
        t counters) ∧
        result = resultOfCode before.count t.code) ∧
    (∀ e, ran = .error e → after = before ∧ result = .error e) ∧
    (∀ t e, ran = .ok t → released = .error e → after = before ∧ result = .error e)
  other : ¬ call.here.isRoot → after = before ∧ ∀ index, result ≠ .ok (some index)

end

variable {call : SolveCall τ} {problem : Problem Double} {handler : RankHandler σ} {s s' : σ}
  {before : History}

theorem ran_of_runAtRoot {o : Adapter.Outcome τ}
    (h : (call.adapter.runAtRoot problem call.engine call.memory call.here).run handler s =
      .finished o s') :
    call.Ran problem handler s o.result s' := by
  rw [Adapter.runAtRoot, Program.bind_eq, Program.run_bind_eq_finished] at h
  obtain ⟨prepared, s₁, hprepared, h⟩ := h
  cases prepared with
  | error e =>
    obtain ⟨rfl, rfl⟩ := Program.Ending.finished.inj h
    exact .refused hprepared
  | ok prepared =>
    rw [Program.bind_eq, Program.run_bind_eq_finished] at h
    obtain ⟨⟨⟨result, findings⟩, bridge⟩, s₂, hrun, h⟩ := h
    obtain ⟨rfl, rfl⟩ := Program.Ending.finished.inj h
    exact .ran hprepared hrun

/-- What the root makes of its run and of the end of the session. -/
def settle (ran : Except (Error Double) (Termination Double × Counters)) :
    Except (Error Double) Unit → Except (Error Double) (Termination Double × Counters)
  | .ok () => ran
  | .error e => ran.bind fun _ => .error e

theorem settle_ok (ran : Except (Error Double) (Termination Double × Counters)) :
    settle ran (.ok ()) = ran := rfl

theorem settle_failed (e : Error Double) (released : Except (Error Double) Unit) :
    settle (.error e) released = .error e := by
  cases released with
  | ok _ => rfl
  | error _ => rfl

theorem settle_unreleased (t : Termination Double × Counters) (e : Error Double) :
    settle (.ok t) (.error e) = .error e := rfl

theorem run_finish_parallel {engine : Engine} (hmode : engine.mode = .parallel) (here : Place)
    (o : Adapter.Outcome τ) :
    (Adapter.finish engine here o).run = (Session.release here (errorOf? o.result)).run.bind
      fun released => (Adapter.wrapUp o released).run := by
  have herror : o.error? = errorOf? o.result := by
    rcases o with ⟨e | t, findings⟩
    · rfl
    · rfl
  have hbind := Task.run_lift_bind_bind (Session.release here o.error?).run (Adapter.wrapUp o) .done
  rw [← Adapter.finish_parallel hmode, Program.bind_pure, herror] at hbind
  simp only [Program.bind_pure] at hbind
  exact hbind

theorem settle_of_wrapUp {o : Adapter.Outcome τ} {released : Except (Error Double) Unit}
    {kept : Except (Error Double) (Termination Double × Counters)}
    (h : (Adapter.wrapUp o released).run.run handler s = .finished kept s') :
    kept = settle o.result released := by
  rcases o with ⟨ran, findings⟩
  rcases released with e | ⟨⟩
  · cases ran with
    | ok t =>
      obtain ⟨rfl, -⟩ := Program.Ending.finished.inj h
      rfl
    | error e' =>
      have hnote : (Adapter.wrapUp ⟨.error e', findings⟩ (.error e)).run =
          (Task.note (.releaseFailed e)).run.bind fun _ => .done (.error e') := rfl
      rw [hnote, Program.run_bind_eq_finished] at h
      obtain ⟨_, _, -, h⟩ := h
      exact (Program.Ending.finished.inj h).1.symm
  · cases ran with
    | ok t =>
      obtain ⟨rfl, -⟩ := Program.Ending.finished.inj h
      rfl
    | error e' =>
      obtain ⟨rfl, -⟩ := Program.Ending.finished.inj h
      rfl

theorem released_of_finish {o : Adapter.Outcome τ}
    {kept : Except (Error Double) (Termination Double × Counters)}
    (h : (Adapter.finish call.engine call.here o).run.run handler s = .finished kept s') :
    ∃ released s₁, call.Released handler o.result s released s₁ ∧
      kept = settle o.result released := by
  by_cases hmode : call.engine.mode = .parallel
  · rw [run_finish_parallel hmode, Program.run_bind_eq_finished] at h
    obtain ⟨released, s₁, hrelease, h⟩ := h
    exact ⟨released, s₁, .session hmode hrelease, settle_of_wrapUp h⟩
  · refine ⟨.ok (), s, .alone hmode, ?_⟩
    rw [Adapter.finish, if_neg hmode] at h
    rcases o with ⟨e | t, findings⟩
    · obtain ⟨rfl, -⟩ := Program.Ending.finished.inj h
      rfl
    · obtain ⟨rfl, -⟩ := Program.Ending.finished.inj h
      rfl

theorem append_ne (before : History) (solution : Solution) : before ≠ before.append solution := by
  intro heq
  have hcount := congrArg History.count heq
  rw [History.count_append] at hcount
  omega

/-- What the root keeps of a solve. -/
theorem kept_of_run {o : Adapter.Outcome τ}
    {kept : Except (Error Double) (Termination Double × Counters)} {solved : Solved τ}
    (h : (call.adapter.keep problem before call.engine call.here call.elapsed o kept).run handler
      s = .finished solved s') :
    (∀ e, kept = .error e → solved.history = before ∧ solved.result = .error e) ∧
      ∀ t counters, kept = .ok (t, counters) →
        solved.history = before.append
          (.ofTermination call.adapter problem call.engine call.here call.elapsed t counters) ∧
        solved.result = resultOfCode before.count t.code := by
  rcases kept with e | ⟨t, counters⟩
  · obtain ⟨rfl, -⟩ := Program.Ending.finished.inj h
    refine ⟨fun e' heq => ?_, nofun⟩
    obtain rfl := Except.error.inj heq
    exact ⟨rfl, rfl⟩
  · obtain ⟨_, _, -, h⟩ := Program.run_bind_eq_finished.mp h
    obtain ⟨rfl, -⟩ := Program.Ending.finished.inj h
    refine ⟨nofun, fun t' counters' heq => ?_⟩
    obtain ⟨rfl, rfl⟩ := Prod.mk.inj (Except.ok.inj heq)
    exact ⟨rfl, verdict_ofCode _ _⟩

/-- A rank other than the root has no index. -/
theorem assist_ne_some {result : Except (Error Double) (Option Nat)}
    (h : (Adapter.assist problem call.engine call.here).run.run handler s = .finished result s')
    (index : Nat) : result ≠ .ok (some index) := by
  rintro rfl
  rw [Adapter.assist] at h
  by_cases hmode : call.engine.mode = .parallel
  · rw [if_pos hmode, Program.run_except_bind] at h
    split at h
    · rw [Program.run_except_bind] at h
      split at h
      · cases (Program.Ending.finished.inj h).1
      · cases (Program.Ending.finished.inj h).1
      · cases h
    · cases (Program.Ending.finished.inj h).1
    · cases h
  · rw [if_neg hmode] at h
    cases (Program.Ending.finished.inj h).1

/-- Every solve keeps the history. -/
theorem keeps_of_run {solved : Solved τ}
    (h : (call.program problem before).run handler s = .finished solved s') :
    call.Keeps problem handler s before solved.result solved.history s' := by
  refine ⟨⟨solved.findings, h⟩, fun hroot => ?_, fun hother => ?_⟩
  · have hhere : call.here = ⟨rootRank, call.here.size⟩ := by
      rw [← of_decide_eq_true hroot]
    rw [program, hhere, Adapter.solve_root, Program.run_bind_eq_finished] at h
    obtain ⟨_, s₀, -, h⟩ := h
    obtain ⟨o, s₁, hrun, h⟩ := Program.run_bind_eq_finished.mp h
    obtain ⟨kept, s₂, hfinish, h⟩ := Program.run_bind_eq_finished.mp h
    rw [← hhere] at hrun hfinish h
    obtain ⟨released, s₃, hreleased, rfl⟩ := released_of_finish hfinish
    obtain ⟨hfailed, hrecorded⟩ := kept_of_run h
    refine ⟨s₀, o.result, s₁, released, s₃, ran_of_runAtRoot hrun, hreleased, ?_⟩
    have hsettled : ∀ t counters, o.result = .ok (t, counters) → released = .ok () →
        settle o.result released = .ok (t, counters) := by
      rintro t counters hran rfl
      rw [hran, settle_ok]
    have herror : ∀ e, o.result = .error e → settle o.result released = .error e := by
      intro e hran
      rw [hran, settle_failed]
    have hunreleased : ∀ t e, o.result = .ok t → released = .error e →
        settle o.result released = .error e := by
      rintro t e hran rfl
      rw [hran, settle_unreleased]
    refine ⟨⟨?_, ?_⟩,
      fun t counters hran hok => hrecorded t counters (hsettled t counters hran hok),
      fun e hran => hfailed e (herror e hran),
      fun t e hran hreleased => hfailed e (hunreleased t e hran hreleased)⟩
    -- a history that is longer than before is not that of a failure
    · rintro ⟨solution, hsolution⟩
      have hnot : ∀ e, settle o.result released ≠ .error e := fun e heq =>
        append_ne before solution ((hfailed e heq).1.symm.trans hsolution)
      cases hran : o.result with
      | error e => exact absurd (herror e hran) (hnot e)
      | ok t =>
        cases hok : released with
        | error e => exact absurd (hunreleased t e hran hok) (hnot e)
        | ok _ => exact ⟨⟨t.1, t.2, rfl⟩, rfl⟩
    · rintro ⟨⟨t, counters, hran⟩, hok⟩
      exact ⟨_, (hrecorded t counters (hsettled t counters hran hok)).1⟩
  · rw [program, Adapter.solve, if_neg hother, Program.bind_eq, Program.run_bind_eq_finished] at h
    obtain ⟨result, s₁, hassist, h⟩ := h
    obtain ⟨rfl, -⟩ := Program.Ending.finished.inj h
    exact ⟨rfl, assist_ne_some hassist⟩

end SolveCall

/-! ## Any number of solves -/

/-- The history after some solves, each of which keeps it. -/
inductive SolveCall.AllKeep (problem : Problem Double) (handler : RankHandler σ) :
    List (SolveCall τ) → σ → History → List (Except (Error Double) (Option Nat)) → History → σ →
      Prop
  | nil {s : σ} {history : History} : AllKeep problem handler [] s history [] history s
  | cons {call : SolveCall τ} {calls : List (SolveCall τ)} {s s₁ s' : σ}
      {before after last : History} {result : Except (Error Double) (Option Nat)}
      {results : List (Except (Error Double) (Option Nat))}
      (hcall : call.Keeps problem handler s before result after s₁)
      (hrest : AllKeep problem handler calls s₁ after results last s') :
    AllKeep problem handler (call :: calls) s before (result :: results) last s'

/-- No solve takes a solution out of the history, or changes one. -/
theorem SolveCall.Keeps.prefix_solutions {call : SolveCall τ} {problem : Problem Double}
    {handler : RankHandler σ} {s s' : σ} {before after : History}
    {result : Except (Error Double) (Option Nat)}
    (h : call.Keeps problem handler s before result after s') :
    before.solutions <+: after.solutions := by
  have hafter : after = before ∨ ∃ solution, after = before.append solution := by
    by_cases hroot : call.here.isRoot
    · obtain ⟨_, ran, _, released, _, -, -, -, hrecorded, hfailed, hunreleased⟩ := h.root hroot
      cases hran : ran with
      | error e => exact .inl (hfailed e hran).1
      | ok t =>
        cases hreleased : released with
        | error e => exact .inl (hunreleased t e hran hreleased).1
        | ok _ => exact .inr ⟨_, (hrecorded t.1 t.2 hran hreleased).1⟩
    · exact .inl (h.other hroot).1
  rcases hafter with rfl | ⟨solution, rfl⟩
  · exact List.prefix_refl _
  · exact List.prefix_append _ _

namespace Work

variable {handler : RankHandler σ} {s s' : σ} {w w' : Workbench}

/-- The workbench counts the calls of a program, and leaves it as it is. -/
theorem run_interpret_call {p : Program rankAccess α} {a : α}
    (h : ((p.interpret call).run w).run handler s = .finished (a, w') s') :
    p.run handler s = .finished a s' ∧ w' = { w with calls := w'.calls } := by
  -- on the calls: each is counted and passed on as it is
  induction p generalizing w s with
  | done b =>
    obtain ⟨⟨rfl, rfl⟩, rfl⟩ := Program.Ending.finished.inj h
    exact ⟨rfl, rfl⟩
  | call c next ih =>
    have hcall : ((Program.call c next).interpret call).run w =
        Program.call c fun reply =>
          ((next reply).interpret call).run { w with calls := w.calls.add c } := rfl
    rw [hcall, Program.run] at h
    rw [Program.run]
    rcases hreply : handler c s with ⟨_ | reply, s₁⟩
    · rw [hreply] at h
      cases h
    · rw [hreply] at h
      obtain ⟨hrun, hw⟩ := ih reply (w := { w with calls := w.calls.add c }) h
      exact ⟨hrun, hw⟩

theorem run_solveWith {adapter : Adapter τ} {engine : Engine} {memory : Engine.Memory}
    {here : Place} {elapsed : Duration}
    {x : Except (Error Double) (Except (Error Double) (Option Nat) × Option τ)}
    (h : ((solveWith adapter engine memory here elapsed).run.run w).run handler s =
      .finished (x, w') s') :
    ∃ solved, (adapter.solve w.problem w.history engine memory here elapsed).run handler s =
        .finished solved s' ∧
      x = .ok (solved.result, solved.findings) ∧ w'.problem = w.problem ∧
        w'.history = solved.history := by
  let solve := adapter.solve w.problem w.history engine memory here elapsed
  have hsolve : (solveWith adapter engine memory here elapsed).run.run w =
      ((solve.interpret call).run w).bind fun a =>
        .done (.ok (a.1.result, a.1.findings), { a.2 with history := a.1.history }) := by
    show (((solve.interpret call).run w).bind fun a => .done (Except.ok a.1, a.2)).bind _ = _
    rw [Program.bind_assoc]
    rfl
  rw [hsolve, Program.run_bind_eq_finished] at h
  obtain ⟨⟨solved, w₁⟩, s₁, hrun, h⟩ := h
  obtain ⟨⟨rfl, rfl⟩, rfl⟩ := Program.Ending.finished.inj h
  obtain ⟨hsolved, hw⟩ := run_interpret_call hrun
  refine ⟨solved, hsolved, rfl, ?_, rfl⟩
  rw [hw]

/-- The history of a problem over any number of solves: whatever the adapters' runs come to, in any
mode, and whatever the ranks and the network do, every solve keeps the history as it should.  The
solutions that were there stay, and so does the problem. -/
theorem history_law {calls : List (SolveCall τ)}
    {x : Except (Error Double) (List (Except (Error Double) (Option Nat)))}
    (h : ((solveAll calls).run.run w).run handler s = .finished (x, w') s') :
    (∃ results, x = .ok results ∧
      SolveCall.AllKeep w.problem handler calls s w.history results w'.history s') ∧
    w'.problem = w.problem ∧ w.history.solutions <+: w'.history.solutions := by
  -- on the solves: each goes on from the history that the one before it has left
  induction calls generalizing w w' s s' x with
  | nil =>
    obtain ⟨⟨rfl, rfl⟩, rfl⟩ := Program.Ending.finished.inj h
    exact ⟨⟨[], rfl, .nil⟩, rfl, List.prefix_refl _⟩
  | cons call calls ih =>
    obtain ⟨⟨y, w₁⟩, s₁, hcall, h⟩ := Program.run_bind_eq_finished.mp h
    obtain ⟨solved, hsolve, rfl, hproblem, hhistory⟩ := run_solveWith hcall
    obtain ⟨⟨z, w₂⟩, s₂, hrest, h⟩ := Program.run_bind_eq_finished.mp h
    obtain ⟨⟨results, rfl, hkeep⟩, hproblem', hprefix⟩ := ih hrest
    obtain ⟨⟨rfl, rfl⟩, rfl⟩ := Program.Ending.finished.inj h
    have hcall := SolveCall.keeps_of_run hsolve
    rw [← hhistory] at hcall
    rw [hproblem] at hkeep hproblem'
    exact ⟨⟨_, rfl, .cons hcall hkeep⟩, hproblem', hcall.prefix_solutions.trans hprefix⟩

/-- The calls of a rank without a model whose collectives fail. -/
def deaf : RankHandler Unit
  | .model (.note _), s => (some (), s)
  | .model _, s => (none, s)
  | .broadcast _, s => (some (.error (.everyPeerHungUp rootRank)), s)
  | .gather _, s => (some (.error (.everyPeerHungUp rootRank)), s)

/-- A solve whose solver stops at once with this code. -/
def attempt (code : Int) (mode : Mode) (here : Place) : SolveCall (List Finding) :=
  ⟨.probing "idle" [] false ⟨code, [], ⟨0⟩, [], [], 0, []⟩, .new .analytic mode, none, here, ⟨0, 0⟩⟩

/-- Four solves: one that is recorded, one whose handshake fails, one that is recorded as
infeasible, and one of another rank. -/
def attempts : List (SolveCall (List Finding)) :=
  [attempt 0 .sequential .single, attempt 0 .parallel ⟨rootRank, 2⟩, attempt 2 .threads .single,
    attempt 0 .sequential ⟨1, 2⟩]

theorem attempts_history :
    ∃ w', ((solveAll attempts).run.run (.new (.empty "bench"))).run deaf () =
        .finished (.ok [.ok (some 0), .error (.communication (.everyPeerHungUp rootRank)),
          .error (.solverInfeasible 1), .ok none], w') () ∧
      w'.history.count = 2 ∧ w'.problem = .empty "bench" := by
  have hrun : ∃ w', ((solveAll attempts).run.run (.new (.empty "bench"))).run deaf () =
      .finished (.ok [.ok (some 0), .error (.communication (.everyPeerHungUp rootRank)),
        .error (.solverInfeasible 1), .ok none], w') () ∧ w'.history.count = 2 :=
    ⟨_, rfl, rfl⟩
  obtain ⟨w', hrun, hcount⟩ := hrun
  exact ⟨w', hrun, hcount, (history_law hrun).2.1⟩

end Work

end Nlp
