import Nlp.Proofs.Solve.Mirror
import Nlp.Proofs.Derivative.Expense
import Nlp.Proofs.Solve.Modes
import Nlp.Proofs.Solver.Strict

/-!
# Solvers that are watched

What a solver asks its problem for can be counted where it asks, and the count put among the
findings of its run.  Nothing else changes.  The bridge counts on the other side, where an answer
has been found; as a run with a termination has had all its answers, the two counts are the same,
and they say what the answers have cost.

## Main definitions

* `CallbackCount`, `Program.counted`: a program with its callbacks counted.
* `Adapter.watched`: an adapter that finds out, too, what its solver asks for.
* `Bridge.Balanced`: what has been asked for is what has been answered and paid for.

## Main results

* `Adapter.solve_mapFindings`, `Adapter.mapFindings_watched`: to watch a solver changes nothing.
* `Session.spends_answered`: a run with a termination leaves a bridge that is balanced.
-/

namespace Nlp

variable {σ τ υ α β : Type}

/-! ## Counted callbacks -/

/-- What a solver has asked for, whatever it was answered. -/
structure CallbackCount where
  /-- Evaluations. -/
  evaluations : Nat
  /-- Jacobians. -/
  jacobians : Nat
deriving DecidableEq, Repr

namespace CallbackCount

/-- Nothing has been asked for. -/
def none : CallbackCount :=
  ⟨0, 0⟩

/-- One more callback. -/
def add (n : CallbackCount) : CallbackCall α → CallbackCount
  | .evaluate _ => { n with evaluations := n.evaluations + 1 }
  | .jacobian _ => { n with jacobians := n.jacobians + 1 }
  | .report _ | .outOfRange _ _ => n

end CallbackCount

namespace Program

/-- A program with its callbacks counted. -/
def counted : Program (callbacks Double (Error Double)) α → CallbackCount →
    Program (callbacks Double (Error Double)) (α × CallbackCount)
  | .done a, n => .done (a, n)
  | .call c next, n => .call c fun reply => (next reply).counted (n.add c)

theorem counted_forget (p : Program (callbacks Double (Error Double)) α) (n : CallbackCount) :
    (p.counted n).bind (fun a => .done a.1) = p := by
  induction p generalizing n with
  | done a => rfl
  | call c next ih => exact congrArg (Program.call c) (funext fun reply => ih reply _)

theorem Meets.counted {C : Contract (callbacks Double (Error Double))} {good : α → Prop}
    {p : Program (callbacks Double (Error Double)) α} (h : p.Meets C good) (n : CallbackCount) :
    (p.counted n).Meets C fun a => good a.1 := by
  induction p generalizing n with
  | done a => exact h
  | call c next ih => exact ⟨h.1, fun reply hreply => ih reply (h.2 reply hreply) _⟩

end Program

/-! ## Findings -/

/-- The same solve with something else made of its findings. -/
def Solved.map (f : τ → υ) (solved : Solved τ) : Solved υ :=
  ⟨solved.history, solved.result, solved.findings.map f⟩

namespace Adapter

/-- The same solver with something else made of its findings. -/
def mapFindings (f : τ → υ) (adapter : Adapter τ) : Adapter υ where
  name := adapter.name
  options := adapter.options
  run layout := (adapter.run layout).bind fun a => .done (a.1, f a.2)

/-- The same solver, which finds out, too, what it asks for. -/
def watched (adapter : Adapter τ) : Adapter (τ × CallbackCount) where
  name := adapter.name
  options := adapter.options
  run layout := ((adapter.run layout).counted .none).bind fun a => .done (a.1.1, a.1.2, a.2)

variable (f : τ → υ) (adapter : Adapter τ) (problem : Problem Double) (history : History)
  (engine : Engine) (memory : Engine.Memory) (here : Place) (elapsed : Duration)

theorem mapFindings_watched : adapter.watched.mapFindings Prod.fst = adapter := by
  obtain ⟨name, options, run⟩ := adapter
  have hrun : ∀ layout, (((run layout).counted .none).bind fun a =>
      .done (a.1.1, a.1.2, a.2)).bind (fun a => .done (a.1, a.2.1)) = run layout := by
    intro layout
    rw [Program.bind_assoc]
    exact (run layout).counted_forget .none
  simp only [mapFindings, watched, hrun]

/-- The same outcome with something else made of its findings. -/
def Outcome.map (o : Outcome τ) : Outcome υ :=
  ⟨o.result, o.findings.map f⟩

theorem runAtRoot_mapFindings :
    (adapter.mapFindings f).runAtRoot problem engine memory here =
      (adapter.runAtRoot problem engine memory here).bind fun o => .done (o.map f) := by
  rw [runAtRoot_bind, ← Program.bind_pure (runAtRoot (adapter.mapFindings f) _ _ _ _),
    runAtRoot_bind]
  refine congrArg (Program.bind _) (funext fun prepared => ?_)
  cases prepared with
  | error e => rfl
  | ok prepared =>
    simp only [answered, mapFindings]
    rw [Program.interpret_bind, StateT.run_bind, Program.bind_eq, Program.bind_assoc]
    rfl

theorem finish_map (o : Outcome τ) : finish engine here (o.map f) = finish engine here o := by
  obtain ⟨result, findings⟩ := o
  cases result with
  | ok t => rfl
  | error e => rfl

theorem keep_mapFindings (o : Outcome τ)
    (kept : Except (Error Double) (Termination Double × Counters)) :
    (adapter.mapFindings f).keep problem history engine here elapsed (o.map f) kept =
      (adapter.keep problem history engine here elapsed o kept).bind fun solved =>
        .done (solved.map f) := by
  cases kept with
  | ok kept => rfl
  | error e => rfl

/-- A solve takes no notice of its findings. -/
theorem solve_mapFindings :
    (adapter.mapFindings f).solve problem history engine memory here elapsed =
      (adapter.solve problem history engine memory here elapsed).bind
        fun solved => .done (solved.map f) := by
  obtain ⟨rank, size⟩ := here
  by_cases hroot : rank = rootRank
  -- from the run the root takes its result, and keeps the findings as they are
  · subst hroot
    rw [solve_root, solve_root, Program.bind_assoc]
    refine congrArg (Program.bind _) (funext fun _ => ?_)
    rw [runAtRoot_mapFindings, Program.bind_assoc, Program.bind_assoc]
    refine congrArg (Program.bind _) (funext fun o => ?_)
    rw [Program.bind_done, finish_map, Program.bind_assoc]
    exact congrArg (Program.bind _) (funext fun kept => keep_mapFindings f adapter _ _ _ _ _ o kept)
  · rw [solve_other _ _ _ _ _ _ hroot, solve_other _ _ _ _ _ _ hroot, Program.bind_assoc]
    rfl

end Adapter

/-! ## Solvers that do not survive a failure -/

namespace Adapter

/-- The run has come to no termination. -/
def Fails (r : Except (Error Double) (Termination Double) × τ) : Prop :=
  ∀ t, r.1 ≠ .ok t

theorem strict_plain {run : Run Double (Error Double) (Termination Double)}
    (h : (failing Double (Error Double)).holds run fun _ => True) :
    (plain run).Strict Fails fun _ => True := by
  refine h.map (fun r hr t ht => ?_) fun _ _ => trivial
  cases r with
  | ok t' => exact hr t' rfl
  | error e => cases ht

/-- The solvers of this library have no termination where a callback has failed. -/
theorem Bundled.strict {adapter : Adapter Unit} (h : adapter.Bundled) (layout : Layout Double) :
    (adapter.run layout).Strict Fails fun _ => True := by
  cases h with
  | augmentedLagrangian config options =>
    exact strict_plain (AugmentedLagrangian.run_strict config layout)
  | projectedBfgs config options =>
    show Program.Strict Fails _ (if layout.rows = [] then _ else _)
    split
    · exact strict_plain (ProjectedBfgs.run_strict config layout)
    · trivial

end Adapter

/-! ## Balanced bridges -/

/-- What has been asked for is what has been answered, and the answers have cost what is between
these two numbers of model calls. -/
structure Bridge.Balanced (start : Nat) (asked : CallbackCount) (b : Bridge) (n : Nat) :
    Prop where
  evaluations : b.counters.evaluations = asked.evaluations
  jacobians : b.counters.jacobians = asked.jacobians
  spent : n = start + b.counters.evaluations + b.counters.sensitivityEvaluations

theorem Bridge.balanced_new (memory : Engine.Memory) (start : Nat) :
    (Bridge.new memory).Balanced start .none start :=
  ⟨rfl, rfl, rfl⟩

namespace Session

variable {problem : Problem Double} {here : Place} {engine : Engine} {n start : Nat} {b : Bridge}
  {asked : CallbackCount}

theorem Asks.spends {good : α → Prop} {p : Program rankAccess α} (h : Asks problem here good p)
    (n : Nat) : Spends problem here (fun _ a => good a) n p := by
  induction h generalizing n with
  | done h => exact .done h
  | model _ ih => exact .model fun reply => ih reply _
  | request _ ih => exact .request (fun _ => ih _ _) fun _ n' => ih _ n'

/-- Whatever its model and the group answer, the program comes to good results only. -/
theorem Spends.meets {good : Nat → α → Prop} {p : Program rankAccess α}
    (h : Spends problem here good n p) : p.Meets (.anything rankAccess) fun a => ∃ n, good n a := by
  induction h with
  | done h => exact ⟨_, h⟩
  | model _ ih => exact ⟨trivial, fun reply _ => ih reply⟩
  -- what the group spends on columns it does not deliver is not known: any number will do
  | request _ _ hok herror =>
    refine (Program.meets_bind _ _).mpr ((Program.meets_anything _).mono fun result _ => ?_)
    cases result with
    | ok columns => exact hok columns
    | error e => exact herror e 0

/-- Where the engine has nothing to find out about the model, an answer that is no failure keeps the
balance. -/
theorem spends_answer (hprobes : ∀ memory, engine.probes memory = 0) (hb : b.Balanced start asked n)
    (c : CallbackCall Double) :
    Spends problem here (fun n' a => ¬ c.Failed a.1 → a.2.Balanced start (asked.add c) n') n
      ((Bridge.answer problem engine here c).run b) := by
  obtain ⟨hevaluations, hjacobians, hspent⟩ := hb
  -- a callback that fails may have made calls; one that succeeds makes those it adds to a counter
  cases c with
  | evaluate x =>
    rw [Bridge.answer, Bridge.run_evaluate]
    refine .bind (.onRank (Program.Spends.mono (problem.spends_evaluate x) fun n' result hn => ?_))
    refine .done ?_
    cases result with
    | error e => exact fun hfailed => absurd ⟨e, rfl⟩ hfailed
    | ok values =>
      intro _
      refine ⟨congrArg (· + 1) hevaluations, hjacobians, ?_⟩
      rw [hn values rfl, hspent]
      simp only [Bridge.afterEvaluation, Bridge.evaluated]
      omega
  | jacobian x =>
    rw [Bridge.answer, Bridge.run_jacobian]
    have hjacobian := engine.spends_jacobianAt problem x (b.known x) here n b.memory
    refine .bind (Spends.mono ?_ hjacobian)
    rintro n' ⟨result, memory⟩ hn
    refine .done ?_
    cases result with
    | error e => exact fun hfailed => absurd ⟨e, rfl⟩ hfailed
    | ok J =>
      intro _
      refine ⟨hevaluations, congrArg (· + 1) hjacobians, ?_⟩
      rw [(hn J rfl).1, hspent, hprobes]
      simp only [Bridge.afterJacobian, Bridge.differentiated]
      omega
  | report progress =>
    exact .model fun _ => .done fun _ => ⟨hevaluations, hjacobians, hspent⟩
  | outOfRange index size => exact .model fun reply => reply.elim

/-- A run that has not failed has kept the balance. -/
theorem spends_counted (hprobes : ∀ memory, engine.probes memory = 0) {fails good : β → Prop}
    {run : Program (callbacks Double (Error Double)) β} (hrun : run.Strict fails good)
    (hb : b.Balanced start asked n) :
    Spends problem here (fun n' a => ¬ fails a.1.1 → a.2.Balanced start a.1.2 n') n
      (((run.counted asked).interpret (Bridge.answer problem engine here)).run b) := by
  -- on the run: after a failure only its result is known, and that it is one
  induction run generalizing asked b n with
  | done r => exact .done fun _ => hb
  | call c next ih =>
    rw [Program.counted, Bridge.run_interpret_call]
    refine .bind (Spends.mono ?_ (spends_answer hprobes hb c))
    rintro n' ⟨reply, b'⟩ hb'
    obtain ⟨hrest, hfailed⟩ := hrun reply
    by_cases hreply : c.Failed reply
    · have hfails := ((hfailed hreply).counted (asked.add c)).interpret (answering problem here 0)
        fun c _ => answering_answer engine c
      refine Spends.mono ?_ ((hfails b' (Nat.zero_le _)).spends n')
      exact fun _ a ha hnot => absurd ha.1 hnot
    · exact ih reply hrest (hb' hreply)

/-- A run with a termination leaves a bridge that is balanced. -/
theorem spends_answered (hprobes : ∀ memory, engine.probes memory = 0) {adapter : Adapter τ}
    {good : Except (Error Double) (Termination Double) × τ → Prop}
    (hstrict : (adapter.run problem.layout).Strict Adapter.Fails good) (memory : Engine.Memory)
    (n : Nat) :
    Spends problem here (fun n' ran => ¬ Adapter.Fails ran.1 → ran.2.Balanced n ran.1.2.2 n') n
      (adapter.watched.answered problem engine memory here) := by
  rw [Adapter.answered, Adapter.watched]
  dsimp only
  rw [Program.interpret_bind, StateT.run_bind, Program.bind_eq]
  exact .bind (Spends.mono (fun _ _ hb => .done hb)
    (spends_counted hprobes hstrict (Bridge.balanced_new memory n)))

end Session

end Nlp
