import Nlp.Proofs.Derivative.Modes
import Nlp.Proofs.Solve.Asking
import Nlp.Proofs.Solver.Heeding

/-!
# Solver runs in all modes

A solver run that heeds its callbacks is answered the same by a root with a group as by one on its
own: evaluations are the root's own, and Jacobians come out the same.  Where a Jacobian fails, the
failures of the group are not those of the root, but the run is at its end.

## Main definitions

* `Session.Asked`: how often a run has asked for a Jacobian.
* `Session.RunsAlike`: two runs come to the same, or both to failures.

## Main results

* `Session.mirrors_interpret`: a run in a group mirrors the run of the root by itself.
* `Bridge.same_interpret`: a run in threads mode is the same as in sequential mode.
-/

namespace Nlp

variable {α β : Type} {m : Model Double} {size : Nat}

namespace Bridge

variable {problem : Problem Double} {e e' : Engine} {here here' : Place} {b : Bridge}

/-! ## The answers of a bridge, as programs -/

/-- The reply to an evaluation, and the bridge after it. -/
def afterEvaluation (problem : Problem Double) (x : List Double) (b : Bridge) :
    Except (Error Double) (Evaluation Double) → Except (Error Double) (Values Double) × Bridge
  | .error e => (.error e, b)
  | .ok e => (.ok (shifted problem e), b.evaluated x e)

/-- The reply to a request for a Jacobian, and the bridge after it. -/
def afterJacobian (b : Bridge) :
    Except (Error Double) (Jacobian Double) × Engine.Memory →
      Except (Error Double) (Matrix Double) × Bridge
  | (.error e, memory) => (.error e, { b with memory })
  | (.ok J, memory) => (.ok J.matrix, { b with memory }.differentiated J.evaluations)

theorem run_ofModel (p : Program (modelAccess Double) β) :
    (Answer.ofModel p).run b = p.onRank.bind fun a => .done (a, b) :=
  rfl

theorem run_evaluate (x : List Double) :
    (evaluate problem x).run b =
      (problem.evaluate x).run.onRank.bind fun result =>
        .done (afterEvaluation problem x b result) := by
  rw [evaluate, StateT.run_bind, run_ofModel, Program.bind_eq, Program.bind_assoc]
  refine congrArg (Program.bind _) (funext fun result => ?_)
  cases result with
  | error e => rfl
  | ok values => rfl

theorem run_jacobian (x : List Double) :
    (jacobian problem e here x).run b =
      ((e.jacobianAt problem x (b.known x) here).run.run b.memory).bind fun a =>
        .done (b.afterJacobian a) := by
  rw [jacobian, StateT.run_bind, StateT.run_get, pure_bind]
  dsimp only
  rw [StateT.run_bind, StateT.run_lift, Program.bind_eq, Program.bind_eq, Program.bind_assoc]
  refine congrArg (Program.bind _) (funext fun a => ?_)
  rcases a with ⟨_ | J, memory⟩
  · rfl
  · rfl

/-- A run goes on from the reply to its first call, and from the bridge after it. -/
theorem run_interpret_call (answer : (c : CallbackCall Double) →
      Answer ((callbacks Double (Error Double)).Reply c)) (c : CallbackCall Double)
    (next : (callbacks Double (Error Double)).Reply c →
      Program (callbacks Double (Error Double)) β) :
    ((Program.call (I := callbacks Double (Error Double)) c next).interpret answer).run b =
      ((answer c).run b).bind fun a => ((next a.1).interpret answer).run a.2 :=
  rfl

/-! ## Sequential and threads mode -/

/-- Without a group it does not matter where the Jacobians of a run are evaluated. -/
theorem same_interpret (hmode : e.mode ≠ .parallel) (hmode' : e'.mode ≠ .parallel)
    (hmethod : e'.method = e.method) (hfallback : e'.fallback = e.fallback)
    (run : Program (callbacks Double (Error Double)) β) (b : Bridge) :
    m.Same ((run.interpret (answer problem e here)).run b)
      ((run.interpret (answer problem e' here')).run b) := by
  -- on the callbacks: only a Jacobian could tell one mode from the other
  induction run generalizing b with
  | done r =>
    rw [Program.interpret_done, Program.interpret_done]
    exact .refl _
  | call c next ih =>
    rw [run_interpret_call, run_interpret_call]
    refine .bind ?_ fun a => ih a.1 a.2
    cases c with
    | evaluate x => exact .refl _
    | jacobian x =>
      rw [answer, answer, run_jacobian, run_jacobian]
      exact .bind (Engine.same_jacobianAt hmode hmode' hmethod hfallback) fun a => .refl _
    | report progress => exact .refl _
    | outOfRange index size => exact .refl _

end Bridge

/-! ## A run by itself -/

/-- What a rank comes to by itself is one of the results of its program. -/
theorem Program.Meets.of_gives {p : Program rankAccess α} {good : α → Prop} {a : α}
    (h : p.Meets (.anything rankAccess) good) (ha : m.Gives p.alone a) : good a := by
  induction p with
  | done b => exact Model.gives_done.mp ha ▸ h
  | call c next ih =>
    obtain ⟨reply, -, ha⟩ := Model.gives_bind.mp ha
    exact ih reply (h.2 reply trivial) ha

/-- Without a group a run that heeds its callbacks comes to its end. -/
theorem Bridge.exists_gives_interpret {problem : Problem Double} {e : Engine} {here : Place}
    (hmode : e.mode ≠ .parallel) {fails : Error Double → β → Prop} {good : β → Prop}
    {run : Program (callbacks Double (Error Double)) β}
    (hrun : run.Heeds problem.constraints.length fails good) (b : Bridge) :
    ∃ a, m.Gives ((run.interpret (answer problem e here)).run b).alone a := by
  -- on the run: every call has an answer, from which the rest of the run comes to its end
  induction run generalizing b with
  | done r => exact ⟨(r, b), Model.gives_done.mpr rfl⟩
  | call c next ih =>
    rw [run_interpret_call]
    suffices h : ∃ a, m.Gives ((answer problem e here c).run b).alone a ∧
        ∃ a', m.Gives (((next a.1).interpret (answer problem e here)).run a.2).alone a' by
      obtain ⟨a, ha, a', ha'⟩ := h
      exact ⟨a', Model.gives_alone_bind.mpr ⟨a, ha, ha'⟩⟩
    cases c with
    | evaluate x =>
      rw [answer, run_evaluate]
      obtain ⟨result, hresult, -⟩ := (problem.ranging_evaluate x).exists_gives m
      refine ⟨_, Model.gives_onRank_bind.mpr ⟨result, hresult, Model.gives_done.mpr rfl⟩, ?_⟩
      cases result with
      | error e => exact ih _ (hrun.2 e) _
      | ok values =>
        refine ih _ (hrun.1 _ ?_) _
        simp [shifted, Session.length_of_gives_evaluate hresult]
    | jacobian x =>
      rw [answer, run_jacobian]
      obtain ⟨l, hl, hmeets⟩ :=
        (Engine.isLocal_jacobianAt hmode :
          (e.jacobianAt problem x (b.known x) here).IsLocal) b.memory
      obtain ⟨own, hown, -⟩ := hmeets.exists_gives m
      rw [hl]
      refine ⟨_, Model.gives_onRank_bind.mpr ⟨own, hown, Model.gives_done.mpr rfl⟩, ?_⟩
      rcases own with ⟨error | J, memory⟩
      · obtain ⟨r, hr, -⟩ := hrun.2 error
        refine ⟨(r, { b with memory }), ?_⟩
        simp only [afterJacobian, hr, Program.interpret_done]
        exact Model.gives_done.mpr rfl
      · exact ih _ (hrun.1 J.matrix) _
    | report progress => exact ⟨((), b), rfl, ih _ hrun _⟩
    | outOfRange index size => exact hrun.elim

/-! ## Parallel mode -/

namespace Session

variable {problems : Rank → Problem Double} {e e' : Engine} {here : Place}

/-- The values a bridge remembers are as many as the problem has constraints. -/
def Remembers (problem : Problem Double) (b : Bridge) : Prop :=
  ∀ point values, b.last = some (point, values) →
    values.constraints.length = problem.constraints.length

theorem Remembers.known {problem : Problem Double} {b : Bridge} (h : Remembers problem b)
    {x : List Double} {values : Evaluation Double} (hknown : b.known x = some values) :
    values.constraints.length = problem.constraints.length := by
  unfold Bridge.known at hknown
  split at hknown
  · next point found hlast =>
    split at hknown
    · obtain rfl := Option.some.inj hknown
      exact h point found hlast
    · nomatch hknown
  · nomatch hknown

/-- Whatever its model and the group answer, the program comes to good results only. -/
theorem Asks.meets {problem : Problem Double} {good : α → Prop} {p : Program rankAccess α}
    (h : Asks problem here good p) : p.Meets (.anything rankAccess) good := by
  induction h with
  | done h => exact h
  | model _ ih => exact ⟨trivial, fun reply _ => ih reply⟩
  | request _ ih =>
    exact (Program.meets_bind _ _).mpr ((Program.meets_anything _).mono fun result _ => ih result)

/-- How often a run has asked for a Jacobian since the bridge was as `b`, at most. -/
def Asked (b : Bridge) (a : β × Bridge) : Nat :=
  a.2.counters.jacobians - b.counters.jacobians + 1

/-- Two runs come to the same, or both to failures, the second one to an error that has a
message. -/
def RunsAlike (fails : Error Double → β → Prop) (a a' : β × Bridge) : Prop :=
  a' = a ∨ ∃ e e', fails e a.1 ∧ fails e' a'.1 ∧ Tellable e'

/-- A result that is there without a question. -/
theorem mirrors_done {fails : Error Double → β → Prop} {b : Bridge} {a a' : β × Bridge}
    (h : RunsAlike fails a a') :
    Mirrors m size problems (Asked b) (RunsAlike fails) (.done a) (.done a') :=
  (Mirrors.done h).mono (fun _ _ => Nat.zero_le _) fun _ _ _ h => h

/-- Runs that end with the failures they are told are alike. -/
theorem mirrors_failed {fails : Error Double → β → Prop}
    {next : Except (Error Double) (Matrix Double) → Program (callbacks Double (Error Double)) β}
    (hnext : ∀ e, ∃ r, next (.error e) = .done r ∧ fails e r)
    {answer answer' : (c : CallbackCall Double) →
      Bridge.Answer ((callbacks Double (Error Double)).Reply c)} {b : Bridge} {e e' : Error Double}
    (htold : e' = e ∨ Tellable e') :
    Mirrors m size problems (fun _ => 0) (RunsAlike fails)
      (((next (.error e)).interpret answer).run b)
      (((next (.error e')).interpret answer').run b) := by
  obtain ⟨r, hr, hfails⟩ := hnext e
  obtain ⟨r', hr', hfails'⟩ := hnext e'
  rw [hr, hr', Program.interpret_done, Program.interpret_done]
  refine Mirrors.done ?_
  rcases htold with rfl | htellable
  · obtain rfl := Program.done.inj (hr.symm.trans hr')
    exact .inl rfl
  · exact .inr ⟨e, e', hfails, hfails', htellable⟩

/-- A run that heeds its callbacks comes to the same in a group as by itself, or to a failure in
both cases; it takes no more rounds than it asks for Jacobians. -/
theorem mirrors_interpret {rows : Nat} {fails : Error Double → β → Prop} {good : β → Prop}
    {run : Program (callbacks Double (Error Double)) β} (hrun : run.Heeds rows fails good)
    (hrows : rows = (problems rootRank).constraints.length)
    (hsend : Sendable m size (problems rootRank))
    (hcounts : ∀ r < size, (problems rootRank).SameCounts (problems r))
    (hmode : e.mode ≠ .parallel) (hmode' : e'.mode = .parallel) (hmethod : e'.method = e.method)
    (hfallback : e'.fallback = e.fallback) {b : Bridge} (hb : Remembers (problems rootRank) b) :
    Mirrors m size problems (Asked b) (RunsAlike fails)
      ((run.interpret (Bridge.answer (problems rootRank) e here)).run b)
      ((run.interpret (Bridge.answer (problems rootRank) e' ⟨rootRank, size⟩)).run b) := by
  have hroot := hsend.root
  -- on the run: its next call is answered the same, or it ends with that call
  induction run generalizing b with
  | done r =>
    rw [Program.interpret_done, Program.interpret_done]
    exact mirrors_done (.inl rfl)
  | call c next ih =>
    rw [Bridge.run_interpret_call, Bridge.run_interpret_call]
    cases c with
    | evaluate x =>
      rw [Bridge.answer, Bridge.answer, Bridge.run_evaluate, Program.bind_assoc, Program.bind_assoc]
      refine .onRank_bind hroot _ fun result hresult => ?_
      cases result with
      | error e => exact ih _ (hrun.2 e) hb
      | ok values =>
        have hlength := length_of_gives_evaluate hresult
        refine ih _ (hrun.1 _ ?_) ?_
        · simp [Bridge.shifted, hlength, hrows]
        · rintro _ _ ⟨⟩
          exact hlength
    | jacobian x =>
      rw [Bridge.answer, Bridge.answer, Bridge.run_jacobian, Bridge.run_jacobian,
        Program.bind_assoc, Program.bind_assoc]
      refine Mirrors.bind (fun a r => match a.1 with
        | .ok _ => Asked (b.afterJacobian a).2 r
        | .error _ => 0)
        (told_jacobianAt hsend hcounts hmode hmode' hmethod hfallback fun _ => hb.known) ?_ ?_
      · rintro ⟨own, memory⟩ ⟨own', memory'⟩ - ⟨⟨hsame, hmemory⟩, htold⟩
        obtain rfl : memory' = memory := hmemory
        cases own with
        | ok J =>
          obtain rfl : own' = .ok J := (hsame J).mpr rfl
          exact ih _ (hrun.1 J.matrix) fun point values hlast => hb point values hlast
        | error e =>
          cases own' with
          | ok J => nomatch (hsame J).mp rfl
          | error e' =>
            exact mirrors_failed hrun.2
              ((htold e' rfl).imp_left fun heq => (Except.error.inj heq).symm)
      -- one round for this Jacobian, and one for each that the rest of the run asks for
      · rintro ⟨e | J, memory⟩ r - hr
        · exact Nat.le_add_left _ _
        · have hle := (asks_interpret e (next (.ok J.matrix)) _).meets.of_gives hr
          simp only [Asked, Bridge.afterJacobian, Bridge.differentiated] at hle ⊢
          omega
    | report progress =>
      rw [Bridge.answer, Bridge.answer, Bridge.run_ofModel, Program.bind_assoc, Program.bind_assoc]
      exact .onRank_bind hroot _ fun _ _ => ih _ hrun hb
    | outOfRange index size => exact hrun.elim

end Session

end Nlp
