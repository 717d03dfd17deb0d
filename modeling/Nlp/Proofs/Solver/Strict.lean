import Nlp.Proofs.Solver.Walk

/-!
# Runs that do not survive a failure

A solver has no use for a point at which a callback fails: whatever comes after the failure, the run
has no termination.  So a run that ends with one has had an answer to everything it asked for.

## Main definitions

* `CallbackCall.Failed`: the callback has failed.
* `Program.Strict`: the judgment, by recursion on the program.
* `failing`: the runs that do not survive a failure.

## Main results

* `AugmentedLagrangian.run_strict`, `ProjectedBfgs.run_strict`: the solvers do not.
-/

namespace Nlp

variable {α ε β γ : Type}

/-- The callback has failed. -/
def CallbackCall.Failed : (c : CallbackCall α) → (callbacks α ε).Reply c → Prop
  | .evaluate _, reply => ∃ e, reply = .error e
  | .jacobian _, reply => ∃ e, reply = .error e
  | .report _, _ | .outOfRange _ _, _ => False

/-- The program comes to a result that is `good`; where a callback has failed, to one that `fails`,
whatever it is answered from there on. -/
def Program.Strict (fails good : β → Prop) : Program (callbacks α ε) β → Prop
  | .done r => good r
  | .call c next => ∀ reply, (next reply).Strict fails good ∧
      (c.Failed reply → (next reply).Meets (.anything (callbacks α ε)) fails)

@[simp] theorem Program.strict_done {fails good : β → Prop} {r : β} :
    (.done r : Program (callbacks α ε) β).Strict fails good ↔ good r := Iff.rfl

theorem Program.Strict.mono {fails good good' : β → Prop} {p : Program (callbacks α ε) β}
    (h : p.Strict fails good) (hgood : ∀ r, good r → good' r) : p.Strict fails good' := by
  induction p with
  | done r => exact hgood r h
  | call c next ih => exact fun reply => ⟨ih reply (h reply).1, (h reply).2⟩

/-- Consequence, with another result made of the result. -/
theorem Program.Strict.map {fails good : β → Prop} {fails' good' : γ → Prop} {f : β → γ}
    {p : Program (callbacks α ε) β} (h : p.Strict fails good)
    (hfails : ∀ r, fails r → fails' (f r)) (hgood : ∀ r, good r → good' (f r)) :
    (p.bind fun r => .done (f r)).Strict fails' good' := by
  induction p with
  | done r => exact hgood r h
  | call c next ih =>
    intro reply
    obtain ⟨hrest, hfailed⟩ := h reply
    refine ⟨ih reply hrest, fun hreply => ?_⟩
    exact (Program.meets_bind _ _).mpr ((hfailed hreply).mono hfails)

/-! ## Runs -/

/-- The run has come to nothing. -/
def Run.Fails (r : Except (Failure α ε) β) : Prop :=
  ∀ b, r ≠ .ok b

/-- The results of runs that do not survive a failure. -/
def failing (α ε : Type) : Always (Run α ε) where
  holds x post := x.run.Strict Run.Fails fun r => ∀ b, r = .ok b → post b
  pure b hb := Program.strict_done.mpr fun b' heq => Except.ok.inj heq ▸ hb
  bind {β γ post} x f h := by
    rw [ExceptT.run_bind, Program.bind_eq]
    generalize x.run = p at h
    induction p with
    | done r =>
      cases r with
      | ok b => exact h b rfl
      | error e => exact nofun
    | call c next ih =>
      intro reply
      obtain ⟨hrest, hfailed⟩ := h reply
      refine ⟨ih reply hrest, fun hreply => ?_⟩
      -- the rest of the sequence is not reached any more
      refine (Program.meets_bind _ _).mpr ((hfailed hreply).mono fun r hr => ?_)
      cases r with
      | ok b => exact absurd rfl (hr b)
      | error e => exact nofun
  mono x himp h := h.mono fun r hr b hb => himp b (hr b hb)

/-- Whatever the values are, they are ones a run goes on with. -/
theorem failing_covers {good : List α → Prop} {rows : Nat} :
    (failing α ε).Covers good rows fun _ => True where
  evaluate x _ reply := by
    cases reply with
    | ok values => exact ⟨fun _ _ => trivial, nofun⟩
    | error e => exact ⟨nofun, fun _ => nofun⟩
  jacobian x _ reply := by
    cases reply with
    | ok matrix => exact ⟨fun _ _ => trivial, nofun⟩
    | error e => exact ⟨nofun, fun _ => nofun⟩
  report p reply := ⟨fun _ _ => trivial, False.elim⟩
  refuse e post _ b hb := by cases hb
  astray values index size post _ _ reply := reply.elim

/-! ## Solvers -/

variable [Scalar α]

/-- The solver has no termination where a callback has failed. -/
theorem AugmentedLagrangian.run_strict (config : Config α) (problem : Layout α) :
    (failing α ε).holds (run config problem) fun _ => True := by
  have hcovers : (failing α ε).Covers (fun _ => True) problem.rows.length fun _ => True :=
    failing_covers
  rcases holds_run hcovers config fun _ _ _ _ => trivial with hrun | ⟨index, size, hrun⟩
  · exact (failing α ε).mono _ (fun _ _ => trivial) hrun
  · rw [hrun]
    exact fun reply => reply.elim

/-- The solver has no termination where a callback has failed. -/
theorem ProjectedBfgs.run_strict (config : Config α) (problem : Layout α) :
    (failing α ε).holds (run config problem) fun _ => True := by
  have hcovers : (failing α ε).Covers (fun _ => True) 0 fun _ => True := failing_covers
  exact (failing α ε).mono _ (fun _ _ => trivial)
    (holds_run hcovers.toAnswers config fun _ _ _ _ => trivial)

end Nlp
