import Nlp.Proofs.Solver.Walk

/-!
# Runs that heed their callbacks

What a solver run does with the replies of its callbacks, whatever the numbers are: it goes on from
values and Jacobians, and ends in failure with the first Jacobian that fails.  As long as every
point has a value for each constraint row, no index falls outside its vector.

## Main definitions

* `Program.Heeds`: the judgment, by recursion on the program.
* `heeding`: the runs that heed their callbacks.

## Main results

* `AugmentedLagrangian.run_heeds`, `ProjectedBfgs.run_heeds`: the solvers heed their callbacks.
-/

namespace Nlp

variable {α ε β γ : Type}

/-- Where the values of every point have this many constraints, the program comes to a result that
is `good`.  Where a Jacobian fails, that is the end, with a result that `fails` as the Jacobian
did. -/
def Program.Heeds (rows : Nat) (fails : ε → β → Prop) (good : β → Prop) :
    Program (callbacks α ε) β → Prop
  | .done r => good r
  | .call (.evaluate _) next =>
    (∀ values : Values α, values.constraints.length = rows →
      (next (.ok values)).Heeds rows fails good) ∧
        ∀ e, (next (.error e)).Heeds rows fails good
  | .call (.jacobian _) next =>
    (∀ matrix, (next (.ok matrix)).Heeds rows fails good) ∧
      ∀ e, ∃ r, next (.error e) = .done r ∧ fails e r
  | .call (.report _) next => (next ()).Heeds rows fails good
  | .call (.outOfRange _ _) _ => False

/-- The program has come to no result, whatever it is answered. -/
def Program.NeverDone {I : Interface} (p : Program I β) : Prop :=
  p.Meets (.anything I) fun _ => False

namespace Program.Heeds

variable {rows : Nat} {fails : ε → β → Prop} {good : β → Prop}

/-- Consequence, with another result made of the result. -/
theorem map {p : Program (callbacks α ε) β} {f : β → γ} {fails' : ε → γ → Prop} {good' : γ → Prop}
    (h : p.Heeds rows fails good) (hfails : ∀ e r, fails e r → fails' e (f r))
    (hgood : ∀ r, good r → good' (f r)) :
    (p.bind fun r => .done (f r)).Heeds rows fails' good' := by
  -- on the callbacks: after a failure the mapped result still reports it
  induction p with
  | done r => exact hgood r h
  | call c next ih =>
    cases c with
    | evaluate x =>
      exact ⟨fun values hvalues => ih _ (h.1 values hvalues), fun e => ih _ (h.2 e)⟩
    | jacobian x =>
      refine ⟨fun matrix => ih _ (h.1 matrix), fun e => ?_⟩
      obtain ⟨r, hr, he⟩ := h.2 e
      exact ⟨f r, congrArg (Program.bind · _) hr, hfails e r he⟩
    | report p => exact ih () h
    | outOfRange index size => exact h

theorem mono {good' : β → Prop} {p : Program (callbacks α ε) β} (h : p.Heeds rows fails good)
    (hgood : ∀ r, good r → good' r) : p.Heeds rows fails good' := by
  have hmap := h.map (f := id) (fun _ _ h => h) hgood
  rwa [show (fun r : β => Program.done (I := callbacks α ε) (id r)) = .done from rfl,
    Program.bind_pure] at hmap

end Program.Heeds

/-! ## Runs -/

/-- The run ends with the error of the Jacobian. -/
def Run.FailsWith (e : ε) (r : Except (Failure α ε) β) : Prop :=
  r = .error (.callback e)

/-- The results of runs that heed their callbacks. -/
def heeding (α ε : Type) (rows : Nat) : Always (Run α ε) where
  holds x post := x.run.Heeds rows Run.FailsWith fun r => ∀ b, r = .ok b → post b
  pure b hb b' heq := Except.ok.inj heq ▸ hb
  bind {β γ post} x f h := by
    rw [ExceptT.run_bind, Program.bind_eq]
    generalize x.run = p at h
    induction p with
    | done r =>
      cases r with
      | ok b => exact h b rfl
      | error e => exact nofun
    | call c next ih =>
      cases c with
      | evaluate x =>
        exact ⟨fun values hvalues => ih _ (h.1 values hvalues), fun e => ih _ (h.2 e)⟩
      | jacobian x =>
        refine ⟨fun matrix => ih _ (h.1 matrix), fun e => ?_⟩
        obtain ⟨r, hr, rfl⟩ := h.2 e
        exact ⟨.error (.callback e), congrArg (Program.bind · _) hr, rfl⟩
      | report p => exact ih () h
      | outOfRange index size => exact h
  mono x himp h := h.mono fun r hr b hb => himp b (hr b hb)

/-- The values that a run heeds have one for each row. -/
theorem heeding_covers {rows : Nat} :
    (heeding α ε rows).Covers (fun _ => True) rows fun values =>
      values.constraints.length = rows where
  evaluate x _ := by
    refine ⟨fun values hvalues => ?_, fun e => ?_⟩
    · rintro _ ⟨⟩
      exact hvalues
    · intro values hvalues
      cases hvalues
  jacobian x _ := ⟨fun _ _ _ => trivial, fun e => ⟨.error (.callback e), rfl, rfl⟩⟩
  report p _ _ := trivial
  refuse e post _ b hb := by cases hb
  astray _ _ _ _ hlength hother := absurd hlength hother

/-! ## Solvers -/

variable [Scalar α]

/-- The solver heeds its callbacks, unless there is no room for the history it asks for; then it
comes to no result. -/
theorem AugmentedLagrangian.run_heeds (config : Config α) (problem : Layout α) :
    (heeding α ε problem.rows.length).holds (run config problem) (fun _ => True) ∨
      (run config problem : Run α ε (Termination α)).run.NeverDone := by
  rcases holds_run heeding_covers config fun _ _ _ _ => trivial with hrun | ⟨index, size, hrun⟩
  · exact .inl ((heeding α ε _).mono _ (fun _ _ => trivial) hrun)
  · rw [hrun]
    exact .inr ⟨trivial, fun reply => reply.elim⟩

/-- The solver heeds its callbacks. -/
theorem ProjectedBfgs.run_heeds {rows : Nat} (config : Config α) (problem : Layout α) :
    (heeding α ε rows).holds (run config problem) fun _ => True :=
  (heeding α ε rows).mono _ (fun _ _ => trivial)
    (holds_run heeding_covers.toAnswers config fun _ _ _ _ => trivial)

end Nlp
