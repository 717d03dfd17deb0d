import Nlp.Proofs.Likeness
import Nlp.Solver.AugmentedLagrangian
import Nlp.Solver.ProjectedBfgs

/-!
# Verbosity

The print level of a solver decides on reports only.  Without its reports a solver is the same
program at every level, so its runs ask the same of their callbacks and end alike, whatever the
callbacks answer, and also where they fail or where the run comes to nothing.

## Main definitions

* `MeritCall.reported`, `CallbackCall.reported`: the calls that are reports, with their reply.
* `StatefulCallbacks`: callbacks whose answers may depend on the calls made so far.

## Main results

* `minimize_alike`: a minimisation says more or less, and does the same.
* `AugmentedLagrangian.solve_alike`, `ProjectedBfgs.solve_alike`: so does a solver.
* `Layout.runs_at_any_level`: runs at two levels cannot be told apart by their callbacks.
-/

namespace Nlp

variable {α ε σ β γ : Type} {n m : Nat}

/-! ## Reports -/

/-- A report has one reply; what is replied to other calls is not known. -/
def MeritCall.reported : (c : MeritCall α n) → Option ((merit α n).Reply c)
  | .report _ => some ()
  | _ => none

/-- A report has one reply; what is replied to other calls is not known. -/
def CallbackCall.reported : (c : CallbackCall α) → Option ((callbacks α ε).Reply c)
  | .report _ => some ()
  | _ => none

/-- Minimisations that are the same but for their reports. -/
def Merit.alike : Likeness (Program (merit α n)) :=
  .program MeritCall.reported

theorem Merit.report_alike (p : Progress α) : (alike (n := n)).rel (report p) (pure ()) :=
  rfl

/-- Runs that are the same but for their reports. -/
def Run.alike : Likeness (Run α ε) :=
  (Likeness.program CallbackCall.reported).except (Failure α ε)

theorem Run.report_alike (p : Progress α) : (alike (ε := ε)).rel (report p) (pure ()) :=
  rfl

/-- What would come after a refusal does not count. -/
theorem Run.refuse_bind_alike (e : SolverError α) (f g : β → Run α ε γ) :
    alike.rel (refuse e >>= f) (refuse e >>= g) :=
  rfl

/-! ## Minimisation -/

section

open Minimize Merit

variable [Scalar α] (lower upper : Vector α n) (settings : Settings α) (verbose : Bool)

theorem iterateOnce_alike (iteration : Nat) (s : Iterate α n) :
    alike.rel (iterateOnce lower upper { settings with verbose } iteration s)
      (iterateOnce lower upper settings iteration s) := by
  unfold iterateOnce
  refine alike.ite (fun _ => alike.refl _) fun _ => ?_
  refine alike.ite (fun _ => alike.refl _) fun _ => ?_
  refine alike.bind (alike.refl _) fun trial => ?_
  cases trial with
  | none => exact alike.refl _
  | some trial =>
    refine alike.bind (alike.refl _) fun gradient => ?_
    -- with its report or without, the step is followed by the same
    have hreport := report_alike (n := n) (.innerStep iteration trial.value
      (infNorm (mask (active lower upper s.point s.gradient) s.gradient)) trial.length)
    exact alike.either_either (alike.skip hreport _) (alike.refl _) (alike.skip hreport _)
      (alike.refl _) (alike.refl _)

theorem iterate_alike (remaining iteration : Nat) (norm : Option α) (s : Iterate α n) :
    alike.rel (iterate lower upper { settings with verbose } remaining iteration norm s)
      (iterate lower upper settings remaining iteration norm s) := by
  induction remaining generalizing iteration norm s with
  | zero => exact alike.refl _
  | succ remaining ih =>
    refine alike.bind (iterateOnce_alike lower upper settings verbose iteration s) fun next => ?_
    cases next with
    | ended outcome => exact alike.refl _
    | goesOn norm next => exact ih (iteration + 1) (some norm) next

theorem minimize_alike (start : Vector α n) (most : Nat) (tolerance ratio : α) (level : Bool) :
    alike.rel (minimize lower upper start ⟨most, tolerance, ratio, verbose⟩)
      (minimize lower upper start ⟨most, tolerance, ratio, level⟩) := by
  refine alike.bind (alike.refl _) fun value => alike.ite (fun _ => ?_) fun _ => alike.refl _
  refine alike.bind (alike.refl _) fun gradient => ?_
  exact iterate_alike lower upper ⟨most, tolerance, ratio, level⟩ verbose _ _ _ _

end

/-! ## The augmented Lagrangian solver -/

namespace AugmentedLagrangian

open Run

variable (config : Config α) (level : Nat)

theorem answer_alike [Scalar α] (p : Penalised α m) (c : MeritCall α n)
    (reply : (merit α n).Reply c) (h : c.reported = some reply) :
    ((alike (ε := ε)).state (Cache α n)).rel (answer p c) (pure reply) := by
  cases c with
  | value x => cases h
  | gradient x => cases h
  | report event =>
    obtain rfl := Option.some.inj h
    exact Likeness.lift (report_alike event)

theorem finish_alike (code : ReturnCode) (x : Vector α n) (values : Values α)
    (multipliers : Vector α m) (iterations : Nat) (history : Array α) :
    (alike (ε := ε)).rel
      (finish { config with printLevel := level } code x values multipliers iterations history)
      (finish config code x values multipliers iterations history) := by
  have hreport := report_alike (ε := ε) (.finished .augmentedLagrangian code iterations
    values.objective)
  exact alike.either_either (alike.skip hreport _) (alike.refl _) (alike.skip hreport _)
    (alike.refl _) (alike.refl _)

theorem ended_alike (code : ReturnCode) (x : Vector α n) (values : Values α)
    (multipliers : Vector α m) (iterations : Nat) (history : Array α) :
    (alike (ε := ε)).rel (Next.ended (n := n) (m := m) <$>
        finish { config with printLevel := level } code x values multipliers iterations history)
      (.ended <$> finish config code x values multipliers iterations history) := by
  rw [map_eq_pure_bind, map_eq_pure_bind]
  exact alike.bind (finish_alike config level _ _ _ _ _ _) fun _ => alike.refl _

variable [Scalar α]

theorem conclude_alike (penalised : Penalised α m) (outer : Nat) (s : Outer α n m) (size : α)
    (inner : Minimize.Outcome α n) (values : Values α) (constraints : Vector α m) :
    (alike (ε := ε)).rel
      (conclude { config with printLevel := level } penalised outer s size inner values constraints)
      (conclude config penalised outer s size inner values constraints) := by
  unfold conclude
  refine alike.ite (fun _ => ended_alike _ _ _ _ _ _ _ _) fun _ => ?_
  refine alike.ite (fun _ => ended_alike _ _ _ _ _ _ _ _) fun _ => ?_
  exact alike.ite (fun _ => ended_alike _ _ _ _ _ _ _ _) fun _ => alike.refl _

variable (senses : Vector Sense m) (lower upper : Vector α n)

theorem outerIteration_alike (outer : Nat) (s : Outer α n m) :
    (alike (ε := ε)).rel
      (outerIteration { config with printLevel := level } senses lower upper outer s)
      (outerIteration config senses lower upper outer s) := by
  unfold outerIteration
  refine alike.bind (alike.refl _) fun matrix => alike.bind (alike.refl _) fun jacobian => ?_
  refine alike.bind ?_ fun (inner, cache) => alike.bind (alike.refl _) fun (values, _) => ?_
  · exact Likeness.interpret (answer_alike _) (minimize_alike ..) none
  refine alike.ite (fun _ => ?_) fun _ => ?_
  · exact alike.bind (alike.refl _) fun _ => ended_alike _ _ _ _ _ _ _ _
  cases vectorOf? m (values.constraints.take m) with
  | none => exact alike.refl _
  | some constraints =>
    -- the long report and the short one are followed by the same
    have hreport (p : Progress α) := report_alike (ε := ε) p
    exact alike.either_either (alike.skip (hreport _) _) (alike.skip (hreport _) _)
      (alike.skip (hreport _) _) (alike.skip (hreport _) _)
      (conclude_alike config level _ _ _ _ _ _ _)

theorem exhausted_alike (outer : Nat) (s : Outer α n m) :
    (alike (ε := ε)).rel (exhausted { config with printLevel := level } outer s)
      (exhausted config outer s) := by
  unfold exhausted
  cases s.last with
  | none => exact alike.bind (alike.refl _) fun values => finish_alike _ _ _ _ _ _ _ _
  | some found => exact finish_alike _ _ _ _ _ _ _ _

theorem outerIterations_alike (remaining outer : Nat) (s : Outer α n m) :
    (alike (ε := ε)).rel
      (outerIterations { config with printLevel := level } senses lower upper remaining outer s)
      (outerIterations config senses lower upper remaining outer s) := by
  induction remaining generalizing outer s with
  | zero => exact exhausted_alike config level outer s
  | succ remaining ih =>
    refine alike.bind (outerIteration_alike config level senses lower upper outer s) fun next => ?_
    cases next with
    | ended t => exact alike.refl _
    | goesOn s => exact ih (outer + 1) s

theorem solve_alike (problem : Layout α) :
    (alike (ε := ε)).rel (solve { config with printLevel := level } problem)
      (solve config problem) := by
  unfold solve
  cases problem.checkedStart with
  | error e => exact alike.refl _
  | ok start =>
    refine alike.ite (fun _ => alike.refl _) fun _ => ?_
    exact outerIterations_alike config level _ _ _ _ _ _

end AugmentedLagrangian

/-! ## The projected BFGS solver -/

namespace ProjectedBfgs

open Run

theorem answer_alike (c : MeritCall α n) (reply : (merit α n).Reply c)
    (h : c.reported = some reply) : (alike (ε := ε)).rel (answer c) (pure reply) := by
  cases c with
  | value x => cases h
  | gradient x => cases h
  | report event =>
    obtain rfl := Option.some.inj h
    exact report_alike event

theorem solve_alike [Scalar α] (config : Config α) (level : Nat) (problem : Layout α) :
    (alike (ε := ε)).rel (solve { config with printLevel := level } problem)
      (solve config problem) := by
  unfold solve
  refine alike.ite (fun _ => refuse_bind_alike _ _ _) fun _ => ?_
  cases problem.checkedStart with
  | error e => exact alike.refl _
  | ok start =>
    refine alike.bind (alike.refl _) fun matrix => alike.bind (alike.refl _) fun initial => ?_
    refine alike.bind ?_ fun outcome => alike.bind (alike.refl _) fun values => ?_
    · exact Likeness.interpret answer_alike (minimize_alike ..)
    have hreport (p : Progress α) := report_alike (ε := ε) p
    exact alike.either_either (alike.skip (hreport _) _) (alike.refl _) (alike.skip (hreport _) _)
      (alike.refl _) (alike.refl _)

end ProjectedBfgs

/-! ## Runs -/

/-- Callbacks with a state, so that an answer may depend on all calls made before. -/
structure StatefulCallbacks (α ε σ : Type) where
  /-- Objective and constraints at a point, and the state afterwards. -/
  evaluate : List α → σ → Except ε (Values α) × σ
  /-- The Jacobian at a point, and the state afterwards. -/
  jacobian : List α → σ → Except ε (Matrix α) × σ

namespace StatefulCallbacks

variable (C : StatefulCallbacks α ε σ)

/-- The answers to the calls of a run.  A report is not for the callbacks. -/
def answer : (c : CallbackCall α) → σ → Option ((callbacks α ε).Reply c) × σ
  | .evaluate x, s => (some (C.evaluate x s).1, (C.evaluate x s).2)
  | .jacobian x, s => (some (C.jacobian x s).1, (C.jacobian x s).2)
  | .report _, s => (some (), s)
  | .outOfRange _ _, s => (none, s)

/-- The calls of a run other than reports, in order. -/
def asked (x : Run α ε β) (s : σ) : List (CallbackCall α) :=
  (x.run.calls C.answer s).filter fun c => (c.reported (ε := ε)).isNone

/-- Two runs make the same calls, and end alike and in the same state. -/
structure Indistinct (x y : Run α ε β) (s : σ) : Prop where
  asked_eq : C.asked x s = C.asked y s
  run_eq : x.run.run C.answer s = y.run.run C.answer s

variable {C}

theorem answer_of_reported (c : CallbackCall α) (reply : (callbacks α ε).Reply c)
    (h : c.reported = some reply) (s : σ) : C.answer c s = (some reply, s) := by
  cases c with
  | report p =>
    obtain rfl := Option.some.inj h
    rfl
  | evaluate x => cases h
  | jacobian x => cases h
  | outOfRange index size => cases h

theorem Indistinct.of_alike {x y : Run α ε β} (h : Run.alike.rel x y) (s : σ) :
    C.Indistinct x y s := by
  have habsorb : x.run.absorb CallbackCall.reported = y.run.absorb CallbackCall.reported := h
  have hcalls (x : Run α ε β) :
      (x.run.absorb CallbackCall.reported).calls C.answer s = C.asked x s :=
    Program.calls_absorb answer_of_reported x.run s
  have hrun (x : Run α ε β) :
      (x.run.absorb CallbackCall.reported).run C.answer s = x.run.run C.answer s :=
    Program.run_absorb answer_of_reported x.run s
  constructor
  · rw [← hcalls, ← hcalls, habsorb]
  · rw [← hrun, ← hrun, habsorb]

end StatefulCallbacks

/-- At any print level a solver asks the same of its callbacks and ends alike. -/
theorem Layout.runs_at_any_level [Scalar α] (problem : Layout α) (C : StatefulCallbacks α ε σ)
    (s : σ) (level : Nat) :
    (∀ config : AugmentedLagrangian.Config α,
      C.Indistinct (AugmentedLagrangian.solve { config with printLevel := level } problem)
        (AugmentedLagrangian.solve config problem) s) ∧
    ∀ config : ProjectedBfgs.Config α,
      C.Indistinct (ProjectedBfgs.solve { config with printLevel := level } problem)
        (ProjectedBfgs.solve config problem) s := by
  constructor
  · intro config
    exact .of_alike (AugmentedLagrangian.solve_alike config level problem) s
  · intro config
    exact .of_alike (ProjectedBfgs.solve_alike config level problem) s

end Nlp
