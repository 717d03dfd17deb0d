import Nlp.Proofs.Solver.Certificate
import Nlp.Proofs.Solver.Walk

/-!
# Lengths that are checked, and one that is not

A solver checks the lengths of the bounds and of the start, and the shape of every Jacobian.  It
does not check how many constraint values it is given.  The solver for bounds does not need to, as
it never looks at them.  The augmented Lagrangian solver relies on one for each row: with these no
index falls outside its vector, and otherwise the run is lost, unless it stops for a value that is
no number before it has read them all.

## Main definitions

* `Answering`: callbacks whose values fit, and whether a run may go astray on them.
* `Run.Ends`: how a run ends on such callbacks, in an error that is `Failure.Checked` or with a
  property of its result.

## Main results

* `AugmentedLagrangian.ends_outerIteration_of_length`: an outer iteration on constraint vectors of a
  wrong length.
* `Layout.runs_end`: the ends of both solvers, by the lengths of the constraint vectors.
-/

namespace Nlp

variable {α ε β : Type}

/-- Values are as `fits` has them, and anything may be asked; an index may fall outside its vector
only if the run may go astray. -/
def Answering (α ε : Type) (fits : Values α → Prop) (astray : Prop) : Contract (callbacks α ε) where
  asks
    | .outOfRange _ _ => astray
    | _ => True
  replies
    | .evaluate _, reply => ∀ values, reply = .ok values → fits values
    | _, _ => True

/-- An error of a callback, or of a solver about something that it checks. -/
def Failure.Checked : Failure α ε → Prop
  | .callback _ => True
  | .solver e => e.Checked

/-- All ends of a run on such callbacks. -/
abbrev ending (α ε : Type) (fits : Values α → Prop) (astray : Prop) : Always (Run α ε) :=
  (Always.program (Answering α ε fits astray)).failing (Failure α ε) Failure.Checked

/-- On values that fit, the run ends with a result that has the property, or in an error that is
checked for; it goes astray only if it may. -/
def Run.Ends (run : Run α ε β) (fits : Values α → Prop) (astray : Prop) (post : β → Prop) : Prop :=
  run.run.Meets (Answering α ε fits astray) fun r =>
    (∀ b, r = .ok b → post b) ∧ ∀ e, r = .error e → e.Checked

variable {fits : Values α → Prop} {astray : Prop}

theorem Run.ends_of_holds {run : Run α ε β} {post : β → Prop}
    (h : (ending α ε fits astray).holds run post) : run.Ends fits astray post := by
  refine Program.Meets.mono (fun r hr => ?_) h
  cases r with
  | ok b =>
    constructor <;> rintro _ ⟨⟩
    exact hr
  | error e =>
    constructor <;> rintro _ ⟨⟩
    exact hr

theorem ending_answers : (ending α ε fits astray).Answers (fun _ => True) fits where
  evaluate x _ := by
    refine ⟨trivial, fun reply hreply => ?_⟩
    cases reply with
    | ok values => exact hreply values rfl
    | error e => exact trivial
  jacobian x _ := by
    refine ⟨trivial, fun reply _ => ?_⟩
    cases reply <;> exact trivial
  report p := ⟨trivial, fun _ _ => trivial⟩
  refuse e post he := he

/-- No run goes astray where there is one value for each row. -/
theorem ending_covers {rows : Nat}
    (hfits : astray ∨ ∀ values, fits values → values.constraints.length = rows) :
    (ending α ε fits astray).Covers (fun _ => True) rows fits where
  toAnswers := ending_answers
  astray values index size post hvalues hlength := by
    refine ⟨?_, fun reply => reply.elim⟩
    rcases hfits with hastray | hfits
    · exact hastray
    · exact absurd (hfits values hvalues) hlength

/-! ## Constraint vectors of a wrong length -/

namespace AugmentedLagrangian

variable [Scalar α] {n m k : Nat} {lower upper : Vector α n}

/-- Constraint vectors of one length. -/
abbrev HasLength (α : Type) (k : Nat) (values : Values α) : Prop :=
  values.constraints.length = k

omit [Scalar α] in
theorem ending_covers_of_length (m : Nat) :
    (ending α ε (HasLength α k) True).Covers (fun _ => True) m (HasLength α k) :=
  ending_covers (.inl trivial)

/-- A merit is found only where there are no more values than rows. -/
theorem ends_value (p : Penalised α m) (x : Vector α n) :
    (cached (ending α ε (HasLength α k) True) (HasLength α k) n).holds (answer p (.value x))
      fun _ => k ≤ m := by
  refine Always.mono _ _ ?_ (holds_value (ending_covers_of_length m) p trivial)
  rintro _ ⟨values, rfl, hle, -⟩
  exact hle

/-- So a minimisation ends only where there are no more values than rows. -/
theorem ends_minimize (p : Penalised α m) (start : Vector α n) (settings : Minimize.Settings α) :
    (cached (ending α ε (HasLength α k) True) (HasLength α k) n).holds
      ((minimize lower upper start settings).interpret (answer p)) fun _ => k ≤ m := by
  have hA := ending_covers_of_length (α := α) (ε := ε) (k := k) m
  have hmeets : (minimize lower upper start settings).Meets
      (Minimize.Merited lower upper (fun _ _ => k ≤ m) fun _ _ => True) fun _ => k ≤ m :=
    (minimize_meets start).mono fun _ hend => hend.value
  refine hmeets.interpret _ fun c _ => ?_
  cases c with
  | value x => exact ends_value p x
  | gradient x => exact holds_gradient hA p trivial
  | report event => exact Always.holds_lift_state _ _ (hA.report event)

omit [Scalar α] in
theorem ends_finish (config : Config α) (code : ReturnCode) (x : Vector α n) (values : Values α)
    (multipliers : Vector α m) (iterations : Nat) (history : Array α) :
    (ending α ε fits True).holds (finish config code x values multipliers iterations history)
      fun t => t.code = code.toInt := by
  rw [finish]
  refine Always.ite _ (fun _ => ?_) fun _ => Always.pure _ _ rfl
  exact Always.seq _ (ending_answers.report _) fun _ => Always.pure _ _ rfl

/-- An outer iteration on constraint vectors of a wrong length ends the run, and comes to a result
only if there are too few values and one of them is no number. -/
theorem ends_outerIteration_of_length (hlength : k ≠ m) (config : Config α)
    (senses : Vector Sense m) (outer : Nat) (s : Outer α n m) :
    (ending α ε (HasLength α k) True).holds (outerIteration config senses lower upper outer s) fun
      | .ended t => k < m ∧ t.code = ReturnCode.diverging.toInt
      | .goesOn _ => False := by
  have hA := ending_covers_of_length (α := α) (ε := ε) (k := k) m
  refine holds_outerIteration_of_parts _ (fun _ => k ≤ m) (fun _ => HasLength α k)
    (hA.jacobian _ trivial) (fun a => hA.shaped a) hA.report Cache.fits_none
    (fun settings _ => ends_minimize _ _ settings) (fun inner _ => holds_valuesAt hA trivial)
    (fun inner values hle _ _ => ?_) (fun inner values hvalues _ index size => ?_)
    fun jacobian inner values constraints hle hvalues _ hrows => ?_
  · refine Always.map _ ?_
    exact Always.mono _ _ (fun t ht => ⟨lt_of_le_of_ne hle hlength, ht⟩)
      (ends_finish _ _ _ _ _ _ _)
  · exact hA.astray values _ _ _ hvalues (hvalues ▸ hlength)
  · -- the values that are looked at are as many as there are rows
    have htake := congrArg List.length (vectorOf?_eq_some.mp hrows)
    rw [Vector.length_toList, List.length_take, hvalues] at htake
    omega

/-- And so does a run. -/
theorem ends_run_of_length {problem : Layout α} (hlength : k ≠ problem.rows.length)
    (config : Config α) :
    (ending α ε (HasLength α k) True).holds (run config problem) fun t =>
      k < problem.rows.length ∧ t.code = ReturnCode.diverging.toInt := by
  have hA : (ending α ε (HasLength α k) True).Answers (fun _ => True) (HasLength α k) :=
    ending_answers
  rw [run]
  split
  · next e he => exact hA.refuse _ _ (Config.checked_of_validate he)
  next hvalid =>
  rw [solve]
  split
  · next e he => exact hA.refuse _ _ (Layout.checked_of_checkedStart he)
  next start hstart =>
  split
  · exact ⟨trivial, fun reply => reply.elim⟩
  -- a valid configuration has a first iteration, which is the last one
  obtain ⟨remaining, hremaining⟩ :=
    Nat.exists_eq_succ_of_ne_zero (Config.valid_of_validate hvalid).limits.1
  rw [hremaining, outerIterations]
  refine Always.chain _ (ends_outerIteration_of_length hlength config _ _ _) fun next hnext => ?_
  cases next with
  | ended t => exact Always.pure _ t hnext
  | goesOn s => exact hnext.elim

end AugmentedLagrangian

/-! ## Both solvers -/

/-- The solver for bounds ends well, whatever the lengths of the constraint vectors; the other
solver does if there is one value for each row, and room for its history.  No error is about the
length of a constraint vector: with a wrong one the run goes astray, or ends for other reasons. -/
theorem Layout.runs_end [Scalar α] (ε : Type) (problem : Layout α) :
    (∀ config, (ProjectedBfgs.run config problem : Run α ε _).Ends (fun _ => True) False
        fun _ => True) ∧
    ∀ config : AugmentedLagrangian.Config α,
      (config.maxOuter ≤ AugmentedLagrangian.historyCapacity →
        (AugmentedLagrangian.run config problem : Run α ε _).Ends
          (fun values => values.constraints.length = problem.rows.length) False fun _ => True) ∧
      (AugmentedLagrangian.run config problem : Run α ε _).Ends (fun _ => True) True
        (fun _ => True) ∧
      ∀ k, k ≠ problem.rows.length →
        (AugmentedLagrangian.run config problem : Run α ε _).Ends
          (fun values => values.constraints.length = k) True
          fun t => k < problem.rows.length ∧ t.code = ReturnCode.diverging.toInt := by
  -- where no history is too long, the run is covered
  have hruns {fits : Values α → Prop} {astray : Prop} {config : AugmentedLagrangian.Config α}
      (hfits : astray ∨ ∀ values, fits values → values.constraints.length = problem.rows.length)
      (hroom : astray ∨ config.maxOuter ≤ AugmentedLagrangian.historyCapacity) :
      (AugmentedLagrangian.run config problem : Run α ε _).Ends fits astray fun _ => True := by
    have hA : (ending α ε fits astray).Covers (fun _ => True) problem.rows.length fits :=
      ending_covers hfits
    rcases AugmentedLagrangian.holds_run_of_confined hA (fun _ _ _ _ => trivial)
      (fun start hstart _ => problem.inBox_confined hstart config.maxStepRatio) with
      hrun | ⟨index, size, hfull, hrun⟩
    · exact Run.ends_of_holds (Always.mono _ _ (fun _ _ => trivial) hrun)
    · rw [hrun]
      exact ⟨hroom.resolve_right (Nat.not_le.mpr hfull), fun reply => reply.elim⟩
  refine ⟨fun config => ?_, fun config => ⟨fun hroom => ?_, ?_, fun k hlength => ?_⟩⟩
  · have hA : (ending α ε (fun _ => True) False).Answers (fun _ => True) fun _ => True :=
      ending_answers
    have hrun : (ending α ε (fun _ => True) False).holds (ProjectedBfgs.run config problem) _ :=
      ProjectedBfgs.holds_run hA config fun _ _ _ _ => trivial
    exact Run.ends_of_holds (Always.mono _ _ (fun _ _ => trivial) hrun)
  · exact hruns (.inr fun _ h => h) (.inr hroom)
  · exact hruns (.inl trivial) (.inl trivial)
  · exact Run.ends_of_holds (AugmentedLagrangian.ends_run_of_length hlength config)

/-! ### A value too many

The number `x` is minimised on `[0, 1]` without any row, on callbacks that have one constraint value
all the same.
-/

section

open AugmentedLagrangian

/-- The objective `x`, and the value `x` of a constraint. -/
noncomputable def surplusCallbacks : PureCallbacks ℝ Empty where
  evaluate x := .ok ⟨x.headD 0, [x.headD 0]⟩
  jacobian _ := .ok ⟨1, 1, .replicate 1 (.replicate 1 1)⟩

/-- The layout has no row. -/
noncomputable def surplusLayout : Layout ℝ :=
  ⟨1, [0], [1], [0], []⟩

theorem run_surplus_minimize (p : Penalised ℝ 0) (settings : Minimize.Settings ℝ) :
    surplusCallbacks.run
      (((minimize #v[0] #v[1] #v[0] settings).interpret (answer p)).run none) = none := by
  -- the first merit is asked for, and has no row for its value
  have hvalue : surplusCallbacks.run ((answer p (.value #v[0])).run none) = none := rfl
  rw [minimize, segment_clampTo]
  exact PureCallbacks.run_bind_of_none hvalue

theorem run_surplus_outerIterations (remaining : Nat) :
    surplusCallbacks.run (outerIterations (n := 1) (m := 0) Config.default #v[] #v[0] #v[1]
      (remaining + 1) 0 (.first Config.default #v[0])) = none := by
  have hjacobian : surplusCallbacks.run
      (Run.shaped (.mk 1 1 (.replicate 1 (.replicate 1 1))) (1 + 0) 1) =
        some (.ok (.replicate 1 (.replicate 1 1))) := by
    rw [Run.shaped, Matrix.shaped?_mk]
    rfl
  refine PureCallbacks.run_bind_of_none ?_
  refine (PureCallbacks.run_bind_of_ok rfl).trans ?_
  refine (PureCallbacks.run_bind_of_ok hjacobian).trans ?_
  exact PureCallbacks.run_bind_of_none (run_surplus_minimize _ _)

/-- The run comes to no result and to no error: it goes astray at the first merit. -/
theorem surplus_astray :
    (Config.default : Config ℝ).validate = .ok () ∧
      (∀ x values, surplusCallbacks.evaluate x = .ok values →
        values.constraints.length ≠ surplusLayout.rows.length) ∧
      surplusCallbacks.run (run Config.default surplusLayout) = none := by
  refine ⟨default_validate, ?_, ?_⟩
  · rintro x _ ⟨⟩
    exact Nat.one_ne_zero
  · rw [run, default_validate]
    dsimp only
    rw [solve, surplusLayout, segment_checkedStart]
    exact run_surplus_outerIterations 49

/-- With a value for each row, and the default settings, no run goes astray; with a value too many,
none comes to a result. -/
theorem Layout.runs_end_default :
    (∀ problem : Layout ℝ, (run Config.default problem : Run ℝ Empty _).Ends
      (fun values => values.constraints.length = problem.rows.length) False fun _ => True) ∧
    (run Config.default surplusLayout : Run ℝ Empty _).Ends
      (fun values => values.constraints.length = 1) True fun _ => False := by
  have hroom : (Config.default : Config ℝ).maxOuter ≤ historyCapacity := by decide
  constructor
  · intro problem
    exact ((Layout.runs_end Empty problem).2 Config.default).1 hroom
  · have h := ((Layout.runs_end Empty surplusLayout).2 Config.default).2.2 1 Nat.one_ne_zero
    refine Program.Meets.mono (fun r hr => ⟨fun t ht => ?_, hr.2⟩) h
    exact absurd (hr.1 t ht).1 (Nat.not_lt_zero 1)

end

end Nlp
