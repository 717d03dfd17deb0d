import Nlp.Proofs.Solver.Certificate
import Nlp.Proofs.Solver.Descent
import Nlp.Proofs.Solver.Record

/-!
# What the record of a run says

The record that a run ends with fits together, whichever of its ends the run has come to: the values
are those at the point, the history ends with the objective, there is a multiplier for each row, and
only a run that diverges reports what is no number.  That takes callbacks that are pure, and that do
not tell the two zeros apart, as the memory of the augmented Lagrangian solver does not either.

The history of the augmented Lagrangian solver has one entry for each outer iteration.  That of the
solver for bounds has one more, for the start.  That takes nothing from the callbacks.

## Main definitions

* `PureCallbacks.Numeric`: values that depend on the numbers of a point only.

## Main results

* `Layout.records_consistent`: consistent records.
* `Layout.histories_logged`: the entries of the history.
-/

namespace Nlp

variable {α ε : Type} {C : Contract (callbacks α ε)}

/-! ## Consistent records -/

/-- Numerically equal points have the same values, in particular points with zeros of either
sign. -/
def PureCallbacks.Numeric [Scalar α] (P : PureCallbacks α ε) : Prop :=
  ∀ x y, samePoint x y = true → P.evaluate x = P.evaluate y

theorem PureCallbacks.Numeric.evaluate_of_valuesAt [Scalar α] {P : PureCallbacks α ε}
    (hnumeric : P.Numeric) {x : List α} {values : Values α} (h : P.contract.ValuesAt x values) :
    P.evaluate x = .ok values := by
  obtain ⟨y, hy, hreply⟩ := h
  have hvalues : P.evaluate y = .ok values := Option.some.inj hreply
  rcases hy with rfl | hsame
  · exact hvalues
  · rw [← hnumeric y x hsame, hvalues]

/-- The record of a run on pure callbacks is consistent, if the run may make an iteration; with any
configuration that is tested it may. -/
theorem Layout.records_consistent [Scalar α] {P : PureCallbacks α ε} (hnumeric : P.Numeric)
    {problem : Layout α}
    (hshape : ∀ x values, P.evaluate x = .ok values →
      values.constraints.length = problem.rows.length) :
    (∀ config t, config.maxOuter ≠ 0 →
      P.run (AugmentedLagrangian.solve config problem) = some (.ok t) →
      t.Consistent (fun x values => P.evaluate x = .ok values) problem.rows.length) ∧
    ∀ config t, P.run (ProjectedBfgs.solve config problem) = some (.ok t) →
      t.Consistent (fun x values => P.evaluate x = .ok values) problem.rows.length := by
  have hasks : ∀ c, P.contract.asks c := fun _ => trivial
  constructor
  · intro config t hmost hrun
    obtain ⟨h, -⟩ :=
      PureCallbacks.of_run (AugmentedLagrangian.replying_solve hasks hmost problem) hrun
    exact ⟨hnumeric.evaluate_of_valuesAt h.values, h.history, h.multipliers, h.finite⟩
  · intro config t hrun
    obtain ⟨hrows, start, initial, o, -, -, h⟩ :=
      PureCallbacks.of_run (ProjectedBfgs.replying_solve hasks problem) hrun
    have hvalues : P.evaluate t.point = .ok ⟨t.objective, t.constraints⟩ :=
      Option.some.inj h.values
    -- the merit at the end is the objective there
    obtain ⟨-, found, hreply, hmerit⟩ := end_of_yields h.minimised
    have hfound : P.evaluate t.point = .ok found := h.point ▸ Option.some.inj hreply
    obtain rfl := Except.ok.inj (hfound.symm.trans hvalues)
    have hmerit : o.value = t.objective := hmerit
    obtain ⟨hentries, hfinite⟩ := Minimize.entries_of_yields h.minimised
    have hlength : t.constraints.length = problem.rows.length := hshape _ _ hvalues
    rw [hrows] at hlength ⊢
    refine ⟨hvalues, ?_, congrArg List.length h.multipliers, fun hcode => ?_⟩
    · rw [h.history, hentries.last, hmerit]
    · rw [List.eq_nil_of_length_eq_zero hlength, ← hmerit]
      refine ⟨hfinite fun hstop => hcode ?_, fun _ hmem => nomatch hmem⟩
      rw [h.code, ProjectedBfgs.code, hstop]

/-- Real numbers have one zero. -/
theorem Exact.numeric (P : PureCallbacks ℝ ε) : P.Numeric := by
  intro x y hsame
  rw [Exact.samePoint_iff.mp hsame]

/-- On the segment and in the valley. -/
theorem Layout.records_consistent_segment :
    (Termination.mk 0 [(0 : ℝ)] 0 [0 - 1 / 2] [0] 1 [0]).Consistent
        (fun x values => AugmentedLagrangian.segmentCallbacks.evaluate x = .ok values) 1 ∧
      (Termination.mk (-1) [(21 / 20 : ℝ), 5 / 4] (-299999 / 250000) [] [] 2
        [0, -6 / 5, -299999 / 250000]).Consistent
        (fun x values => ProjectedBfgs.valleyCallbacks.evaluate x = .ok values) 0 := by
  have hsegment : ∀ x values, AugmentedLagrangian.segmentCallbacks.evaluate x = .ok values →
      values.constraints.length = AugmentedLagrangian.segment.rows.length := by
    rintro x _ ⟨⟩
    rfl
  have hvalley : ∀ x values, ProjectedBfgs.valleyCallbacks.evaluate x = .ok values →
      values.constraints.length = ProjectedBfgs.valleyLayout.rows.length := by
    rintro x _ ⟨⟩
    rfl
  have hmost : (AugmentedLagrangian.Config.default : AugmentedLagrangian.Config ℝ).maxOuter ≠ 0 :=
    (AugmentedLagrangian.Config.valid_of_validate AugmentedLagrangian.default_validate).limits.1
  exact ⟨(Layout.records_consistent (Exact.numeric _) hsegment).1 _ _ hmost
      AugmentedLagrangian.run_segment_solve,
    (Layout.records_consistent (Exact.numeric _) hvalley).2 _ _ ProjectedBfgs.run_valley_solve⟩

/-! ## Entries of the history -/

/-- Whatever is answered, the history of the augmented Lagrangian solver has an entry for each outer
iteration, the objective at its end; that of the solver for bounds has one more, for the start, and
then one for each iteration. -/
theorem Layout.histories_logged [Scalar α] (hasks : ∀ c, C.asks c) {problem : Layout α} :
    (∀ config t, config.maxOuter ≠ 0 →
      (AugmentedLagrangian.solve config problem).run.Yields C (.ok t) →
      t.history.length = t.iterations ∧ ∃ start, problem.checkedStart = .ok start ∧
        AugmentedLagrangian.Logged C config ⟨problem.rows.toArray, rfl⟩ start.lower start.upper
          (.first config start.point) t) ∧
    ∀ config t, (ProjectedBfgs.solve config problem).run.Yields C (.ok t) →
      t.history.length = t.iterations + 1 ∧ ∃ start settings values,
        problem.checkedStart = .ok start ∧ C.replies (.evaluate t.point) (.ok values) ∧
        Minimize.Entries (ProjectedBfgs.objective C problem.dimension) start.lower start.upper
          start.point settings t.iterations values.objective t.history := by
  constructor
  · intro config t hmost hyields
    obtain ⟨-, start, hstart, hlogged⟩ :=
      (AugmentedLagrangian.replying_solve hasks hmost problem).of_yields hyields t rfl
    refine ⟨?_, start, hstart, hlogged⟩
    obtain ⟨s, ends, -, ⟨-, -, hhistory, hiterations⟩ | ⟨hhistory, hiterations⟩⟩ := hlogged
    · rw [hhistory, hiterations, List.length_append, List.length_singleton]
    · rw [hhistory, hiterations]
  · intro config t hyields
    obtain ⟨-, start, initial, o, hstart, -, h⟩ :=
      (ProjectedBfgs.replying_solve hasks problem).of_yields hyields t rfl
    obtain ⟨hentries, -⟩ := Minimize.entries_of_yields h.minimised
    obtain ⟨-, values, hvalues, hmerit⟩ := end_of_yields h.minimised
    rw [← h.history, ← h.iterations, hmerit] at hentries
    rw [← h.point] at hvalues
    exact ⟨hentries.length, start, _, values, hstart, hvalues, hentries⟩

/-- The one entry of the run on the segment, and the two of the run in the valley, which come after
one for the start. -/
theorem Layout.histories_logged_valley :
    (∃ start : Start ℝ 1, AugmentedLagrangian.segment.checkedStart = .ok start ∧
      AugmentedLagrangian.Logged AugmentedLagrangian.segmentCallbacks.contract .default
        #v[.atMost] start.lower start.upper (.first .default start.point)
        ⟨0, [0], 0, [0 - 1 / 2], [0], 1, [0]⟩) ∧
    ∃ (start : Start ℝ 2) (settings : Minimize.Settings ℝ) (values : Values ℝ),
      ProjectedBfgs.valleyLayout.checkedStart = .ok start ∧
      Minimize.Entries (ProjectedBfgs.objective ProjectedBfgs.valleyCallbacks.contract 2)
        start.lower start.upper start.point settings 2 values.objective
        [0, -6 / 5, -299999 / 250000] := by
  have hmost : (AugmentedLagrangian.Config.default : AugmentedLagrangian.Config ℝ).maxOuter ≠ 0 :=
    (AugmentedLagrangian.Config.valid_of_validate AugmentedLagrangian.default_validate).limits.1
  constructor
  · obtain ⟨-, hlogged⟩ := (Layout.histories_logged fun _ => trivial).1 _ _ hmost
      (PureCallbacks.run_eq_some.mp AugmentedLagrangian.run_segment_solve)
    exact hlogged
  · obtain ⟨-, start, settings, values, hstart, -, hentries⟩ :=
      (Layout.histories_logged fun _ => trivial).2 _ _
        (PureCallbacks.run_eq_some.mp ProjectedBfgs.run_valley_solve)
    exact ⟨start, settings, values, hstart, hentries⟩

/-- A history with more entries than there were iterations. -/
theorem valley_history_longer :
    ProjectedBfgs.valleyConfig.validate = .ok () ∧
      ∃ t, ProjectedBfgs.valleyCallbacks.run
          (ProjectedBfgs.solve ProjectedBfgs.valleyConfig ProjectedBfgs.valleyLayout) =
            some (.ok t) ∧
        t.iterations = 2 ∧ t.history.length = 3 :=
  ⟨ProjectedBfgs.valley_validate, _, ProjectedBfgs.run_valley_solve, rfl, rfl⟩

end Nlp
