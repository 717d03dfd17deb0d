import Nlp.Proofs.Contract
import Nlp.Solver.Config

/-!
# What a solver has checked

A starting point that passes the checks of a layout is in the box between the layout's own bounds,
and a configuration that passes has an increasing sequence of penalties below a ceiling.

## Main results

* `Layout.checkedStart_eq_ok`: what is known of a checked start.
* `AugmentedLagrangian.Config.valid_of_validate`: what is known of a checked configuration.
-/

namespace Nlp

theorem vectorOf?_eq_some {β : Type} {n : Nat} {l : List β} {v : Vector β n} :
    vectorOf? n l = some v ↔ v.toList = l := by
  unfold vectorOf?
  split
  · rw [Option.some.injEq]
    constructor
    · rintro rfl
      rfl
    · rintro rfl
      exact Vector.toArray_inj.mp rfl
  · next h =>
    constructor
    · exact fun hv => nomatch hv
    · rintro rfl
      exact absurd v.length_toList h

theorem Matrix.shaped?_mk {β : Type} {rows cols : Nat} (entries : Vector (Vector β cols) rows) :
    (Matrix.mk rows cols entries).shaped? rows cols = some entries := by
  simp [Matrix.shaped?]

theorem ReturnCode.toInt_inj {c d : ReturnCode} (h : c.toInt = d.toInt) : c = d := by
  cases c <;> cases d <;> first | rfl | exact absurd h (by decide)

theorem checkedVector_eq_ok {β : Type} {what : String} {n : Nat} {l : List β} {v : Vector β n}
    (h : checkedVector what n l = .ok v) : v.toList = l := by
  unfold checkedVector at h
  split at h
  · next w hw =>
    obtain rfl := Except.ok.inj h
    exact vectorOf?_eq_some.mp hw
  · nomatch h

variable {α : Type} [Scalar α]

/-- A checked start keeps the bounds of the layout, which are in order, and is a point of their
box. -/
theorem Layout.checkedStart_eq_ok {problem : Layout α} {start : Start α problem.dimension}
    (h : problem.checkedStart = .ok start) :
    start.lower.toList = problem.lower ∧ start.upper.toList = problem.upper ∧
      (∀ i : Fin problem.dimension, start.lower.get i ≤ start.upper.get i) ∧
      ∃ x, start.point = clampTo start.lower start.upper x := by
  obtain ⟨lower, hlower, h⟩ := bind_eq_ok.mp h
  obtain ⟨upper, hupper, h⟩ := bind_eq_ok.mp h
  split at h
  · nomatch h
  next hordered =>
  obtain ⟨point, -, h⟩ := bind_eq_ok.mp h
  obtain rfl := Except.ok.inj h
  refine ⟨checkedVector_eq_ok hlower, checkedVector_eq_ok hupper, fun i => ?_, point, rfl⟩
  have hi := List.find?_eq_none.mp hordered i (List.mem_finRange i)
  simpa using hi

/-- The point of a checked start is the start of the layout, moved into the box. -/
theorem Layout.point_of_checkedStart {problem : Layout α} {start : Start α problem.dimension}
    (h : problem.checkedStart = .ok start) :
    ∃ x, x.toList = problem.start ∧ start.point = clampTo start.lower start.upper x := by
  obtain ⟨lower, -, h⟩ := bind_eq_ok.mp h
  obtain ⟨upper, -, h⟩ := bind_eq_ok.mp h
  split at h
  · nomatch h
  obtain ⟨point, hpoint, h⟩ := bind_eq_ok.mp h
  obtain rfl := Except.ok.inj h
  exact ⟨point, checkedVector_eq_ok hpoint, rfl⟩

/-- Vectors with bounds in order pass the checks. -/
theorem Layout.checkedStart_toList {n : Nat} {lower upper : Vector α n}
    (h : ∀ i : Fin n, lower.get i ≤ upper.get i) (start : Vector α n) (rows : List Sense) :
    (Layout.mk n lower.toList upper.toList start.toList rows).checkedStart =
      .ok ⟨lower, upper, clampTo lower upper start⟩ := by
  have hvector : ∀ what (v : Vector α n), checkedVector what n v.toList = .ok v := by
    intro what v
    rw [checkedVector, vectorOf?_eq_some.mpr rfl]
  have hordered : (List.finRange n).find? (fun i => !decide (lower.get i ≤ upper.get i)) = none :=
    List.find?_eq_none.mpr fun i _ => by simpa using h i
  unfold Layout.checkedStart
  refine bind_eq_ok.mpr ⟨lower, hvector _ _, bind_eq_ok.mpr ⟨upper, hvector _ _, ?_⟩⟩
  rw [hordered]
  exact bind_eq_ok.mpr ⟨start, hvector _ _, rfl⟩

/-! ## Refusals -/

/-- The lengths that a solver checks.  That of a constraint vector is not among them. -/
def checkedLengths : List String :=
  ["lower bounds", "upper bounds", "initial point", "jacobian rows", "jacobian columns"]

/-- If the error is about a length, that is one of those a solver checks. -/
def SolverError.Checked : SolverError α → Prop
  | .dimension what _ _ => what ∈ checkedLengths
  | _ => True

omit [Scalar α] in
theorem checkedVector_eq_error {what : String} (hwhat : what ∈ checkedLengths) {n : Nat}
    {l : List α} {e : SolverError α} (h : checkedVector what n l = .error e) : e.Checked := by
  unfold checkedVector at h
  split at h
  · cases h
  · obtain rfl := Except.error.inj h
    exact hwhat

/-- A start is refused for a length, or for a pair of bounds. -/
theorem Layout.checked_of_checkedStart {problem : Layout α} {e : SolverError α}
    (h : problem.checkedStart = .error e) : e.Checked := by
  unfold Layout.checkedStart at h
  rcases bind_eq_error.mp h with h | ⟨lower, -, h⟩
  · exact checkedVector_eq_error (by decide) h
  rcases bind_eq_error.mp h with h | ⟨upper, -, h⟩
  · exact checkedVector_eq_error (by decide) h
  split at h
  · obtain rfl := Except.error.inj h
    trivial
  rcases bind_eq_error.mp h with h | ⟨point, -, h⟩
  · exact checkedVector_eq_error (by decide) h
  · cases h

theorem checked_of_requirePositive {field : String} {value : α} {e : SolverError α}
    (h : requirePositive field value = .error e) : e.Checked := by
  unfold requirePositive at h
  split at h
  · cases h
  · obtain rfl := Except.error.inj h
    trivial

theorem AugmentedLagrangian.Config.checked_of_validate {c : Config α} {e : SolverError α}
    (h : c.validate = .error e) : e.Checked := by
  unfold Config.validate at h
  dsimp only at h
  split at h
  · obtain rfl := Except.error.inj h
    trivial
  -- each of the five checks may be the one that has failed
  rcases bind_eq_error.mp h with h | ⟨_, -, h⟩
  · exact checked_of_requirePositive h
  rcases bind_eq_error.mp h with h | ⟨_, -, h⟩
  · exact checked_of_requirePositive h
  rcases bind_eq_error.mp h with h | ⟨_, -, h⟩
  · exact checked_of_requirePositive h
  rcases bind_eq_error.mp h with h | ⟨_, -, h⟩
  · exact checked_of_requirePositive h
  rcases bind_eq_error.mp h with h | ⟨_, -, h⟩
  · exact checked_of_requirePositive h
  split at h
  · obtain rfl := Except.error.inj h
    trivial
  split at h
  · obtain rfl := Except.error.inj h
    trivial
  · cases h

theorem ProjectedBfgs.Config.checked_of_validate {c : Config α} {e : SolverError α}
    (h : c.validate = .error e) : e.Checked := by
  unfold Config.validate at h
  dsimp only at h
  split at h
  · obtain rfl := Except.error.inj h
    trivial
  rcases bind_eq_error.mp h with h | ⟨_, -, h⟩
  · exact checked_of_requirePositive h
  · exact checked_of_requirePositive h

/-! ## Configurations -/

/-- What a valid configuration has. -/
structure AugmentedLagrangian.Config.Valid (c : Config α) : Prop where
  limits : c.maxOuter ≠ 0 ∧ c.maxInner ≠ 0
  tolerance : 0 < c.tolerance ∧ Scalar.isFinite c.tolerance
  constraintTolerance : 0 < c.constraintTolerance ∧ Scalar.isFinite c.constraintTolerance
  acceptableTolerance : 0 < c.acceptableTolerance ∧ Scalar.isFinite c.acceptableTolerance
  penaltyInit : 0 < c.penaltyInit ∧ Scalar.isFinite c.penaltyInit
  maxStepRatio : 0 < c.maxStepRatio ∧ Scalar.isFinite c.maxStepRatio
  growth : 1 < c.penaltyGrowth
  ceiling : c.penaltyInit ≤ c.penaltyMax

theorem requirePositive_eq_ok {field : String} {value : α} :
    requirePositive field value = .ok () ↔ 0 < value ∧ Scalar.isFinite value := by
  unfold requirePositive
  split <;> simp [*]

theorem AugmentedLagrangian.Config.valid_of_validate {c : Config α}
    (h : c.validate = .ok ()) : c.Valid := by
  unfold Config.validate at h
  dsimp only at h
  split at h
  · nomatch h
  next hlimits =>
  obtain ⟨_, htolerance, h⟩ := bind_eq_ok.mp h
  obtain ⟨_, hconstraint, h⟩ := bind_eq_ok.mp h
  obtain ⟨_, hacceptable, h⟩ := bind_eq_ok.mp h
  obtain ⟨_, hinit, h⟩ := bind_eq_ok.mp h
  obtain ⟨_, hstep, h⟩ := bind_eq_ok.mp h
  split at h
  · nomatch h
  next hgrowth =>
  split at h
  · nomatch h
  next hceiling =>
  exact {
    limits := not_or.mp hlimits
    tolerance := requirePositive_eq_ok.mp htolerance
    constraintTolerance := requirePositive_eq_ok.mp hconstraint
    acceptableTolerance := requirePositive_eq_ok.mp hacceptable
    penaltyInit := requirePositive_eq_ok.mp hinit
    maxStepRatio := requirePositive_eq_ok.mp hstep
    growth := Decidable.not_not.mp hgrowth
    ceiling := Decidable.not_not.mp hceiling }

/-- The step ratio of a valid configuration is a positive number. -/
theorem ProjectedBfgs.Config.maxStepRatio_of_validate {c : Config α}
    (h : c.validate = .ok ()) : 0 < c.maxStepRatio ∧ Scalar.isFinite c.maxStepRatio := by
  unfold Config.validate at h
  dsimp only at h
  split at h
  · nomatch h
  obtain ⟨_, -, hstep⟩ := bind_eq_ok.mp h
  exact requirePositive_eq_ok.mp hstep

end Nlp
