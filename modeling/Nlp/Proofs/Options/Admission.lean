import Nlp.Proofs.Double
import Nlp.Proofs.Options.Store
import Nlp.Proofs.Solver.Basic

/-!
# Configurations that are reached by options

An option tests its own value when it is set, and a solver tests its whole configuration before a
run.  Whatever has been set, or refused, on a new store, the solver finds no fault that the options
have let through but one: each option is tested alone, so nothing keeps the first penalty below the
ceiling of the penalties.

## Main definitions

* `AugmentedLagrangian.Config.SoundButForCeiling`: no other fault is possible.

## Main results

* `Setting.number_admits`, `Setting.factor_admits`, `Setting.limit_admits`: what is known of a value
  that an option accepts.
* `Store.reached_configurations`: what the solvers make of the configurations that are reached.
-/

namespace Nlp

/-! ## Accepted values -/

namespace OptionValue

variable {key : String} {d e : Double} {n : Nat}

/-- A number that is accepted is positive and finite. -/
theorem positive_of_positive (h : (float d).positive key = .ok e) : 0 < d ∧ d.isFinite := by
  change requirePositive key d = .ok e at h
  unfold requirePositive at h
  split at h
  · next hpositive => exact hpositive
  · cases h

/-- A number that is accepted as a factor is greater than one. -/
theorem one_lt_of_aboveOne (h : (float d).aboveOne key = .ok e) : 1 < d := by
  have hpositive := positive_of_aboveOne h
  have hnumber : d.isNaN = false := Double.isNaN_of_isFinite (positive_of_positive hpositive).2
  have hone : (1 : Double).isNaN = false := rfl
  obtain rfl : d = e := requirePositive_eq_ok hpositive
  rw [aboveOne, hpositive] at h
  change (if d ≤ 1 then _ else _) = _ at h
  split at h
  · cases h
  · next hle => exact Decidable.not_not.mp fun hlt => hle (Double.le_of_not_lt hnumber hone hlt)

/-- A count that is accepted is not zero. -/
theorem ne_zero_of_count {m : Nat} (h : (ofNat n).count key = .ok m) : n ≠ 0 := by
  rintro rfl
  cases h

end OptionValue

namespace Setting

variable {κ : Type} {key : String} {c : κ}

theorem number_admits {get : κ → Double} {put : Double → κ → κ} {d : Double}
    (h : ∃ c', (number key get put).set (.float d) c = .ok c') : 0 < d ∧ d.isFinite := by
  obtain ⟨c', h⟩ := h
  obtain ⟨e, he, -⟩ := bind_eq_ok.mp h
  exact OptionValue.positive_of_positive he

theorem factor_admits {get : κ → Double} {put : Double → κ → κ} {d : Double}
    (h : ∃ c', (factor key get put).set (.float d) c = .ok c') : 1 < d ∧ d.isFinite := by
  obtain ⟨c', h⟩ := h
  rw [factor_set] at h
  cases hvalue : (OptionValue.float d).aboveOne key with
  | ok e =>
    exact ⟨OptionValue.one_lt_of_aboveOne hvalue,
      (OptionValue.positive_of_positive (OptionValue.positive_of_aboveOne hvalue)).2⟩
  | error e =>
    rw [hvalue] at h
    cases h

theorem limit_admits {get : κ → Nat} {put : Nat → κ → κ} {n : Nat}
    (h : ∃ c', (limit key get put).set (.ofNat n) c = .ok c') : n ≠ 0 := by
  obtain ⟨c', h⟩ := h
  obtain ⟨m, hm, -⟩ := bind_eq_ok.mp h
  exact OptionValue.ne_zero_of_count hm

end Setting

/-! ## Reached configurations -/

namespace AugmentedLagrangian.Config

/-- The only fault the configuration can have is a penalty that starts above its ceiling. -/
structure SoundButForCeiling (c : Config Double) : Prop where
  validate_eq_ok : c.validate = .ok () ↔ c.penaltyInit ≤ c.penaltyMax
  validate_eq_error : ∀ e, c.validate = .error e ↔
    c.penaltyMax < c.penaltyInit ∧ e = .invalidConfig (.ceiling c.penaltyMax c.penaltyInit)

/-- Where every option has been accepted, only the two penalties are left to be compared. -/
theorem validate_of_settled {c : Config Double} (h : Schema.Settled Fits c) :
    c.validate = if c.penaltyInit ≤ c.penaltyMax then .ok ()
      else .error (.invalidConfig (.ceiling c.penaltyMax c.penaltyInit)) := by
  have haccepts := h.accepts
  simp only [Schema.settings, List.forall_mem_cons] at haccepts
  obtain ⟨-, houter, hinner, htolerance, hconstraint, hacceptable, hinit, hgrowth, -, hratio, -⟩ :=
    haccepts
  have hlimits : ¬ (c.maxOuter = 0 ∨ c.maxInner = 0) :=
    not_or.mpr ⟨Setting.limit_admits houter, Setting.limit_admits hinner⟩
  have hgrows : ¬ ¬ 1 < c.penaltyGrowth := not_not_intro (Setting.factor_admits hgrowth).1
  unfold validate
  dsimp only
  rw [if_neg hlimits, requirePositive_eq_ok.mpr (Setting.number_admits htolerance),
    requirePositive_eq_ok.mpr (Setting.number_admits hconstraint),
    requirePositive_eq_ok.mpr (Setting.number_admits hacceptable),
    requirePositive_eq_ok.mpr (Setting.number_admits hinit),
    requirePositive_eq_ok.mpr (Setting.number_admits hratio), if_neg hgrows, ite_not]
  split <;> rfl

theorem soundButForCeiling_of_settled {c : Config Double} (h : Schema.Settled Fits c) :
    c.SoundButForCeiling := by
  have hvalidate := validate_of_settled h
  have haccepts := h.accepts
  simp only [Schema.settings, List.forall_mem_cons] at haccepts
  obtain ⟨-, -, -, -, -, -, hinit, -, hmax, -, -⟩ := haccepts
  -- both penalties are numbers, so one of them is at most the other
  have hle : ¬ c.penaltyInit ≤ c.penaltyMax ↔ c.penaltyMax < c.penaltyInit := by
    have hnumber := Double.isNaN_of_isFinite (Setting.number_admits hinit).2
    have hnumber' := Double.isNaN_of_isFinite (Setting.number_admits hmax).2
    rw [not_iff_comm]
    exact ⟨Double.le_of_not_lt hnumber hnumber', Double.not_lt_of_le⟩
  constructor
  · rw [hvalidate]
    split <;> simp [*]
  · intro e
    rw [hvalidate, ← hle]
    split <;> simp [*, eq_comm]

end AugmentedLagrangian.Config

/-- Where every option has been accepted, there is nothing to refuse. -/
theorem ProjectedBfgs.Config.validate_of_settled {c : Config Double} (h : Schema.Settled Fits c) :
    c.validate = .ok () := by
  have haccepts := h.accepts
  simp only [Schema.settings, List.forall_mem_cons] at haccepts
  obtain ⟨-, hlimit, htolerance, hratio, -⟩ := haccepts
  unfold validate
  dsimp only
  rw [if_neg (Setting.limit_admits hlimit),
    requirePositive_eq_ok.mpr (Setting.number_admits htolerance),
    requirePositive_eq_ok.mpr (Setting.number_admits hratio)]
  rfl

/-- Whatever is set on a new store of the augmented Lagrangian solver, its configuration passes
unless the first penalty is above the ceiling; that of the projected BFGS solver always passes. -/
theorem Store.reached_configurations (policy : Policy) (calls : List (String × OptionValue)) :
    ((new policy : Store (AugmentedLagrangian.Config Double)).after
      calls).config.SoundButForCeiling ∧
    ((new policy : Store (ProjectedBfgs.Config Double)).after calls).config.validate = .ok () := by
  constructor
  · have hlawful := AugmentedLagrangian.Config.lawful
    exact AugmentedLagrangian.Config.soundButForCeiling_of_settled
      (settled_after hlawful calls hlawful.settled_default)
  · have hlawful := ProjectedBfgs.Config.lawful
    exact ProjectedBfgs.Config.validate_of_settled
      (settled_after hlawful calls hlawful.settled_default)

/-- A ceiling below the standard first penalty is accepted, and refused by the solver. -/
example :
    let config := ((Store.new .strict : Store (AugmentedLagrangian.Config Double)).after
      [("penalty_max", .int 1)]).config
    config.penaltyMax < config.penaltyInit := by
  decide +kernel

end Nlp
