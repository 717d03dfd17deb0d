import Nlp.Proofs.Order
import Nlp.Proofs.Solver.Certificate

/-!
# When a problem counts as infeasible

The augmented Lagrangian solver gives a problem up for one of two reasons.  Inside the loop it
counts the outer iterations at the ceiling of the penalty that bring no progress, and stops at the
third.  After the loop it looks at the last iteration alone: at its measure, and at the penalty,
which that very iteration may have raised to its ceiling, or which may have been there from the
start.

The counter is compared with a log of the outer iterations.  The arithmetic is that of the reals or
of the doubles; of it only a few laws of the order are used, which keep the penalty at most at its
ceiling.

## Main definitions

* `Round`: what the decisions of an outer iteration depend on; `Round.stalled`, whether it counts.
* `Log`, `Rounds`: the rounds up to a state, and those of a whole run.

## Main results

* `Log.kept`: the penalty is capped, and the counter of a state counts stalled rounds only.
* `infeasible_explained`: why a run says infeasible.
-/

namespace Nlp

namespace AugmentedLagrangian

variable {α ε : Type} [Scalar α] {n m : Nat} {P : PureCallbacks α ε} {config : Config α}
  {senses : Vector Sense m} {lower upper : Vector α n} {first s : Outer α n m}

/-! ## The log of a run -/

/-- What the decisions of an outer iteration depend on. -/
structure Round (α : Type) where
  /-- The penalty it was run with. -/
  penalty : α
  /-- The measure of the iteration before. -/
  previous : Option α
  /-- The measure it ended with. -/
  measure : α

/-- The round was run with the penalty at its ceiling, and ended infeasible and with more than a
quarter of the measure before. -/
def Round.stalled (config : Config α) (r : Round α) : Bool :=
  decide (r.penalty ≤ config.penaltyMax ∧ config.penaltyMax ≤ r.penalty) &&
    decide (config.constraintTolerance < r.measure) &&
    r.previous.any fun before => decide (0.25 * before < r.measure)

/-- The penalty after the round. -/
def Round.raised (config : Config α) (r : Round α) : α :=
  (adapt config r.penalty r.previous 0 r.measure).1

/-- The measure of an outer iteration from `s` that ends at a point with these values. -/
def MeasureAt (senses : Vector Sense m) (s : Outer α n m) (values : Values α) (v : α) : Prop :=
  ∃ constraints : Vector α m, vectorOf? m (values.constraints.take m) = some constraints ∧
    v = measure (s.rows senses) constraints

/-- The rounds up to a state at the top of an outer iteration. -/
inductive Log (P : PureCallbacks α ε) (config : Config α) (senses : Vector Sense m)
    (lower upper : Vector α n) (first : Outer α n m) : List (Round α) → Outer α n m → Prop
  | start : Log P config senses lower upper first [] first
  | step {rounds : List (Round α)} {s next : Outer α n m} {found : Found α}
      (hs : Log P config senses lower upper first rounds s)
      (hnext : P.run (outerIteration config senses lower upper rounds.length s) =
        some (.ok (.goesOn next)))
      (hlast : next.last = some found) (hmeasure : MeasureAt senses s found.values found.measure) :
    Log P config senses lower upper first (rounds ++ [⟨s.penalty, s.previous, found.measure⟩]) next

/-- The rounds of a run, which ends in the last of them or after it. -/
inductive Rounds (P : PureCallbacks α ε) (config : Config α) (senses : Vector Sense m)
    (lower upper : Vector α n) (first : Outer α n m) (t : Termination α) : List (Round α) → Prop
  | ended {rounds : List (Round α)} {last : Outer α n m} {v : α}
      (hlast : Log P config senses lower upper first rounds last)
      (hend : P.run (outerIteration config senses lower upper rounds.length last) =
        some (.ok (.ended t)))
      (hmeasure : MeasureAt senses last ⟨t.objective, t.constraints⟩ v) :
    Rounds P config senses lower upper first t (rounds ++ [⟨last.penalty, last.previous, v⟩])
  | exhausted {rounds : List (Round α)} {last : Outer α n m}
      (hlast : Log P config senses lower upper first rounds last)
      (hend : P.run (exhausted config rounds.length last) = some (.ok t)) :
    Rounds P config senses lower upper first t rounds

/-- Every state that is reached has a log. -/
theorem Reaches.log {k : Nat} (hs : Reaches P config senses lower upper first k s) :
    ∃ rounds, rounds.length = k ∧ Log P config senses lower upper first rounds s := by
  -- on the iterations that have been reached, each of which has its round
  induction hs with
  | start => exact ⟨[], rfl, .start⟩
  | step hs hnext ih =>
    obtain ⟨rounds, rfl, hlog⟩ := ih
    cases outerIteration_turn hnext with
    | numbers h hnumber hrows hconclusion =>
      cases hconclusion with
      | goesOn =>
        exact ⟨_, by simp, .step hlog hnext rfl ⟨_, hrows, rfl⟩⟩

/-- A run has as many rounds as it reports. -/
theorem Rounds.iterations_eq {point : Vector α n} {t : Termination α} {rounds : List (Round α)}
    (h : Rounds P config senses lower upper (.first config point) t rounds) :
    t.iterations = rounds.length := by
  cases h with
  | ended hlast hend =>
    rw [List.length_append, List.length_singleton]
    cases outerIteration_turn hend with
    | nonFinite => rfl
    | numbers h hnumber hrows hconclusion => cases hconclusion <;> rfl
  | exhausted hlast hend =>
    cases hlast with
    | start => exact (exhausted_first_eq_ok rfl hend).2
    | step hs hnext hlast =>
      obtain rfl := exhausted_eq_ok hlast hend
      rfl

/-! ## The counter and the penalty -/

/-- The penalty is below its ceiling, or at most there. -/
def Config.Caps (config : Config α) (penalty : α) : Prop :=
  penalty < config.penaltyMax ∨ penalty ≤ config.penaltyMax

theorem Round.caps_raised (hlaws : Scalar.Capped α) (hmax : config.penaltyMax ≤ config.penaltyMax)
    {r : Round α} (hr : config.Caps r.penalty) : config.Caps (r.raised config) := by
  unfold Round.raised adapt
  split
  · split
    · rcases hlaws.min_cases (r.penalty * config.penaltyGrowth) _ hmax with h | h
      · exact .inl h
      · exact .inr (h.symm ▸ hmax)
    · split <;> exact hr
  · exact hr

/-- The penalty that follows does not depend on the counter. -/
theorem adapt_fst (config : Config α) (r : Round α) (stalled : Nat) :
    (adapt config r.penalty r.previous stalled r.measure).1 = r.raised config := by
  unfold Round.raised adapt
  split
  · split
    · rfl
    · split <;> rfl
  · rfl

/-- The counter grows by a stalled round only. -/
theorem adapt_snd_le (hlaws : Scalar.Capped α) {r : Round α} (hr : config.Caps r.penalty)
    (stalled : Nat) :
    (adapt config r.penalty r.previous stalled r.measure).2 ≤
      stalled + [r].countP (·.stalled config) := by
  unfold adapt
  split
  · next hprogress =>
    split
    · exact Nat.le_add_right _ _
    next hceiling =>
    split
    · next hinfeasible =>
      -- capped and not below its ceiling, the penalty is at it
      have hle : r.penalty ≤ config.penaltyMax := hr.resolve_left hceiling
      have hge : config.penaltyMax ≤ r.penalty := hlaws.le_of_not_lt _ _ hle hceiling
      have hstalled : r.stalled config = true := by
        rw [Round.stalled, decide_eq_true ⟨hle, hge⟩, decide_eq_true hinfeasible, hprogress]
        rfl
      rw [List.countP_singleton, if_pos hstalled]
    · exact Nat.le_add_right _ _
  · exact Nat.zero_le _

/-- What the log of the rounds keeps: the penalty is capped, the counter counts stalled rounds only,
and the last round, if there is one, is what the state remembers. -/
structure Log.Kept (config : Config α) (rounds : List (Round α)) (s : Outer α n m) : Prop where
  caps : config.Caps s.penalty
  stalled_le : s.stalled ≤ rounds.countP (·.stalled config)
  last : s.last = none ∨ ∃ r found, rounds.getLast? = some r ∧ s.last = some found ∧
    found.measure = r.measure ∧ s.penalty = r.raised config

theorem Log.Kept.next (hlaws : Scalar.Capped α) (hmax : config.penaltyMax ≤ config.penaltyMax)
    {rounds : List (Round α)} (hs : Log.Kept config rounds s)
    (jacobian : Vector (Vector α n) (1 + m)) (inner : Minimize.Outcome α n) (values : Values α)
    (constraints : Vector α m) :
    Log.Kept config (rounds ++ [⟨s.penalty, s.previous, measure (s.rows senses) constraints⟩])
      (s.next config senses jacobian inner values constraints) := by
  have hpenalty : (s.next config senses jacobian inner values constraints).penalty =
      (Round.mk s.penalty s.previous (measure (s.rows senses) constraints)).raised config :=
    adapt_fst config ⟨s.penalty, s.previous, measure (s.rows senses) constraints⟩ s.stalled
  refine ⟨?_, ?_, .inr ⟨_, _, List.getLast?_concat, rfl, rfl, hpenalty⟩⟩
  · rw [hpenalty]
    exact Round.caps_raised hlaws hmax hs.caps
  · rw [List.countP_append]
    refine (adapt_snd_le (r := ⟨s.penalty, s.previous, measure (s.rows senses) constraints⟩) hlaws
      hs.caps s.stalled).trans ?_
    exact Nat.add_le_add_right hs.stalled_le _

theorem Log.kept (hlaws : Scalar.Capped α) (hceiling : config.penaltyInit ≤ config.penaltyMax)
    {point : Vector α n} {rounds : List (Round α)}
    (hs : Log P config senses lower upper (.first config point) rounds s) :
    Log.Kept config rounds s := by
  have hmax := hlaws.le_self_of_le _ _ hceiling
  -- on the rounds: each adapts the penalty and counts the stalled ones
  induction hs with
  | start => exact ⟨.inr hceiling, Nat.le_refl 0, .inl rfl⟩
  | step hs hnext hlast hmeasure ih =>
    cases outerIteration_turn hnext with
    | numbers h hnumber hrows hconclusion =>
      cases hconclusion with
      | goesOn =>
        obtain rfl := Option.some.inj hlast
        exact ih.next hlaws hmax _ _ _ _

/-! ## Infeasible runs -/

/-- A run that says infeasible in an outer iteration has stalled often enough. -/
theorem stallLimit_le_countP (hlaws : Scalar.Capped α)
    (hceiling : config.penaltyInit ≤ config.penaltyMax) {rounds : List (Round α)}
    (hkept : Log.Kept config rounds s) {k : Nat} {t : Termination α}
    (hend : P.run (outerIteration config senses lower upper k s) = some (.ok (.ended t)))
    (hcode : t.code = ReturnCode.infeasible.toInt) :
    ∃ v : α, MeasureAt senses s ⟨t.objective, t.constraints⟩ v ∧
      stallLimit ≤ (rounds ++ [Round.mk s.penalty s.previous v]).countP (·.stalled config) := by
  cases outerIteration_turn hend with
  | nonFinite => exact nomatch ReturnCode.toInt_inj (c := .diverging) hcode
  | numbers h hnumber hrows hconclusion =>
    cases hconclusion with
    | succeeded => exact nomatch ReturnCode.toInt_inj (c := .succeeded) hcode
    | unbounded => exact nomatch ReturnCode.toInt_inj (c := .diverging) hcode
    | infeasible hfailed hobjective hstalled =>
      have hmax := hlaws.le_self_of_le _ _ hceiling
      exact ⟨_, ⟨_, hrows, rfl⟩, hstalled.trans (hkept.next hlaws hmax _ _ _ _).stalled_le⟩

/-- A run that says infeasible after its iterations looked at the last of them. -/
theorem infeasible_of_exhausted {rounds : List (Round α)} (hkept : Log.Kept config rounds s)
    {k : Nat} {t : Termination α} (hend : P.run (exhausted config k s) = some (.ok t))
    (hcode : t.code = ReturnCode.infeasible.toInt) :
    ∃ r, rounds.getLast? = some r ∧ config.constraintTolerance < r.measure ∧
      config.penaltyMax ≤ r.raised config := by
  obtain hlast | ⟨r, found, hr, hlast, hmeasure, hpenalty⟩ := hkept.last
  · rw [(exhausted_first_eq_ok hlast hend).1] at hcode
    exact absurd (ReturnCode.toInt_inj hcode) (by decide)
  obtain rfl := exhausted_eq_ok hlast hend
  have hexhausted : exhaustedCode config s.penalty found = .infeasible := ReturnCode.toInt_inj hcode
  refine ⟨r, hr, ?_⟩
  rw [← hmeasure, ← hpenalty]
  unfold exhaustedCode at hexhausted
  split at hexhausted
  · cases hexhausted
  · split at hexhausted
    · next h => exact h
    · cases hexhausted

/-- Why a run says infeasible: three of its outer iterations stalled at the ceiling of the penalty;
or its iterations are used up, the last one ended infeasible, and the penalty is at its ceiling, be
it that this iteration has just raised it. -/
theorem infeasible_explained (hlaws : Scalar.Capped α) (hvalid : config.validate = .ok ())
    {problem : Layout α} {t : Termination α} (hrun : P.run (solve config problem) = some (.ok t))
    (hcode : t.code = ReturnCode.infeasible.toInt) :
    ∃ (start : Start α problem.dimension) (rounds : List (Round α)),
      problem.checkedStart = .ok start ∧ t.iterations = rounds.length ∧
      Rounds P config ⟨problem.rows.toArray, rfl⟩ start.lower start.upper
        (.first config start.point) t rounds ∧
      (stallLimit ≤ rounds.countP (·.stalled config) ∨
        rounds.length = config.maxOuter ∧ ∃ r, rounds.getLast? = some r ∧
          config.constraintTolerance < r.measure ∧ config.penaltyMax ≤ r.raised config) := by
  have hceiling := (Config.valid_of_validate hvalid).ceiling
  obtain ⟨start, hstart, hiterations⟩ := solve_eq_ok hrun
  obtain ⟨k, last, hlast, hend⟩ := outerIterations_ended .start hiterations
  obtain ⟨rounds, rfl, hlog⟩ := hlast.log
  have hkept := hlog.kept hlaws hceiling
  rcases hend with hend | ⟨hlength, hend⟩
  · obtain ⟨v, hv, hstalls⟩ := stallLimit_le_countP hlaws hceiling hkept hend hcode
    have hrounds := Rounds.ended hlog hend hv
    exact ⟨start, _, hstart, hrounds.iterations_eq, hrounds, .inl hstalls⟩
  · rw [Nat.zero_add] at hlength
    have hrounds := Rounds.exhausted hlog hend
    have hreason := infeasible_of_exhausted hkept hend hcode
    exact ⟨start, rounds, hstart, hrounds.iterations_eq, hrounds, .inr ⟨hlength, hreason⟩⟩

/-! ## Half the way

The number `x` is minimised on `[0, 1]` under `x = 1/2`, from `0`, with a penalty that begins at its
ceiling.  The only step goes half the way to the feasible point.
-/

/-- The layout of the problem. -/
noncomputable def halfway : Layout ℝ :=
  ⟨1, [0], [1], [0], [.equal]⟩

/-- One outer iteration of one inner iteration, with the first penalty at its ceiling. -/
noncomputable def ceilingConfig : Config ℝ :=
  { Config.default with maxOuter := 1, maxInner := 1, penaltyMax := 10.0 }

/-- The state at the start. -/
noncomputable def halfwayFirst : Outer ℝ 1 1 :=
  .first ceilingConfig (.replicate 1 0)

/-- The row with its first multiplier and penalty. -/
noncomputable def halfwayRows : Penalised ℝ 1 :=
  ⟨.replicate 1 .equal, .replicate 1 0, 10.0⟩

theorem halfway_value {a v : ℝ} (hv : v = a + 5 * (a - 1 / 2) ^ 2) :
    (merits segmentCallbacks halfwayRows).replies (.value #v[a]) v := by
  refine ⟨_, rfl, Nat.le_refl 1, ?_⟩
  show v = a + (0 * (a - 1 / 2) + 0.5 * 10.0 * (a - 1 / 2) * (a - 1 / 2))
  rw [hv, show (0.5 : ℝ) = 1 / 2 by norm_num, show (10.0 : ℝ) = 10 by norm_num]
  ring

theorem halfway_updateMultipliers {c l : ℝ} (hl : l = 10 * c) :
    updateMultipliers halfwayRows #v[c] = #v[l] := by
  refine Exact.eq_single ?_
  rw [updateMultipliers, entry_ofFn]
  show 0 + 10.0 * c = l
  rw [hl]
  norm_num

theorem halfway_gradient {a g : ℝ} (hg : g = 1 + 10 * (a - 1 / 2)) :
    (merits segmentCallbacks halfwayRows).replies (.gradient #v[a]) (#v[g] : Vector ℝ 1) := by
  refine ⟨_, _, rfl, Nat.le_refl 1, segment_jacobianAt a, ?_⟩
  refine Eq.trans ?_ (unit_meritGradient .equal 0 10.0 (a - 1 / 2) 1 1).symm
  have hweight : weight .equal 0 10.0 (a - 1 / 2) = 10 * (a - 1 / 2) := by norm_num [weight]
  rw [hweight, mul_one, hg]

theorem halfway_measure : measure halfwayRows #v[(-1 / 4 : ℝ)] = 1 / 4 := by
  show max (0 : ℝ) |-1 / 4| = 1 / 4
  norm_num

theorem halfway_gradientScale : gradientScale (m := 1) #v[#v[(1 : ℝ)], #v[1]] = 1 := by
  show max (infNorm #v[(1 : ℝ)]) 1 = 1
  rw [Exact.infNorm_single]
  norm_num

theorem halfway_minimize :
    (minimize #v[0] #v[1] #v[0] (innerSettings (m := 1) ceilingConfig #v[#v[1], #v[1]])).Yields
      (merits segmentCallbacks halfwayRows)
      ⟨#v[1 / 4], 9 / 16, some 4, 1, .iterationLimit, #[5 / 4, 9 / 16]⟩ := by
  have htolerance : (innerSettings (m := 1) ceilingConfig #v[#v[1], #v[1]]).tolerance <
      -(-4) := by
    rw [innerSettings, halfway_gradientScale]
    norm_num [ceilingConfig, Config.default]
  have hlength : Minimize.firstLength
      (innerSettings (m := 1) ceilingConfig #v[#v[1], #v[1]]).maxStepRatio #v[0] #v[-(-4)] =
      1 / 16 := by
    have hratio : (innerSettings (m := 1) ceilingConfig #v[#v[1], #v[1]]).maxStepRatio =
        1 / 4 := by
      norm_num [innerSettings, ceilingConfig, Config.default]
    rw [Minimize.firstLength, hratio, Exact.infNorm_single, Exact.infNorm_single]
    refine (if_pos ?_).trans ?_ <;> norm_num
  have hvalue₀ : (merits segmentCallbacks halfwayRows).replies (.value #v[0]) (5 / 4 : ℝ) :=
    halfway_value (by norm_num)
  have hgradient₀ : (merits segmentCallbacks halfwayRows).replies (.gradient #v[0])
      (#v[-4] : Vector ℝ 1) :=
    halfway_gradient (by norm_num)
  have hvalue : (merits segmentCallbacks halfwayRows).replies (.value #v[1 / 4]) (9 / 16 : ℝ) :=
    halfway_value (by norm_num)
  have hstep : (1 / 16 : ℝ) * -(-4) = 1 / 4 := by norm_num
  have h := Minimize.minimize_one_step rfl rfl hvalue₀ hgradient₀ (by norm_num) htolerance hlength
    hstep (by norm_num) (by norm_num) hvalue (by norm_num [Minimize.armijo]) (halfway_gradient rfl)
  rwa [neg_neg] at h

theorem halfway_evaluate :
    segmentCallbacks.evaluate [1 / 4] = .ok ⟨1 / 4, [-1 / 4]⟩ := by
  show Except.ok (Values.mk (1 / 4) [(1 / 4 : ℝ) - 1 / 2]) = _
  norm_num

/-- The only outer iteration goes on from the end of its minimisation. -/
theorem run_halfway_outerIteration :
    segmentCallbacks.run (outerIteration ceilingConfig #v[.equal] #v[0] #v[1] 0 halfwayFirst) =
      some (.ok (.goesOn (halfwayFirst.next ceilingConfig #v[.equal] #v[#v[1], #v[1]]
        ⟨#v[1 / 4], 9 / 16, some 4, 1, .iterationLimit, #[5 / 4, 9 / 16]⟩ ⟨1 / 4, [-1 / 4]⟩
        #v[-1 / 4]))) := by
  have hminimised : Minimised segmentCallbacks ceilingConfig #v[.equal] #v[0] #v[1] halfwayFirst
      #v[#v[1], #v[1]] _ ⟨1 / 4, [-1 / 4]⟩ :=
    minimised_of_yields (segment_jacobianAt 0) halfway_minimize halfway_evaluate
  have hfailed : ¬ halfwayFirst.Succeeds ceilingConfig #v[.equal] #v[#v[1], #v[1]]
      ⟨#v[1 / 4], 9 / 16, some 4, 1, .iterationLimit, #[5 / 4, 9 / 16]⟩ #v[-1 / 4] := by
    rintro ⟨hmeasure, -⟩
    change measure halfwayRows #v[-1 / 4] ≤ _ at hmeasure
    rw [halfway_measure] at hmeasure
    norm_num [ceilingConfig, Config.default] at hmeasure
  have hobjective : ¬ (1 / 4 : ℝ) < unboundedObjective := by
    norm_num [unboundedObjective]
  exact run_outerIteration hminimised (by decide) rfl hfailed hobjective (by decide)

theorem halfway_exhaustedCode (norm : Option ℝ) :
    exhaustedCode ceilingConfig 10.0
      ⟨⟨1 / 4, [-1 / 4]⟩, measure halfwayRows #v[-1 / 4], norm⟩ = .infeasible := by
  rw [halfway_measure, exhaustedCode, if_neg, if_pos]
  · norm_num [ceilingConfig, Config.default]
  · rintro ⟨hmeasure, -⟩
    norm_num [ceilingConfig, Config.default] at hmeasure

/-- The run says infeasible after one step, which halved the infeasibility. -/
theorem run_halfway_solve :
    segmentCallbacks.run (solve ceilingConfig halfway) =
      some (.ok ⟨2, [1 / 4], 1 / 4, [-1 / 4], [-5 / 2], 1, [1 / 4]⟩) := by
  refine (run_solve_once (segment_checkedStart _) rfl run_halfway_outerIteration rfl
    (halfway_exhaustedCode _)).trans ?_
  have hmultipliers : updateMultipliers halfwayRows #v[-1 / 4] = #v[-5 / 2] :=
    halfway_updateMultipliers (by norm_num)
  show some (Except.ok (record .infeasible #v[1 / 4] ⟨1 / 4, [-1 / 4]⟩
    (updateMultipliers halfwayRows #v[-1 / 4]) 1 #[1 / 4])) = _
  rw [hmultipliers]
  rfl

theorem ceiling_validate : ceilingConfig.validate = .ok () := by
  simp [Config.validate, ceilingConfig, Config.default, requirePositive]
  norm_num
  rfl

/-- Why the run half the way says infeasible: no iteration has stalled, but the iterations are used
up. -/
theorem halfway_explained :
    segmentCallbacks.run (solve ceilingConfig halfway) =
        some (.ok ⟨2, [1 / 4], 1 / 4, [-1 / 4], [-5 / 2], 1, [1 / 4]⟩) ∧
      ∃ (start : Start ℝ halfway.dimension) (rounds : List (Round ℝ)),
        halfway.checkedStart = .ok start ∧ 1 = rounds.length ∧
        Rounds segmentCallbacks ceilingConfig ⟨halfway.rows.toArray, rfl⟩ start.lower start.upper
          (.first ceilingConfig start.point)
          ⟨2, [1 / 4], 1 / 4, [-1 / 4], [-5 / 2], 1, [1 / 4]⟩ rounds ∧
        (stallLimit ≤ rounds.countP (·.stalled ceilingConfig) ∨
          rounds.length = ceilingConfig.maxOuter ∧ ∃ r, rounds.getLast? = some r ∧
            ceilingConfig.constraintTolerance < r.measure ∧
            ceilingConfig.penaltyMax ≤ r.raised ceilingConfig) :=
  ⟨run_halfway_solve, infeasible_explained Exact.capped ceiling_validate run_halfway_solve rfl⟩

/-- The problem half the way is feasible, and yet its run says infeasible after a single outer
iteration. -/
theorem halfway_not_stalled :
    ceilingConfig.validate = .ok () ∧
      segmentCallbacks.run (solve ceilingConfig halfway) =
        some (.ok ⟨ReturnCode.infeasible.toInt, [1 / 4], 1 / 4, [-1 / 4], [-5 / 2], 1, [1 / 4]⟩) ∧
      (∀ rounds : List (Round ℝ),
        Rounds segmentCallbacks ceilingConfig #v[.equal] #v[0] #v[1] (.first ceilingConfig #v[0])
            ⟨ReturnCode.infeasible.toInt, [1 / 4], 1 / 4, [-1 / 4], [-5 / 2], 1, [1 / 4]⟩ rounds →
          ¬ stallLimit ≤ rounds.countP (·.stalled ceilingConfig)) ∧
      segmentCallbacks.evaluate [1 / 2] = .ok ⟨1 / 2, [0]⟩ := by
  refine ⟨ceiling_validate, run_halfway_solve, fun rounds hrounds hstalls => ?_, ?_⟩
  · have hfew : stallLimit ≤ 1 :=
      (hstalls.trans List.countP_le_length).trans_eq hrounds.iterations_eq.symm
    exact absurd hfew (by decide)
  show Except.ok (Values.mk (1 / 2) [(1 / 2 : ℝ) - 1 / 2]) = _
  rw [sub_self]

end AugmentedLagrangian

end Nlp
