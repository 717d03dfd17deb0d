import Nlp.Proofs.Solver.Merit
import Nlp.Proofs.Solver.Record
import Nlp.Proofs.Solver.Stall

/-!
# Penalty and multipliers along a run

Besides its point, an outer iteration moves three things: the multipliers, the penalty and the count
of stalls.  Each is moved in a branch of its own, and a run can end between them.  In exact
arithmetic the penalty stays between its first value and its ceiling and never falls, the count is
below the limit wherever there is another iteration, and no multiplier of an inequality is negative.

The measure of an iteration is computed from the multipliers before the update, the update comes
after it, and both tell the rows apart by sense.  They belong together all the same: the measure is
the largest change of a multiplier, in units of the penalty.

What is said here takes nothing from the callbacks, which may answer anything at any time.

## Main definitions

* `Outer.Sound`: what holds of each of them.
* `Outer.Updates`: what an outer iteration makes of its state.

## Main results

* `rowMeasure_eq`, `measure_eq`: the measure as a change of the multipliers.
* `le_adapt`, `adapt_le`: the penalty grows, up to its ceiling.
* `Conclusion.updates`: one iteration.
* `Arrives.sound`: all iterations.
* `solve_updates`: whole runs.
-/

namespace Nlp

/-- The senses of the rows. -/
abbrev Layout.senses {α : Type} (problem : Layout α) : Vector Sense problem.rows.length :=
  problem.rows.toArray.toVector

/-- In exact arithmetic there is nothing but numbers to stop at. -/
theorem Exact.stop_of_yields {n : Nat} {C : Contract (merit ℝ n)} {lower upper start : Vector ℝ n}
    {settings : Minimize.Settings ℝ} {o : Minimize.Outcome ℝ n}
    (h : (minimize lower upper start settings).Yields C o) : o.stop ≠ .nonFinite := by
  obtain ⟨value, -, hfinite, -⟩ | ⟨k, norm, s, -, hend | rfl⟩ := minimize_yields h
  · exact absurd rfl hfinite
  · cases iterateOnce_yields hend with
    | nonFinite hnumbers =>
      rw [any_not_isFinite] at hnumbers
      cases hnumbers
    | converged | lineSearchFailed | smallStep => exact nofun
  · exact nofun

namespace AugmentedLagrangian

variable {ε : Type} {n m : Nat}

/-! ## The measure of an update -/

section

variable {p : Penalised ℝ m} {v : Vector ℝ m} {j : Fin m}

theorem updateMultipliers_equal (hj : p.senses.get j = .equal) :
    (updateMultipliers p v).get j = p.multipliers.get j + p.penalty * v.get j := by
  rw [updateMultipliers, entry_ofFn, hj]
  rfl

/-- The multiplier of an inequality moves by the same number that the measure looks at, times the
penalty: where it is cut off at zero, that number is cut off, too. -/
theorem updateMultipliers_atMost_sub (hpenalty : 0 < p.penalty) (hj : p.senses.get j = .atMost) :
    (updateMultipliers p v).get j - p.multipliers.get j =
      p.penalty * max (v.get j) (-p.multipliers.get j / p.penalty) := by
  have hshift : p.penalty * (-p.multipliers.get j / p.penalty) = 0 - p.multipliers.get j := by
    rw [mul_div_cancel₀ _ hpenalty.ne', zero_sub]
  rw [updateMultipliers_atMost hj, mul_max_of_nonneg _ _ hpenalty.le, hshift, ← max_sub_sub_right,
    add_sub_cancel_left]

/-- What a row adds to the measure is the change of its multiplier, in units of the penalty. -/
theorem rowMeasure_eq (hpenalty : 0 < p.penalty) (j : Fin m) :
    rowMeasure p v j =
      |(updateMultipliers p v).get j - p.multipliers.get j| / p.penalty := by
  have hmove {a : ℝ}
      (h : (updateMultipliers p v).get j - p.multipliers.get j = p.penalty * a) :
      |a| = |(updateMultipliers p v).get j - p.multipliers.get j| / p.penalty := by
    rw [h, abs_mul, abs_of_pos hpenalty, mul_div_cancel_left₀ _ hpenalty.ne']
  rw [rowMeasure]
  cases hj : p.senses.get j with
  | equal =>
    refine hmove ?_
    rw [updateMultipliers_equal hj, add_sub_cancel_left]
  | atMost => exact hmove (updateMultipliers_atMost_sub hpenalty hj)

/-- The measure is the largest change of a multiplier, in units of the penalty; without rows there
is none. -/
theorem measure_eq (hpenalty : 0 < p.penalty) :
    measure p v = infNorm (updateMultipliers p v - p.multipliers) / p.penalty := by
  -- both are maxima, and so are compared by what bounds them
  refine eq_of_forall_ge_iff fun b => ?_
  rw [measure_le_iff, div_le_iff₀ hpenalty, Exact.infNorm_le_iff,
    mul_nonneg_iff_of_pos_right hpenalty]
  refine and_congr_right fun _ => forall_congr' fun j => ?_
  rw [rowMeasure_eq hpenalty, div_le_iff₀ hpenalty, Exact.get_sub, Pi.sub_apply]

end

/-! ## The penalty -/

section

variable {config : Config ℝ} {penalty : ℝ} (previous : Option ℝ) (stalled : Nat) (measure : ℝ)

theorem le_adapt (hgrowth : 1 < config.penaltyGrowth) (hpenalty : 0 < penalty)
    (hceiling : penalty ≤ config.penaltyMax) :
    penalty ≤ (adapt config penalty previous stalled measure).1 := by
  have hgrown : penalty ≤ min (penalty * config.penaltyGrowth) config.penaltyMax :=
    le_min (le_mul_of_one_le_right hpenalty.le hgrowth.le) hceiling
  unfold adapt
  split
  · split
    · exact hgrown
    · split <;> exact le_refl penalty
  · exact le_refl penalty

theorem adapt_le (hceiling : penalty ≤ config.penaltyMax) :
    (adapt config penalty previous stalled measure).1 ≤ config.penaltyMax := by
  unfold adapt
  split
  · split
    · exact min_le_right _ _
    · split <;> exact hceiling
  · exact hceiling

end

/-! ## One iteration -/

section

variable {config : Config ℝ} {senses : Vector Sense m} {outer : Nat} {s : Outer ℝ n m}
  {jacobian : Vector (Vector ℝ n) (1 + m)} {inner : Minimize.Outcome ℝ n} {values : Values ℝ}
  {constraints : Vector ℝ m} {next : Next ℝ n m}

/-- What holds of the state at the top of every outer iteration. -/
structure Outer.Sound (config : Config ℝ) (senses : Vector Sense m) (s : Outer ℝ n m) : Prop where
  /-- The penalty is between its first value and its ceiling. -/
  penalty : s.penalty ∈ Set.Icc config.penaltyInit config.penaltyMax
  /-- There have not been as many stalls as end a run. -/
  stalled : s.stalled < stallLimit
  /-- No multiplier of an inequality is negative. -/
  nonneg : ∀ j : Fin m, senses.get j = .atMost → 0 ≤ s.multipliers.get j

/-- The multipliers after an outer iteration from `s` that ends with these values of the rows. -/
noncomputable def Outer.moved (senses : Vector Sense m) (s : Outer ℝ n m)
    (constraints : Vector ℝ m) : Vector ℝ m :=
  updateMultipliers (s.rows senses) constraints

/-- What an outer iteration from `s` that ends with these values of the rows makes of the state. -/
structure Outer.Updates (config : Config ℝ) (senses : Vector Sense m) (s : Outer ℝ n m)
    (constraints : Vector ℝ m) (next : Next ℝ n m) : Prop where
  /-- The measure of the iteration is the largest change of a multiplier, in units of the
  penalty. -/
  measure : measure (s.rows senses) constraints =
    infNorm (s.moved senses constraints - s.multipliers) / s.penalty
  /-- No multiplier of an inequality becomes negative. -/
  nonneg : ∀ j : Fin m, senses.get j = .atMost → 0 ≤ (s.moved senses constraints).get j
  /-- If the run ends with the iteration, it returns these multipliers. -/
  ended : ∀ t, next = .ended t → t.multipliers = (s.moved senses constraints).toList
  /-- If it goes on, it does so with these multipliers, with that measure, and with a penalty that
  is not less. -/
  goesOn : ∀ s', next = .goesOn s' → s'.Sound config senses ∧ s.penalty ≤ s'.penalty ∧
    s'.multipliers = s.moved senses constraints ∧
    s'.previous = some (infNorm (s'.multipliers - s.multipliers) / s.penalty)

theorem Outer.Sound.first (hconfig : config.Valid) (point : Vector ℝ n) :
    (Outer.first config point).Sound config senses where
  penalty := ⟨le_refl _, hconfig.ceiling⟩
  stalled := show 0 < stallLimit by decide
  nonneg j _ := by
    show 0 ≤ (0 : Vector ℝ m).get j
    rw [Exact.get_zero, Pi.zero_apply]

/-- Whatever an outer iteration comes to after its minimisation, it has updated the multipliers, and
its measure belongs to that update. -/
theorem Conclusion.updates (hconfig : config.Valid) (hs : s.Sound config senses)
    (h : Conclusion config senses outer s jacobian inner values constraints next) :
    s.Updates config senses constraints next := by
  have hpenalty : 0 < s.penalty := hconfig.penaltyInit.1.trans_le hs.penalty.1
  have hmeasure : measure (s.rows senses) constraints =
      infNorm (s.moved senses constraints - s.multipliers) / s.penalty :=
    measure_eq (p := s.rows senses) hpenalty
  have hnonneg : ∀ j : Fin m, senses.get j = .atMost → 0 ≤ (s.moved senses constraints).get j :=
    fun _ hj => updateMultipliers_nonneg (p := s.rows senses) hj
  refine ⟨hmeasure, hnonneg, ?_, ?_⟩
  · rintro t rfl
    cases h with
    | succeeded | unbounded | infeasible => rfl
  -- only an iteration that goes on adapts the penalty, and never to a smaller one
  · rintro s' rfl
    cases h with
    | goesOn _ _ hstalled =>
      have hgrows : s.penalty ≤
          (adapt config s.penalty s.previous s.stalled (measure (s.rows senses) constraints)).1 :=
        le_adapt _ _ _ hconfig.growth hpenalty hs.penalty.2
      exact ⟨⟨⟨hs.penalty.1.trans hgrows, adapt_le _ _ _ hs.penalty.2⟩, not_le.mp hstalled,
        hnonneg⟩, hgrows, rfl, congrArg some hmeasure⟩

variable {lower upper : Vector ℝ n} {C : Contract (callbacks ℝ ε)}

/-- In exact arithmetic every outer iteration that comes to something has numbers to conclude
from. -/
theorem replying_conclusion (hasks : ∀ c, C.asks c) (senses : Vector Sense m) (outer : Nat)
    (s : Outer ℝ n m) :
    (replying C).holds (outerIteration config senses lower upper outer s) fun next =>
      ∃ jacobian inner values constraints,
        C.ValuesAt (Vector.toList inner.point) values ∧
        vectorOf? m (values.constraints.take m) = some constraints ∧
        Conclusion config senses outer s jacobian inner values constraints next := by
  refine holds_outerIteration_of_parts _ (fun inner => inner.stop ≠ .nonFinite)
    (fun inner => C.ValuesAt inner.point.toList) ?_ (fun a => ?_) (replying_report hasks)
    Cache.holds_none (fun settings _ => ?_) (fun inner _ => replying_valuesAt hasks inner.point)
    (fun inner values hstop _ hnumber => ?_) (fun _ _ _ _ _ _ => replying_outOfRange hasks _ _ _)
    fun jacobian inner values constraints _ hvalues _ hrows => ?_
  · exact (replying C).mono _ (fun _ _ => trivial) (replying_jacobian hasks _)
  · exact (replying C).mono _ (fun _ _ => trivial) (replying_shaped a _ _)
  · -- the minimisation does not stop at a value that is no number, whatever its merit answers
    have hends : (minimize lower upper s.point settings).Meets (.anything _)
        fun inner => inner.stop ≠ .nonFinite :=
      (Program.meets_anything (minimize lower upper s.point settings)).yields.mono
        fun _ hyields => Exact.stop_of_yields hyields
    refine hends.interpret (recalling C n) fun c _ => ?_
    exact (recalling C n).mono _ (fun _ _ => trivial) (replying_answer hasks _ c)
  · exact absurd (values_isFinite values) (hnumber.resolve_left hstop)
  · exact (replying C).mono _ (fun next hnext => ⟨jacobian, inner, values, constraints, hvalues,
      hrows, hnext⟩) (holds_conclude_conclusion (replying_report hasks))

end

/-! ## Whole runs -/

section

variable {α : Type} [Scalar α] {C : Contract (callbacks α ε)} {config : Config α}
  {senses : Vector Sense m} {lower upper : Vector α n} {first : Outer α n m}

/-- A run whose iterations are used up returns the multipliers it has come to. -/
theorem replying_exhausted (hasks : ∀ c, C.asks c) (k : Nat) (s : Outer α n m) :
    (replying C).holds (exhausted config k s) fun t => t.multipliers = s.multipliers.toList := by
  have hfinish (code : ReturnCode) (values : Values α) (iterations : Nat) :
      (replying C).holds (finish config code s.point values s.multipliers iterations s.history)
        fun t => t.multipliers = s.multipliers.toList := by
    refine (replying C).mono _ ?_ (holds_finish_record (replying_report hasks) _ _ _ _ _ _)
    rintro _ rfl
    rfl
  rw [exhausted]
  split
  · exact (replying C).chain (replying_evaluate hasks _) fun values _ => hfinish _ values 0
  · exact hfinish _ _ k

end

section

variable {config : Config ℝ} {C : Contract (callbacks ℝ ε)} {senses : Vector Sense m}
  {lower upper point : Vector ℝ n} {k : Nat} {s : Outer ℝ n m} {next : Next ℝ n m}

/-- An outer iteration that comes to something makes an update. -/
theorem Outer.Sound.updates (hasks : ∀ c, C.asks c) (hconfig : config.Valid)
    (hs : s.Sound config senses)
    (hnext : (outerIteration config senses lower upper k s).run.Yields C (.ok next)) :
    ∃ jacobian inner values constraints,
      C.ValuesAt (Vector.toList inner.point) values ∧
      vectorOf? m (values.constraints.take m) = some constraints ∧
      Conclusion config senses k s jacobian inner values constraints next ∧
      s.Updates config senses constraints next := by
  obtain ⟨jacobian, inner, values, constraints, hvalues, hrows, hconclusion⟩ :=
    (replying_conclusion hasks senses k s).of_yields hnext next rfl
  exact ⟨jacobian, inner, values, constraints, hvalues, hrows, hconclusion,
    hconclusion.updates hconfig hs⟩

/-- The states of a run are sound, from the first one on. -/
theorem Arrives.sound (hasks : ∀ c, C.asks c) (hconfig : config.Valid)
    (hs : Arrives C config senses lower upper (.first config point) k s) :
    s.Sound config senses := by
  induction hs with
  | start => exact .first hconfig point
  | step _ hnext ih =>
    obtain ⟨_, _, _, _, -, -, -, hupdates⟩ := ih.updates hasks hconfig hnext
    exact (hupdates.goesOn _ rfl).1

end

/-- Along a run with a valid configuration, whatever it is answered, the state at the top of every
outer iteration is sound, and every iteration makes an update of it.  The multipliers that the run
returns are those of its last update, and none of an inequality is negative. -/
theorem solve_updates {config : Config ℝ} (hvalid : config.validate = .ok ())
    {C : Contract (callbacks ℝ ε)} (hasks : ∀ c, C.asks c) (problem : Layout ℝ) :
    (∀ (start : Start ℝ problem.dimension), problem.checkedStart = .ok start →
      ∀ k s, Arrives C config problem.senses start.lower start.upper (.first config start.point)
          k s →
        s.Sound config problem.senses ∧
        ∀ next, (outerIteration config problem.senses start.lower start.upper k s).run.Yields C
            (.ok next) →
          ∃ jacobian inner values constraints,
            C.ValuesAt (Vector.toList inner.point) values ∧
            vectorOf? problem.rows.length (values.constraints.take problem.rows.length) =
              some constraints ∧
            Conclusion config problem.senses k s jacobian inner values constraints next ∧
            s.Updates config problem.senses constraints next) ∧
    ∀ t, (solve config problem).run.Yields C (.ok t) →
      ∃ (start : Start ℝ problem.dimension) (k : Nat) (s : Outer ℝ _ problem.rows.length)
          (multipliers : Vector ℝ problem.rows.length),
        problem.checkedStart = .ok start ∧
        Arrives C config problem.senses start.lower start.upper (.first config start.point) k s ∧
        ((outerIteration config problem.senses start.lower start.upper k s).run.Yields C
            (.ok (.ended t)) ∨
          k = config.maxOuter ∧ multipliers = s.multipliers) ∧
        t.multipliers = multipliers.toList ∧
        ∀ j, problem.senses.get j = .atMost → 0 ≤ multipliers.get j := by
  have hconfig := Config.valid_of_validate hvalid
  constructor
  · intro start _ k s hs
    have hsound := hs.sound hasks hconfig
    exact ⟨hsound, fun next hnext => hsound.updates hasks hconfig hnext⟩
  intro t ht
  unfold solve at ht
  split at ht
  · cases ht
  next start hstart =>
  split at ht
  · -- without room for its history a run has no result
    obtain ⟨reply, -⟩ := ht
    exact reply.elim
  obtain ⟨k, s, hs, hend | ⟨hk, hend⟩⟩ := outerIterations_yields .start ht
  · obtain ⟨_, _, _, constraints, -, -, -, hupdates⟩ :=
      (hs.sound hasks hconfig).updates hasks hconfig hend
    exact ⟨start, k, s, _, hstart, hs, .inl hend, hupdates.ended t rfl, hupdates.nonneg⟩
  · -- after the last iteration there is no update more
    have hmultipliers := (replying_exhausted hasks k s).of_yields hend t rfl
    exact ⟨start, k, s, s.multipliers, hstart, hs, .inr ⟨hk.trans (Nat.zero_add _), rfl⟩,
      hmultipliers, (hs.sound hasks hconfig).nonneg⟩

/-- Half the way there is one iteration.  It moves the multiplier of the equality from zero to
`-5/2`, which is its measure `1/4` in units of the penalty. -/
theorem halfway_updates :
    ceilingConfig.validate = .ok () ∧ (∀ c, segmentCallbacks.contract.asks c) ∧
      ∃ next : Outer ℝ 1 1, next.multipliers = #v[-5 / 2] ∧ next.previous = some (1 / 4) ∧
        Arrives segmentCallbacks.contract ceilingConfig halfway.senses #v[0] #v[1] halfwayFirst 1
          next ∧
        next.Sound ceilingConfig halfway.senses ∧
        (∃ constraints,
          halfwayFirst.Updates ceilingConfig halfway.senses constraints (.goesOn next)) ∧
        ∃ multipliers : Vector ℝ 1, [-5 / 2] = multipliers.toList ∧
          ∀ j, halfway.senses.get j = .atMost → 0 ≤ multipliers.get j := by
  have hasks : ∀ c, segmentCallbacks.contract.asks c := fun _ => trivial
  have hnext := PureCallbacks.run_eq_some.mp run_halfway_outerIteration
  have harrives : Arrives segmentCallbacks.contract ceilingConfig halfway.senses #v[0] #v[1]
      halfwayFirst 1 _ :=
    .step .start hnext
  obtain ⟨hstates, hends⟩ := solve_updates ceiling_validate hasks halfway
  obtain ⟨-, hfirst⟩ := hstates _ (segment_checkedStart _) 0 halfwayFirst .start
  obtain ⟨hsound, -⟩ := hstates _ (segment_checkedStart _) 1 _ harrives
  obtain ⟨_, _, _, constraints, -, -, -, hupdates⟩ := hfirst _ hnext
  obtain ⟨_, _, _, multipliers, -, -, -, hmultipliers, hnonneg⟩ :=
    hends _ (PureCallbacks.run_eq_some.mp run_halfway_solve)
  exact ⟨ceiling_validate, hasks, _, halfway_updateMultipliers (by norm_num),
    congrArg some halfway_measure, harrives, hsound, ⟨constraints, hupdates⟩, multipliers,
    hmultipliers, hnonneg⟩

end AugmentedLagrangian

end Nlp
