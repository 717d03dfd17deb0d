import Nlp.Proofs.Solver.Callbacks
import Nlp.Solver.AugmentedLagrangian

/-!
# One outer iteration

What an outer iteration of the augmented Lagrangian solver on pure callbacks can come to, said once
and with everything it has tested: it ends at a value that is no number, in success, below every
bound, or at the stall limit, and otherwise it goes on from the point of its minimisation.  A run is
made of such iterations, and of one end more when they are used up.

Nothing here depends on the arithmetic.

## Main definitions

* `Outer.next`: the state after an outer iteration that goes on.
* `Turn`: what an outer iteration can come to, and `Conclusion`, if it ends in numbers.
* `Arrives`: the states at the tops of the outer iterations, on replies of a contract.

## Main results

* `holds_conclude_conclusion`: what comes after a minimisation that ended in numbers, whatever the
  run is answered.
* `outerIteration_turn`: an outer iteration comes to one of its turns; `run_of_turn`, the converse.
* `exhausted_eq_ok`: the end of a run whose iterations are used up.
* `solve_eq_ok`, `run_solve_once`, `outerIterations_yields`: whole runs.
-/

namespace Nlp.AugmentedLagrangian

variable {α ε : Type} [Scalar α] {n m : Nat} {P : PureCallbacks α ε}

/-- The record of a run that ends with this code at this point. -/
def record (code : ReturnCode) (x : Vector α n) (values : Values α) (multipliers : Vector α m)
    (iterations : Nat) (history : Array α) : Termination α :=
  ⟨code.toInt, x.toList, values.objective, values.constraints, multipliers.toList, iterations,
    history.toList⟩

omit [Scalar α] in
theorem run_finish (config : Config α) (code : ReturnCode) (x : Vector α n) (values : Values α)
    (multipliers : Vector α m) (iterations : Nat) (history : Array α) :
    P.run (finish config code x values multipliers iterations history) =
      some (.ok (record code x values multipliers iterations history)) := by
  unfold finish
  split <;> rfl

/-- The constraint rows of the outer iteration from `s`. -/
def Outer.rows (senses : Vector Sense m) (s : Outer α n m) : Penalised α m :=
  ⟨senses, s.multipliers, s.penalty⟩

/-- The settings of the minimisation of an outer iteration that begins with this Jacobian. -/
def innerSettings (config : Config α) (jacobian : Vector (Vector α n) (1 + m)) :
    Minimize.Settings α where
  maxIterations := config.maxInner
  tolerance := config.tolerance * gradientScale jacobian
  maxStepRatio := config.maxStepRatio
  verbose := decide (5 ≤ config.printLevel)

/-- The state after an outer iteration from `s` that goes on. -/
def Outer.next (config : Config α) (senses : Vector Sense m) (s : Outer α n m)
    (jacobian : Vector (Vector α n) (1 + m)) (inner : Minimize.Outcome α n) (values : Values α)
    (constraints : Vector α m) : Outer α n m :=
  let measure := measure (s.rows senses) constraints
  let adapted := adapt config s.penalty s.previous s.stalled measure
  { point := inner.point
    multipliers := updateMultipliers (s.rows senses) constraints
    penalty := adapted.1
    previous := some measure
    stalled := adapted.2
    history := s.history.push values.objective
    last := some ⟨values, measure, inner.gradientNorm.map (· / gradientScale jacobian)⟩ }

/-! ## The end of a minimisation in numbers -/

section

variable (config : Config α) (senses : Vector Sense m) (outer : Nat) (s : Outer α n m)
  (jacobian : Vector (Vector α n) (1 + m)) (inner : Minimize.Outcome α n) (values : Values α)
  (constraints : Vector α m)

/-- The record of a run that ends after the outer iteration of number `outer`. -/
def Outer.ended (code : ReturnCode) : Termination α :=
  record code inner.point values (updateMultipliers (s.rows senses) constraints) (outer + 1)
    (s.history.push values.objective)

/-- The test for success: the measure and the projected gradient are within their tolerances. -/
def Outer.Succeeds : Prop :=
  measure (s.rows senses) constraints ≤ config.constraintTolerance ∧
    inner.gradientNorm.any fun norm => decide (norm ≤ config.tolerance * gradientScale jacobian)

/-- What an outer iteration whose minimisation ended in numbers can come to. -/
inductive Conclusion : Next α n m → Prop
  | succeeded (hsuccess : s.Succeeds config senses jacobian inner constraints) :
    Conclusion (.ended (s.ended senses outer inner values constraints .succeeded))
  | unbounded (hfailed : ¬ s.Succeeds config senses jacobian inner constraints)
      (hobjective : values.objective < unboundedObjective) :
    Conclusion (.ended (s.ended senses outer inner values constraints .diverging))
  | infeasible (hfailed : ¬ s.Succeeds config senses jacobian inner constraints)
      (hobjective : ¬ values.objective < unboundedObjective)
      (hstalled : stallLimit ≤ (s.next config senses jacobian inner values constraints).stalled) :
    Conclusion (.ended (s.ended senses outer inner values constraints .infeasible))
  | goesOn (hfailed : ¬ s.Succeeds config senses jacobian inner constraints)
      (hobjective : ¬ values.objective < unboundedObjective)
      (hstalled : ¬ stallLimit ≤ (s.next config senses jacobian inner values constraints).stalled) :
    Conclusion (.goesOn (s.next config senses jacobian inner values constraints))

end

variable {config : Config α} {senses : Vector Sense m} {lower upper : Vector α n} {outer : Nat}
  {s : Outer α n m} {jacobian : Vector (Vector α n) (1 + m)} {inner : Minimize.Outcome α n}
  {values : Values α} {constraints : Vector α m} {next : Next α n m}

section

variable {A : Always (Run α ε)} (hreport : ∀ p, A.holds (Run.report p) fun _ => True)
include hreport

omit [Scalar α] in
theorem holds_finish_record (code : ReturnCode) (x : Vector α n) (values : Values α)
    (multipliers : Vector α m) (iterations : Nat) (history : Array α) :
    A.holds (finish config code x values multipliers iterations history) fun t =>
      t = record code x values multipliers iterations history := by
  rw [finish]
  refine A.ite (fun _ => ?_) fun _ => A.pure _ rfl
  exact A.seq (hreport _) fun _ => A.pure _ rfl

/-- After a minimisation that ended in numbers there is one of these conclusions, whatever the run
is answered. -/
theorem holds_conclude_conclusion :
    A.holds (conclude config (s.rows senses) outer s (gradientScale jacobian) inner values
      constraints) (Conclusion config senses outer s jacobian inner values constraints) := by
  have hended {code : ReturnCode} (hcode : Conclusion config senses outer s jacobian inner values
      constraints (.ended (s.ended senses outer inner values constraints code))) :
      A.holds (.ended <$> finish config code inner.point values
        (updateMultipliers (s.rows senses) constraints) (outer + 1)
        (s.history.push values.objective) : Run α ε (Next α n m))
        (Conclusion config senses outer s jacobian inner values constraints) := by
    refine A.map (A.mono _ ?_ (holds_finish_record hreport _ _ _ _ _ _))
    rintro _ rfl
    exact hcode
  rw [conclude]
  refine A.ite (fun hsuccess => hended (.succeeded hsuccess)) fun hfailed => ?_
  refine A.ite (fun hobjective => hended (.unbounded hfailed hobjective)) fun hobjective => ?_
  refine A.ite (fun hstalled => hended (.infeasible hfailed hobjective hstalled)) fun hstalled => ?_
  exact A.pure _ (.goesOn hfailed hobjective hstalled)

end

omit [Scalar α] in
theorem run_ended {code : ReturnCode} {x : Vector α n} {multipliers : Vector α m} {iterations : Nat}
    {history : Array α}
    (h : P.run (.ended <$> finish config code x values multipliers iterations history) =
      some (.ok next)) :
    next = .ended (record code x values multipliers iterations history) := by
  rw [map_eq_pure_bind, PureCallbacks.run_bind, run_finish] at h
  exact (Except.ok.inj (Option.some.inj h)).symm

theorem conclude_eq_ok
    (h : P.run (conclude config (s.rows senses) outer s (gradientScale jacobian) inner values
      constraints) = some (.ok next)) :
    Conclusion config senses outer s jacobian inner values constraints next :=
  PureCallbacks.of_run (holds_conclude_conclusion PureCallbacks.ensures_report) h

/-- And each of these conclusions there is. -/
theorem run_conclude
    (h : Conclusion config senses outer s jacobian inner values constraints next) :
    P.run (conclude config (s.rows senses) outer s (gradientScale jacobian) inner values
      constraints) = some (.ok next) := by
  have hended (code : ReturnCode) : P.run (.ended <$> finish config code inner.point values
        (updateMultipliers (s.rows senses) constraints) (outer + 1)
        (s.history.push values.objective)) =
      some (.ok (.ended (s.ended senses outer inner values constraints code) : Next α n m)) := by
    rw [map_eq_pure_bind, PureCallbacks.run_bind, run_finish]
    rfl
  rw [conclude]
  dsimp only
  -- the tests are made in this order, and each conclusion knows how they have come out
  cases h with
  | succeeded hsuccess =>
    unfold Outer.Succeeds at hsuccess
    rw [if_pos hsuccess]
    exact hended _
  | unbounded hfailed hobjective =>
    unfold Outer.Succeeds at hfailed
    rw [if_neg hfailed, if_pos hobjective]
    exact hended _
  | infeasible hfailed hobjective hstalled =>
    unfold Outer.Succeeds at hfailed
    rw [if_neg hfailed, if_neg hobjective, if_pos]
    · exact hended _
    · exact hstalled
  | goesOn hfailed hobjective hstalled =>
    unfold Outer.Succeeds at hfailed
    rw [if_neg hfailed, if_neg hobjective, if_neg]
    · rfl
    · exact hstalled

/-! ## An iteration -/

/-- The outer iteration from `s` has begun with this Jacobian, its minimisation has ended, and these
are the values at the point where it did. -/
structure Minimised (P : PureCallbacks α ε) (config : Config α) (senses : Vector Sense m)
    (lower upper : Vector α n) (s : Outer α n m) (jacobian : Vector (Vector α n) (1 + m))
    (inner : Minimize.Outcome α n) (values : Values α) : Prop where
  begun : ∃ a, P.jacobian s.point.toList = .ok a ∧ a.shaped? (1 + m) n = some jacobian
  ended : ∃ cache cache',
    P.run (((minimize lower upper s.point (innerSettings config jacobian)).interpret
      (answer (s.rows senses))).run none) = some (.ok (inner, cache)) ∧
    P.run ((valuesAt inner.point).run cache) = some (.ok (values, cache'))

/-- What the outer iteration of number `outer` from `s` can come to. -/
inductive Turn (P : PureCallbacks α ε) (config : Config α) (senses : Vector Sense m)
    (lower upper : Vector α n) (outer : Nat) (s : Outer α n m) : Next α n m → Prop
  | nonFinite {jacobian : Vector (Vector α n) (1 + m)} {inner : Minimize.Outcome α n}
      {values : Values α} (h : Minimised P config senses lower upper s jacobian inner values)
      (hnumber : inner.stop = .nonFinite ∨ ¬ values.isFinite) :
    Turn P config senses lower upper outer s
      (.ended (record .diverging inner.point values s.multipliers (outer + 1)
        (s.history.push values.objective)))
  | numbers {jacobian : Vector (Vector α n) (1 + m)} {inner : Minimize.Outcome α n}
      {values : Values α} {constraints : Vector α m} {next : Next α n m}
      (h : Minimised P config senses lower upper s jacobian inner values)
      (hnumber : ¬ (inner.stop = .nonFinite ∨ ¬ values.isFinite))
      (hrows : vectorOf? m (values.constraints.take m) = some constraints)
      (hnext : Conclusion config senses outer s jacobian inner values constraints next) :
    Turn P config senses lower upper outer s next

theorem outerIteration_turn
    (h : P.run (outerIteration config senses lower upper outer s) = some (.ok next)) :
    Turn P config senses lower upper outer s next := by
  obtain ⟨a, ha, h⟩ := PureCallbacks.run_bind_eq_ok.mp h
  obtain ⟨jacobian, hjacobian, h⟩ := PureCallbacks.run_bind_eq_ok.mp h
  obtain ⟨⟨inner, cache⟩, hminimize, h⟩ := PureCallbacks.run_bind_eq_ok.mp h
  obtain ⟨⟨values, cache'⟩, hvalues, h⟩ := PureCallbacks.run_bind_eq_ok.mp h
  have hended : Minimised P config senses lower upper s jacobian inner values :=
    ⟨⟨a, PureCallbacks.of_run (PureCallbacks.ensures_jacobian _) ha,
      PureCallbacks.of_run (PureCallbacks.ensures_shaped _ _ _) hjacobian⟩,
      cache, cache', hminimize, hvalues⟩
  dsimp only at h
  split at h
  · next hnumber =>
    obtain ⟨_, -, h⟩ := PureCallbacks.run_bind_eq_ok.mp h
    obtain rfl := run_ended h
    exact .nonFinite hended hnumber
  next hnumber =>
  split at h
  · exact (PureCallbacks.of_run (PureCallbacks.ensures_outOfRange _ _ fun _ => False) h).elim
  next constraints hrows =>
  -- the report differs, but not what comes after it
  split at h
  · obtain ⟨_, -, h⟩ := PureCallbacks.run_bind_eq_ok.mp h
    exact .numbers hended hnumber hrows (conclude_eq_ok h)
  · obtain ⟨_, -, h⟩ := PureCallbacks.run_bind_eq_ok.mp h
    exact .numbers hended hnumber hrows (conclude_eq_ok h)

/-- An iteration that can come to something does, as the callbacks are pure. -/
theorem run_of_turn (h : Turn P config senses lower upper outer s next) :
    P.run (outerIteration config senses lower upper outer s) = some (.ok next) := by
  -- the two kinds of turns have their minimisation in common
  have hparts : ∃ jacobian inner values,
      Minimised P config senses lower upper s jacobian inner values ∧
      ((inner.stop = .nonFinite ∨ ¬ values.isFinite) ∧
          next = .ended (record .diverging inner.point values s.multipliers (outer + 1)
            (s.history.push values.objective)) ∨
        ¬ (inner.stop = .nonFinite ∨ ¬ values.isFinite) ∧ ∃ constraints,
          vectorOf? m (values.constraints.take m) = some constraints ∧
          Conclusion config senses outer s jacobian inner values constraints next) := by
    cases h with
    | nonFinite h hnumber => exact ⟨_, _, _, h, .inl ⟨hnumber, rfl⟩⟩
    | numbers h hnumber hrows hnext => exact ⟨_, _, _, h, .inr ⟨hnumber, _, hrows, hnext⟩⟩
  obtain ⟨jacobian, inner, values, ⟨⟨a, ha, hshaped⟩, cache, cache', hminimize, hvalues⟩, hends⟩ :=
    hparts
  refine PureCallbacks.run_bind_eq_ok.mpr ⟨a, PureCallbacks.run_jacobian ha, ?_⟩
  refine PureCallbacks.run_bind_eq_ok.mpr ⟨jacobian, PureCallbacks.run_shaped hshaped, ?_⟩
  refine PureCallbacks.run_bind_eq_ok.mpr ⟨(inner, cache), hminimize, ?_⟩
  refine PureCallbacks.run_bind_eq_ok.mpr ⟨(values, cache'), hvalues, ?_⟩
  dsimp only
  rcases hends with ⟨hnumber, rfl⟩ | ⟨hnumber, constraints, hrows, hnext⟩
  · rw [if_pos hnumber]
    refine PureCallbacks.run_bind_eq_ok.mpr ⟨(), rfl, ?_⟩
    rw [map_eq_pure_bind, PureCallbacks.run_bind, run_finish]
    rfl
  · rw [if_neg hnumber, hrows]
    dsimp only
    split
    · exact PureCallbacks.run_bind_eq_ok.mpr ⟨(), rfl, run_conclude hnext⟩
    · exact PureCallbacks.run_bind_eq_ok.mpr ⟨(), rfl, run_conclude hnext⟩

/-! ## The end of a run -/

/-- A run whose iterations are used up after some ends with what the last one found. -/
theorem exhausted_eq_ok {k : Nat} {found : Found α} (hlast : s.last = some found)
    {t : Termination α} (h : P.run (exhausted config k s) = some (.ok t)) :
    t = record (exhaustedCode config s.penalty found) s.point found.values s.multipliers k
      s.history := by
  unfold exhausted at h
  rw [hlast] at h
  exact (Except.ok.inj (Option.some.inj ((run_finish _ _ _ _ _ _ _).symm.trans h))).symm

/-- A run without any iteration reports just that. -/
theorem exhausted_first_eq_ok {k : Nat} (hlast : s.last = none) {t : Termination α}
    (h : P.run (exhausted config k s) = some (.ok t)) :
    t.code = ReturnCode.iterationLimit.toInt ∧ t.iterations = 0 := by
  unfold exhausted at h
  rw [hlast] at h
  obtain ⟨values, -, h⟩ := PureCallbacks.run_bind_eq_ok.mp h
  obtain rfl := Except.ok.inj (Option.some.inj ((run_finish _ _ _ _ _ _ _).symm.trans h))
  exact ⟨rfl, rfl⟩

/-- A run that comes to an end has made the iterations from its checked start. -/
theorem solve_eq_ok {problem : Layout α} {t : Termination α}
    (h : P.run (solve config problem) = some (.ok t)) :
    ∃ start, problem.checkedStart = .ok start ∧
      P.run (outerIterations config ⟨problem.rows.toArray, rfl⟩ start.lower start.upper
        config.maxOuter 0 (.first config start.point)) = some (.ok t) := by
  unfold solve at h
  split at h
  · exact (PureCallbacks.of_run (PureCallbacks.ensures_refuse _ fun _ => False) h).elim
  next start hstart =>
  split at h
  · exact (PureCallbacks.of_run (PureCallbacks.ensures_outOfRange _ _ fun _ => False) h).elim
  · exact ⟨start, hstart, h⟩

/-- A run of one iteration, which goes on, ends with what that found. -/
theorem run_solve_once {problem : Layout α} {start : Start α problem.dimension}
    (hstart : problem.checkedStart = .ok start) (hmost : config.maxOuter = 1)
    {next : Outer α problem.dimension problem.rows.length} {found : Found α}
    (hnext : P.run (outerIteration config ⟨problem.rows.toArray, rfl⟩ start.lower start.upper 0
      (.first config start.point)) = some (.ok (.goesOn next)))
    (hlast : next.last = some found) {code : ReturnCode}
    (hcode : exhaustedCode config next.penalty found = code) :
    P.run (solve config problem) =
      some (.ok (record code next.point found.values next.multipliers 1 next.history)) := by
  have hroom : ¬ historyCapacity < config.maxOuter := by
    rw [hmost]
    decide
  rw [solve, hstart]
  dsimp only
  rw [if_neg hroom, hmost, outerIterations]
  refine PureCallbacks.run_bind_eq_ok.mpr ⟨_, hnext, ?_⟩
  dsimp only
  rw [outerIterations, exhausted, hlast, ← hcode]
  exact run_finish _ _ _ _ _ _ _

/-! ## Whole runs -/

/-- The states at the tops of the outer iterations, on replies of the contract, with their
numbers. -/
inductive Arrives {ε : Type} {n m : Nat} {α : Type} [Scalar α] (C : Contract (callbacks α ε))
    (config : Config α) (senses : Vector Sense m) (lower upper : Vector α n)
    (first : Outer α n m) : Nat → Outer α n m → Prop
  | start : Arrives C config senses lower upper first 0 first
  | step {outer : Nat} {s next : Outer α n m} :
    Arrives C config senses lower upper first outer s →
    (outerIteration config senses lower upper outer s).run.Yields C (.ok (.goesOn next)) →
    Arrives C config senses lower upper first (outer + 1) next

/-- A run ends in an outer iteration, or in the state that is left when they are used up. -/
theorem outerIterations_yields {C : Contract (callbacks α ε)} {first : Outer α n m}
    {outer remaining : Nat} {s : Outer α n m}
    (hs : Arrives C config senses lower upper first outer s) {t : Termination α}
    (h : (outerIterations config senses lower upper remaining outer s).run.Yields C (.ok t)) :
    ∃ k last, Arrives C config senses lower upper first k last ∧
      ((outerIteration config senses lower upper k last).run.Yields C (.ok (.ended t)) ∨
        k = outer + remaining ∧ (exhausted config k last).run.Yields C (.ok t)) := by
  -- on the iterations that are left: either this one ends the run, or the next is reached
  induction remaining generalizing outer s with
  | zero => exact ⟨outer, s, hs, .inr ⟨rfl, h⟩⟩
  | succ remaining ih =>
    obtain ⟨next, hnext, hrest⟩ := Run.yields_bind.mp h
    cases next with
    | ended t' =>
      obtain ⟨⟩ := hrest
      exact ⟨outer, s, hs, .inl hnext⟩
    | goesOn next =>
      obtain ⟨k, last, hlast, hend⟩ := ih (hs.step hnext) hrest
      rw [Nat.add_right_comm] at hend
      exact ⟨k, last, hlast, hend⟩

end Nlp.AugmentedLagrangian
