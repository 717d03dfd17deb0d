import Nlp.Proofs.Solver.Curvature
import Nlp.Proofs.Solver.Merit
import Nlp.Proofs.Solver.Outer
import Nlp.Proofs.Solver.Walk

/-!
# The minimisation inside an outer iteration

An outer iteration minimises the merit of its callbacks, and remembers the values it was given last.
In exact arithmetic that memory changes no answer, and so the minimisation comes to what it can come
to on the merit and its gradient; and the other way round, from what it can come to there, the whole
iteration is known.

## Main definitions

* `Faithful`: what is remembered is what the callbacks give.
* `IsMerit`, `IsMeritGradient`, `merits`: the merit of the callbacks, and its gradient.

## Main results

* `ensures_minimize`: the minimisation of a merit over the callbacks, with its memory.
* `run_valuesAt_of_same`: values that are looked up, whatever is remembered, in any arithmetic.
* `Minimised.yields`, `minimised_of_yields`: what the minimisation comes to.
* `run_outerIteration`, `run_outerIteration_succeeded`: an outer iteration that goes on or succeeds.
-/

namespace Nlp.AugmentedLagrangian

variable {ε : Type} {n m : Nat} {P : PureCallbacks ℝ ε} {config : Config ℝ}
  {senses : Vector Sense m} {lower upper : Vector ℝ n} {s : Outer ℝ n m}
  {jacobian : Vector (Vector ℝ n) (1 + m)} {inner : Minimize.Outcome ℝ n} {values : Values ℝ}

/-- The values in the cache are those at its point. -/
def Faithful (P : PureCallbacks ℝ ε) (cache : Cache ℝ n) : Prop :=
  ∀ point values, cache = some (point, values) → P.evaluate point.toList = .ok values

/-- Every result is as given, and leaves a faithful cache. -/
def ensuresCached (P : PureCallbacks ℝ ε) (n : Nat) : Always (StateT (Cache ℝ n) (Run ℝ ε)) :=
  P.ensures.state (Faithful P)

theorem ensures_valuesAt (x : Vector ℝ n) :
    (ensuresCached P n).holds (valuesAt x) fun values => P.evaluate x.toList = .ok values := by
  have hfound := holds_valuesAt_of_evaluate P.ensures (fun x values => P.evaluate x = .ok values)
    (PureCallbacks.ensures_evaluate x.toList)
  refine (ensuresCached P n).mono _ ?_ hfound
  rintro values ⟨y, hy, hvalues⟩
  rcases hy with rfl | hsame
  · exact hvalues
  · rwa [← Exact.samePoint_iff.mp hsame]

/-- The Jacobian at a point, with the shape the rows ask for. -/
def JacobianAt (P : PureCallbacks ℝ ε) (x : Vector ℝ n)
    (jacobian : Vector (Vector ℝ n) (1 + m)) : Prop :=
  ∃ a, P.jacobian x.toList = .ok a ∧ a.shaped? (1 + m) n = some jacobian

theorem ensures_jacobianAt (x : Vector ℝ n) :
    P.ensures.holds (do Run.shaped (← Run.jacobian x.toList) (1 + m) n)
      (JacobianAt (m := m) P x) := by
  refine P.ensures.bind _ _ (P.ensures.mono _ ?_ (PureCallbacks.ensures_jacobian x.toList))
  intro a ha
  exact P.ensures.mono _ (fun _ hshaped => ⟨a, ha, hshaped⟩) (PureCallbacks.ensures_shaped a _ n)

/-- The merit at a point, which has values for no more constraints than there are rows. -/
def IsMerit (P : PureCallbacks ℝ ε) (p : Penalised ℝ m) (x : Vector ℝ n) (merit : ℝ) : Prop :=
  ∃ values, P.evaluate x.toList = .ok values ∧ values.constraints.length ≤ m ∧
    merit = meritValue p values

/-- The gradient of the merit at a point. -/
def IsMeritGradient (P : PureCallbacks ℝ ε) (p : Penalised ℝ m) (x g : Vector ℝ n) : Prop :=
  ∃ values jacobian, P.evaluate x.toList = .ok values ∧ values.constraints.length ≤ m ∧
    JacobianAt P x jacobian ∧ g = meritGradient p values.constraints jacobian

theorem ensures_answer (p : Penalised ℝ m) (lower upper : Vector ℝ n) (c : MeritCall ℝ n) :
    (ensuresCached P n).holds (answer p c)
      ((Minimize.Merited lower upper (IsMerit P p) (IsMeritGradient P p)).replies c) := by
  cases c with
  | value x =>
    exact holds_answer_value_of_parts P.ensures p (ensures_valuesAt x) fun _ _ _ _ =>
      PureCallbacks.ensures_outOfRange _ _ _
  | gradient x =>
    exact holds_answer_gradient_of_parts P.ensures p (ensures_valuesAt x) (ensures_jacobianAt x)
      fun _ _ _ _ => PureCallbacks.ensures_outOfRange _ _ _
  | report event =>
    exact P.ensures.holds_lift_state _ (PureCallbacks.ensures_report event)

theorem ensures_minimize (p : Penalised ℝ m) (lower upper start : Vector ℝ n)
    (settings : Minimize.Settings ℝ) :
    (ensuresCached P n).holds ((minimize lower upper start settings).interpret (answer p))
      (Minimize.Ended lower upper (IsMerit P p) (IsMeritGradient P p) settings.tolerance) :=
  Program.Meets.interpret _ (fun c _ => ensures_answer p lower upper c) (minimize_meets start)

/-- The merit, and its gradient, where the callbacks have them. -/
def merits (P : PureCallbacks ℝ ε) (p : Penalised ℝ m) : Contract (merit ℝ n) where
  asks _ := True
  replies
    | .value x, v => IsMerit P p x v
    | .gradient x, g => IsMeritGradient P p x g
    | .report _, _ => True

theorem ensures_merits (p : Penalised ℝ m) (c : MeritCall ℝ n) :
    (ensuresCached P n).holds (answer p c) ((merits P p).replies c) := by
  have h := ensures_answer (P := P) p 0 0 c
  cases c with
  | value x => exact h
  | gradient x => exact h
  | report event => exact h

/-- The minimisation of an outer iteration comes to its end on the merit of the callbacks, and the
values are those at the end. -/
theorem Minimised.yields (h : Minimised P config senses lower upper s jacobian inner values) :
    (minimize lower upper s.point (innerSettings config jacobian)).Yields
        (merits P (s.rows senses)) inner ∧
      P.evaluate inner.point.toList = .ok values := by
  obtain ⟨cache, cache', hminimize, hvalues⟩ := h.ended
  have hyields := Program.yields_interpret (ensuresCached P n) (fun _ => trivial)
    (ensures_merits (s.rows senses)) (minimize lower upper s.point (innerSettings config jacobian))
  obtain ⟨hinner, hcache⟩ :=
    PureCallbacks.of_run (hyields none fun _ _ hnone => nomatch hnone) hminimize
  exact ⟨hinner, (PureCallbacks.of_run (ensures_valuesAt inner.point cache hcache) hvalues).1⟩

/-! ## From the replies to a run -/

/-- The values at a point are found there, whatever is remembered of points that have the same. -/
theorem run_valuesAt_of_same {α : Type} [Scalar α] {P : PureCallbacks α ε} {x : Vector α n}
    {values : Values α} (hvalues : P.evaluate x.toList = .ok values)
    (hsame : ∀ y, samePoint y x.toList = true → P.evaluate y = P.evaluate x.toList)
    {cache : Cache α n} (hcache : Cache.Holds (fun y v => P.evaluate y = .ok v) cache) :
    ∃ cache', Cache.Holds (fun y v => P.evaluate y = .ok v) cache' ∧
      P.run ((valuesAt x).run cache) = some (.ok (values, cache')) := by
  have hasked : Cache.Holds (fun y v => P.evaluate y = .ok v) (some (x, values)) := by
    rintro _ _ ⟨⟩
    exact hvalues
  have hask : P.run (StateT.run (do
        let values ← StateT.lift (Run.evaluate x.toList)
        set (some (x, values) : Cache α n)
        return values) cache) = some (.ok (values, some (x, values))) := by
    refine PureCallbacks.run_bind_state_eq_ok.mpr ⟨(values, cache), ?_, rfl⟩
    exact PureCallbacks.run_bind_eq_ok.mpr ⟨values, PureCallbacks.run_evaluate hvalues, rfl⟩
  -- a remembered value may be of a point that is only numerically the same
  cases cache with
  | none => exact ⟨_, hasked, hask⟩
  | some entry =>
    obtain ⟨point, found⟩ := entry
    by_cases hpoint : samePoint point.toList x.toList = true
    · have hfound : P.evaluate x.toList = .ok found := by
        rw [← hsame _ hpoint]
        exact hcache point found rfl
      obtain rfl : found = values := Except.ok.inj (hfound.symm.trans hvalues)
      refine ⟨_, hcache, ?_⟩
      show P.run (StateT.run (if samePoint point.toList x.toList then pure _ else _) _) = _
      rw [if_pos hpoint]
      rfl
    · refine ⟨_, hasked, ?_⟩
      show P.run (StateT.run (if samePoint point.toList x.toList then pure _ else _) _) = _
      rw [if_neg hpoint]
      exact hask

section

variable {α : Type} [Scalar α] {P : PureCallbacks α ε} {p : Penalised α m} {x : Vector α n}
  {values : Values α} {cache cache' : Cache α n}

/-- The answers of a merit are computed from values that are found, if there are not more of these
than rows. -/
theorem run_answer_value (hfound : P.run ((valuesAt x).run cache) = some (.ok (values, cache')))
    (hlength : values.constraints.length ≤ m) :
    P.run ((answer p (.value x)).run cache) = some (.ok ((meritValue p values : α), cache')) := by
  refine PureCallbacks.run_bind_state_eq_ok.mpr ⟨_, hfound, ?_⟩
  exact congrArg (fun x => P.run (StateT.run x cache')) (if_neg (not_lt.mpr hlength))

theorem run_answer_gradient {jacobian : Vector (Vector α n) (1 + m)}
    (hfound : P.run ((valuesAt x).run cache) = some (.ok (values, cache')))
    (hlength : values.constraints.length ≤ m)
    (hjacobian : P.run (do Run.shaped (← Run.jacobian x.toList) (1 + m) n) =
      some (.ok jacobian)) :
    P.run ((answer p (.gradient x)).run cache) =
      some (.ok ((meritGradient p values.constraints jacobian : Vector α n), cache')) := by
  refine PureCallbacks.run_bind_state_eq_ok.mpr ⟨_, hfound, ?_⟩
  refine PureCallbacks.run_bind_state_eq_ok.mpr ⟨(jacobian, cache'), ?_, ?_⟩
  · exact PureCallbacks.run_bind_eq_ok.mpr ⟨_, hjacobian, rfl⟩
  · exact congrArg (fun x => P.run (StateT.run x cache')) (if_neg (not_lt.mpr hlength))

omit [Scalar α] in
theorem run_shaped_jacobian {a : Matrix α} {jacobian : Vector (Vector α n) (1 + m)}
    (ha : P.jacobian x.toList = .ok a) (hshaped : a.shaped? (1 + m) n = some jacobian) :
    P.run (do Run.shaped (← Run.jacobian x.toList) (1 + m) n) = some (.ok jacobian) :=
  PureCallbacks.run_bind_eq_ok.mpr
    ⟨a, PureCallbacks.run_jacobian ha, PureCallbacks.run_shaped hshaped⟩

end

/-- In exact arithmetic, these are just the point itself. -/
theorem run_valuesAt {x : Vector ℝ n} (hvalues : P.evaluate x.toList = .ok values)
    {cache : Cache ℝ n} (hcache : Faithful P cache) :
    ∃ cache', Faithful P cache' ∧ P.run ((valuesAt x).run cache) = some (.ok (values, cache')) :=
  run_valuesAt_of_same hvalues (fun _ hpoint => by rw [Exact.samePoint_iff.mp hpoint]) hcache

theorem run_merits (p : Penalised ℝ m) (c : MeritCall ℝ n) (reply : (merit ℝ n).Reply c)
    (cache : Cache ℝ n) (hcache : Faithful P cache) (h : (merits P p).replies c reply) :
    ∃ cache', Faithful P cache' ∧
      P.run ((answer p c).run cache) = some (.ok (reply, cache')) := by
  cases c with
  | value x =>
    obtain ⟨values, hvalues, hlength, rfl⟩ := h
    obtain ⟨cache', hcache', hrun⟩ := run_valuesAt hvalues hcache
    exact ⟨cache', hcache', run_answer_value hrun hlength⟩
  | gradient x =>
    obtain ⟨values, jacobian, hvalues, hlength, ⟨a, ha, hshaped⟩, rfl⟩ := h
    obtain ⟨cache', hcache', hrun⟩ := run_valuesAt hvalues hcache
    exact ⟨cache', hcache', run_answer_gradient hrun hlength (run_shaped_jacobian ha hshaped)⟩
  | report event => exact ⟨cache, hcache, rfl⟩

/-- The minimisation of an outer iteration, from what it can come to. -/
theorem minimised_of_yields (hjacobian : JacobianAt P s.point jacobian)
    (hyields : (minimize lower upper s.point (innerSettings config jacobian)).Yields
      (merits P (s.rows senses)) inner)
    (hvalues : P.evaluate inner.point.toList = .ok values) :
    Minimised P config senses lower upper s jacobian inner values := by
  have hfaithful : Faithful P (none : Cache ℝ n) := fun _ _ hnone => nomatch hnone
  obtain ⟨cache, hcache, hminimize⟩ :=
    PureCallbacks.run_interpret_state_of_yields (run_merits (s.rows senses)) hyields hfaithful
  obtain ⟨cache', -, hrun⟩ := run_valuesAt hvalues hcache
  exact ⟨hjacobian, cache, cache', hminimize, hrun⟩

theorem values_isFinite (v : Values ℝ) : v.isFinite = true := by
  simp [Values.isFinite]

section

variable {outer : Nat} {constraints : Vector ℝ m}
  (h : Minimised P config senses lower upper s jacobian inner values)
  (hstop : inner.stop ≠ .nonFinite)
  (hrows : vectorOf? m (values.constraints.take m) = some constraints)
include h hstop hrows

/-- An outer iteration whose minimisation ends in numbers comes to its conclusion. -/
theorem run_outerIteration_of_conclusion {next : Next ℝ n m}
    (hnext : Conclusion config senses outer s jacobian inner values constraints next) :
    P.run (outerIteration config senses lower upper outer s) = some (.ok next) :=
  run_of_turn (.numbers h (not_or.mpr ⟨hstop, not_not.mpr (values_isFinite values)⟩) hrows hnext)

/-- An outer iteration that goes on, from the minimisation inside it. -/
theorem run_outerIteration (hfailed : ¬ s.Succeeds config senses jacobian inner constraints)
    (hobjective : ¬ values.objective < unboundedObjective)
    (hstalled : ¬ stallLimit ≤ (s.next config senses jacobian inner values constraints).stalled) :
    P.run (outerIteration config senses lower upper outer s) =
      some (.ok (.goesOn (s.next config senses jacobian inner values constraints))) :=
  run_outerIteration_of_conclusion h hstop hrows (.goesOn hfailed hobjective hstalled)

/-- An outer iteration that succeeds, from the minimisation inside it. -/
theorem run_outerIteration_succeeded
    (hsuccess : s.Succeeds config senses jacobian inner constraints) :
    P.run (outerIteration config senses lower upper outer s) =
      some (.ok (.ended (s.ended senses outer inner values constraints .succeeded))) :=
  run_outerIteration_of_conclusion h hstop hrows (.succeeded hsuccess)

end

end Nlp.AugmentedLagrangian
