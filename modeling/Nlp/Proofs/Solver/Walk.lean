import Nlp.Proofs.Contract
import Nlp.Proofs.Solver.Basic
import Nlp.Proofs.Solver.Minimize
import Nlp.Solver.AugmentedLagrangian
import Nlp.Solver.ProjectedBfgs

/-!
# The steps of a solver run

What is proved of all runs of the solvers, whatever they are answered, is proved of their calls
first, and then of their steps one after the other.  The second part is always the same.  It is done
here once, for every reading of "all results have this property" that covers the calls at good
points, and for every region that the minimisations do not leave.  The box is such a region in any
arithmetic; where more is known of the arithmetic, smaller ones are.

## Main definitions

* `Always.Answers`, `Always.Covers`: the reading covers the calls of a run, at good points.
* `Minimize.Confined`: the minimisations over a box do not leave the region.
* `AugmentedLagrangian.Cache.Holds`: the values that a merit remembers are as a reading has them.
* `Termination.Fits`: what the record of a run holds, whatever the run comes to.

## Main results

* `Minimize.confined_of_inBox`: no minimisation leaves its box.
* `Always.holds_minimize`: the minimisation over a box, for any reading of its merit.
* `AugmentedLagrangian.holds_answer_value_of_parts`,
  `AugmentedLagrangian.holds_answer_gradient_of_parts`: the answers of a merit, from the values that
  are found.
* `AugmentedLagrangian.holds_outerIteration_of_parts`: an outer iteration, from its minimisation and
  the ways in which it can end.
* `AugmentedLagrangian.holds_run_of_confined`, `ProjectedBfgs.holds_run_of_confined`: the runs of
  the solvers, in any region; `AugmentedLagrangian.holds_run`, `ProjectedBfgs.holds_run`, in the
  box.
-/

namespace Nlp

variable {α ε : Type}

/-- The reading covers the calls of a run: values, which are then as `fits` says, and Jacobians at
good points, reports and refusals. -/
structure Always.Answers (A : Always (Run α ε)) (good : List α → Prop) (fits : Values α → Prop) :
    Prop where
  evaluate : ∀ x, good x → A.holds (Run.evaluate x) fits
  jacobian : ∀ x, good x → A.holds (Run.jacobian x) fun _ => True
  report : ∀ p, A.holds (Run.report p) fun _ => True
  refuse : ∀ {β : Type} (e : SolverError α) (post : β → Prop), e.Checked →
    A.holds (Run.refuse e) post

/-- The reading covers the calls of a run, and its end if it goes astray because there is not one
value for each row. -/
structure Always.Covers (A : Always (Run α ε)) (good : List α → Prop) (rows : Nat)
    (fits : Values α → Prop) : Prop extends A.Answers good fits where
  astray : ∀ {β : Type} (values : Values α) (index size : Nat) (post : β → Prop),
    fits values → values.constraints.length ≠ rows → A.holds (Run.outOfRange index size) post

/-- The record has an entry for each variable, a multiplier for each row, and values that fit. -/
structure Termination.Fits (t : Termination α) (dimension rows : Nat) (fits : Values α → Prop) :
    Prop where
  point : t.point.length = dimension
  values : fits ⟨t.objective, t.constraints⟩
  multipliers : t.multipliers.length = rows

/-- The run ends at a point of the region. -/
def Termination.EndsIn {n : Nat} (t : Termination α) (region : Vector α n → Prop) : Prop :=
  ∃ x, region x ∧ t.point = x.toList

section

variable {A : Always (Run α ε)} {good : List α → Prop} {fits : Values α → Prop}

theorem Always.Answers.shaped (hA : A.Answers good fits) (a : Matrix α) {height width : Nat} :
    A.holds (Run.shaped a height width) fun _ => True := by
  rw [Run.shaped]
  split
  · exact A.pure _ trivial
  · split
    · exact hA.refuse _ _ (show "jacobian rows" ∈ checkedLengths by decide)
    · exact hA.refuse _ _ (show "jacobian columns" ∈ checkedLengths by decide)

end

/-! ## Regions -/

namespace Minimize

variable {n : Nat} {lower upper : Vector α n}

/-- Only points of the region may be asked for, and anything may be answered. -/
def Within (region : Vector α n → Prop) : Contract (merit α n) where
  asks
    | .value x | .gradient x => region x
    | .report _ => True
  replies _ _ := True

/-- A minimisation over the box that starts in the region and bounds its steps by this ratio asks at
points of the region only, and ends at one. -/
def Confined [Scalar α] (lower upper : Vector α n) (ratio : α) (region : Vector α n → Prop) :
    Prop :=
  ∀ start settings, region start → settings.maxStepRatio = ratio →
    (minimize lower upper start settings).Meets (Within region) fun o => region o.point

/-- No minimisation leaves its box, and so none leaves what the box is part of. -/
theorem confined_of_inBox [Scalar α] {region : Vector α n → Prop}
    (hregion : ∀ x, InBox lower upper x → region x) (ratio : α) :
    Confined lower upper ratio region := by
  intro start settings _ _
  -- which values and gradients the merit has does not matter
  have hmeets : (minimize lower upper start settings).Meets
      (Merited lower upper (fun _ _ => True) fun _ _ => True)
      (Ended lower upper (fun _ _ => True) (fun _ _ => True) settings.tolerance) :=
    minimize_meets start
  have hends := hmeets.mono fun o h => hregion o.point h.inBox
  refine hends.weaken (fun c hc => ?_) fun c reply _ => ?_
  · cases c with
    | value x => exact hregion x hc
    | gradient x => exact hregion x hc
    | report p => trivial
  · cases c <;> trivial

end Minimize

/-- The minimisation over a box asks for its merit at points of the region only, and ends at one. -/
theorem Always.holds_minimize [Scalar α] {m : Type → Type} [Monad m] (A : Always m) {n : Nat}
    {lower upper : Vector α n} {region : Vector α n → Prop} {ratio : α}
    (hconfined : Minimize.Confined lower upper ratio region)
    {answer : (c : MeritCall α n) → m ((merit α n).Reply c)}
    (hvalue : ∀ x, region x → A.holds (answer (.value x)) fun _ => True)
    (hgradient : ∀ x, region x → A.holds (answer (.gradient x)) fun _ => True)
    (hreport : ∀ p, A.holds (answer (.report p)) fun _ => True) {start : Vector α n}
    (hstart : region start) (settings : Minimize.Settings α)
    (hratio : settings.maxStepRatio = ratio) :
    A.holds ((minimize lower upper start settings).interpret answer) fun outcome =>
      region outcome.point := by
  refine (hconfined start settings hstart hratio).interpret A fun c hc => ?_
  cases c with
  | value x => exact hvalue x hc
  | gradient x => exact hgradient x hc
  | report p => exact hreport p

/-- The point is in the box of the layout. -/
def Layout.InBox [Scalar α] (problem : Layout α) (x : Vector α problem.dimension) : Prop :=
  ∀ start, problem.checkedStart = .ok start → Minimize.InBox start.lower start.upper x

/-- The checked start is in the box, and no minimisation over the box leaves it. -/
theorem Layout.inBox_confined [Scalar α] (problem : Layout α) {start : Start α problem.dimension}
    (hstart : problem.checkedStart = .ok start) (ratio : α) :
    problem.InBox start.point ∧
      Minimize.Confined start.lower start.upper ratio problem.InBox := by
  have hregion : problem.InBox = Minimize.InBox start.lower start.upper := by
    funext x
    refine propext ⟨fun hx => hx start hstart, fun hx start' hstart' => ?_⟩
    obtain rfl : start = start' := Except.ok.inj (hstart.symm.trans hstart')
    exact hx
  obtain ⟨-, -, -, hpoint⟩ := Layout.checkedStart_eq_ok hstart
  rw [hregion]
  exact ⟨hpoint, Minimize.confined_of_inBox (fun _ hx => hx) ratio⟩

/-! ## The augmented Lagrangian solver -/

namespace AugmentedLagrangian

variable [Scalar α] {n m : Nat} {lower upper : Vector α n} {region : Vector α n → Prop}
  {A : Always (Run α ε)} {good : List α → Prop} {fits : Values α → Prop}

/-- The values in the cache are as `isValues` has them at their point. -/
def Cache.Holds (isValues : List α → Values α → Prop) (cache : Cache α n) : Prop :=
  ∀ point values, cache = some (point, values) → isValues point.toList values

omit [Scalar α] in
theorem Cache.holds_none {isValues : List α → Values α → Prop} :
    Cache.Holds isValues (none : Cache α n) := by
  intro point values hsome
  cases hsome

/-- Values are those of a call at their point, or at a numerically equal point where there was a
call before. -/
theorem holds_valuesAt_of_evaluate (A : Always (Run α ε)) (isValues : List α → Values α → Prop)
    {x : Vector α n} (hask : A.holds (Run.evaluate x.toList) (isValues x.toList)) :
    (A.state (Cache.Holds isValues)).holds (valuesAt x) fun values =>
      ∃ y, (y = x.toList ∨ samePoint y x.toList = true) ∧ isValues y values := by
  have hasked : (A.state (Cache.Holds isValues)).holds
      (do
        let values ← StateT.lift (Run.evaluate x.toList)
        set (some (x, values) : Cache α n)
        return values : StateT (Cache α n) (Run α ε) (Values α))
      fun values => ∃ y, (y = x.toList ∨ samePoint y x.toList = true) ∧ isValues y values := by
    refine (A.state _).chain (A.holds_lift_state _ hask) fun values hvalues cache _ => ?_
    refine A.pure _ ⟨⟨x.toList, .inl rfl, hvalues⟩, ?_⟩
    rintro _ _ ⟨⟩
    exact hvalues
  intro cache hcache
  -- a value is either remembered from a numerically equal point or asked for here
  cases cache with
  | none => exact hasked none hcache
  | some entry =>
    obtain ⟨point, values⟩ := entry
    show A.holds ((if samePoint point.toList x.toList then pure values else _ :
      StateT (Cache α n) (Run α ε) (Values α)).run _) _
    split
    · next hsame =>
      exact A.pure _ ⟨⟨point.toList, .inr hsame, hcache point values rfl⟩, hcache⟩
    · exact hasked _ hcache

/-- The answers of a merit, part by part.  They are computed from values that are found, unless
there are more of these than rows. -/
theorem holds_answer_value_of_parts (A : Always (Run α ε)) {inv : Cache α n → Prop}
    {isValues : Values α → Prop} (p : Penalised α m) {x : Vector α n}
    (hvalues : (A.state inv).holds (valuesAt x) isValues)
    (hastray : ∀ values post, isValues values → m < values.constraints.length →
      A.holds (Run.outOfRange m m : Run α ε α) post) :
    (A.state inv).holds (answer p (.value x)) fun v : α =>
      ∃ values, isValues values ∧ values.constraints.length ≤ m ∧ v = meritValue p values := by
  refine (A.state inv).chain hvalues fun values hfound => ?_
  refine (A.state inv).ite (fun hlt => ?_) fun hle => ?_
  · exact A.holds_lift_state _ (hastray values _ hfound hlt)
  · exact (A.state inv).pure _ ⟨values, hfound, Nat.not_lt.mp hle, rfl⟩

theorem holds_answer_gradient_of_parts (A : Always (Run α ε)) {inv : Cache α n → Prop}
    {isValues : Values α → Prop} {isJacobian : Vector (Vector α n) (1 + m) → Prop}
    (p : Penalised α m) {x : Vector α n} (hvalues : (A.state inv).holds (valuesAt x) isValues)
    (hjacobian : A.holds (do Run.shaped (← Run.jacobian x.toList) (1 + m) n) isJacobian)
    (hastray : ∀ values post, isValues values → m < values.constraints.length →
      A.holds (Run.outOfRange m m : Run α ε (Vector α n)) post) :
    (A.state inv).holds (answer p (.gradient x)) fun g : Vector α n =>
      ∃ values jacobian, isValues values ∧ values.constraints.length ≤ m ∧ isJacobian jacobian ∧
        g = meritGradient p values.constraints jacobian := by
  refine (A.state inv).chain hvalues fun values hfound => ?_
  refine (A.state inv).chain (A.holds_lift_state _ hjacobian) fun jacobian hentries => ?_
  refine (A.state inv).ite (fun hlt => ?_) fun hle => ?_
  · exact A.holds_lift_state _ (hastray values _ hfound hlt)
  · exact (A.state inv).pure _ ⟨values, jacobian, hfound, Nat.not_lt.mp hle, hentries, rfl⟩

/-- An outer iteration, part by part.  It minimises, finds the values at the end, and if they are
numbers concludes from them. -/
theorem holds_outerIteration_of_parts (A : Always (Run α ε)) {config : Config α}
    {senses : Vector Sense m} {outer : Nat} {s : Outer α n m} {inv : Cache α n → Prop}
    {post : Next α n m → Prop} (isEnd : Minimize.Outcome α n → Prop)
    (isValues : Minimize.Outcome α n → Values α → Prop)
    (hjacobian : A.holds (Run.jacobian s.point.toList) fun _ => True)
    (hshaped : ∀ a, A.holds (Run.shaped a (1 + m) n) fun _ => True)
    (hreport : ∀ p, A.holds (Run.report p) fun _ => True) (hnone : inv none)
    (hminimize : ∀ settings : Minimize.Settings α, settings.maxStepRatio = config.maxStepRatio →
      (A.state inv).holds ((minimize lower upper s.point settings).interpret
        (answer ⟨senses, s.multipliers, s.penalty⟩)) isEnd)
    (hvalues : ∀ inner, isEnd inner →
      (A.state inv).holds (valuesAt inner.point) (isValues inner))
    (hdiverging : ∀ inner values, isEnd inner → isValues inner values →
      inner.stop = .nonFinite ∨ ¬ values.isFinite →
      A.holds (.ended <$> finish config .diverging inner.point values s.multipliers (outer + 1)
        (s.history.push values.objective) : Run α ε (Next α n m)) post)
    (hastray : ∀ inner values, isValues inner values →
      vectorOf? m (values.constraints.take m) = none → ∀ index size,
      A.holds (Run.outOfRange index size) post)
    (hconclude : ∀ (jacobian : Vector (Vector α n) (1 + m)) inner values constraints,
      isEnd inner → isValues inner values → values.isFinite = true →
      vectorOf? m (values.constraints.take m) = some constraints →
      A.holds (conclude config ⟨senses, s.multipliers, s.penalty⟩ outer s (gradientScale jacobian)
        inner values constraints) post) :
    A.holds (outerIteration config senses lower upper outer s) post := by
  refine A.seq hjacobian fun matrix => ?_
  refine A.seq (hshaped matrix) fun jacobian => ?_
  refine A.chain (hminimize _ rfl none hnone) ?_
  rintro ⟨inner, cache⟩ ⟨hinner, hcache⟩
  refine A.chain (hvalues inner hinner cache hcache) ?_
  rintro ⟨values, cache'⟩ ⟨hfound, -⟩
  refine A.ite (fun hnumber => ?_) fun hnumber => ?_
  · exact A.seq (hreport _) fun _ => hdiverging inner values hinner hfound hnumber
  have hfinite : values.isFinite = true := Decidable.not_not.mp (not_or.mp hnumber).2
  split
  · next hfew => exact hastray inner values hfound hfew _ _
  · next constraints hrows =>
    have hend := hconclude jacobian inner values constraints hinner hfound hfinite hrows
    refine A.ite (fun _ => ?_) fun _ => ?_
    · exact A.seq (hreport _) fun _ => hend
    · exact A.seq (hreport _) fun _ => hend

/-- The values in the cache fit. -/
def Cache.Fits (fits : Values α → Prop) (cache : Cache α n) : Prop :=
  ∀ point values, cache = some (point, values) → fits values

omit [Scalar α] in
theorem Cache.fits_none : Cache.Fits fits (none : Cache α n) := by
  intro point values hsome
  cases hsome

/-- The reading, of computations that leave a cache with values that fit. -/
abbrev cached (A : Always (Run α ε)) (fits : Values α → Prop) (n : Nat) :
    Always (StateT (Cache α n) (Run α ε)) :=
  A.state (Cache.Fits fits)

/-- The iterate is in the region, and the values found last fit. -/
structure Outer.Fits (region : Vector α n → Prop) (fits : Values α → Prop) (s : Outer α n m) :
    Prop where
  point : region s.point
  last : ∀ found, s.last = some found → fits found.values

/-- What an iteration comes to fits, and is in the region. -/
def Next.Fits (region : Vector α n → Prop) (fits : Values α → Prop) : Next α n m → Prop
  | .ended t => t.Fits n m fits ∧ t.EndsIn region
  | .goesOn s => s.Fits region fits

section

variable (hA : A.Covers good m fits)
include hA

theorem holds_valuesAt {x : Vector α n} (hx : good x.toList) :
    (cached A fits n).holds (valuesAt x) fits := by
  have hfound := holds_valuesAt_of_evaluate A (fun _ => fits) (hA.evaluate x.toList hx)
  exact (cached A fits n).mono _ (fun _ ⟨_, _, hvalues⟩ => hvalues) hfound

theorem holds_value (p : Penalised α m) {x : Vector α n} (hx : good x.toList) :
    (cached A fits n).holds (answer p (.value x)) fun v : α =>
      ∃ values, fits values ∧ values.constraints.length ≤ m ∧ v = meritValue p values :=
  holds_answer_value_of_parts A p (holds_valuesAt hA hx) fun values _ hvalues hlt =>
    hA.astray values m m _ hvalues (Nat.ne_of_gt hlt)

theorem holds_gradient (p : Penalised α m) {x : Vector α n} (hx : good x.toList) :
    (cached A fits n).holds (answer p (.gradient x)) fun _ => True :=
  (cached A fits n).mono _ (fun _ _ => trivial) (holds_answer_gradient_of_parts A p
    (holds_valuesAt hA hx) (A.seq (hA.jacobian _ hx) fun _ => hA.shaped _)
    fun values _ hvalues hlt => hA.astray values m m _ hvalues (Nat.ne_of_gt hlt))

omit [Scalar α] in
theorem holds_finish (config : Config α) (code : ReturnCode) {x : Vector α n} {values : Values α}
    (multipliers : Vector α m) (iterations : Nat) (history : Array α) (hx : region x)
    (hvalues : fits values) :
    A.holds (finish config code x values multipliers iterations history)
      fun t => t.Fits n m fits ∧ t.EndsIn region := by
  have hrecord : (Termination.mk code.toInt x.toList values.objective values.constraints
      multipliers.toList iterations history.toList).Fits n m fits :=
    ⟨Vector.length_toList, hvalues, Vector.length_toList⟩
  rw [finish]
  refine A.ite (fun _ => ?_) fun _ => A.pure _ ⟨hrecord, x, hx, rfl⟩
  exact A.seq (hA.report _) fun _ => A.pure _ ⟨hrecord, x, hx, rfl⟩

omit [Scalar α] in
theorem holds_ended (config : Config α) (code : ReturnCode) {x : Vector α n} {values : Values α}
    (multipliers : Vector α m) (iterations : Nat) (history : Array α) (hx : region x)
    (hvalues : fits values) :
    A.holds
      (.ended <$> finish config code x values multipliers iterations history : Run α ε (Next α n m))
      (Next.Fits region fits) :=
  A.map (holds_finish hA config code multipliers iterations history hx hvalues)

theorem holds_conclude (config : Config α) (penalised : Penalised α m) (outer : Nat)
    (s : Outer α n m) (size : α) {inner : Minimize.Outcome α n} {values : Values α}
    (constraints : Vector α m) (hinner : region inner.point) (hvalues : fits values) :
    A.holds (conclude config penalised outer s size inner values constraints)
      (Next.Fits region fits) := by
  rw [conclude]
  refine A.ite (fun _ => holds_ended hA _ _ _ _ _ hinner hvalues) fun _ => ?_
  refine A.ite (fun _ => holds_ended hA _ _ _ _ _ hinner hvalues) fun _ => ?_
  refine A.ite (fun _ => holds_ended hA _ _ _ _ _ hinner hvalues) fun _ => ?_
  refine A.pure _ ⟨hinner, ?_⟩
  rintro _ ⟨⟩
  exact hvalues

variable {config : Config α} (hgood : ∀ x, region x → good x.toList)
  (hconfined : Minimize.Confined lower upper config.maxStepRatio region)
include hgood hconfined

theorem holds_outerIteration (senses : Vector Sense m) (outer : Nat) {s : Outer α n m}
    (hs : s.Fits region fits) :
    A.holds (outerIteration config senses lower upper outer s) (Next.Fits region fits) := by
  refine holds_outerIteration_of_parts A (fun inner => region inner.point) (fun _ => fits)
    (hA.jacobian _ (hgood _ hs.point)) (fun a => hA.shaped a) hA.report Cache.fits_none
    (fun settings hratio => ?_) (fun inner hinner => holds_valuesAt hA (hgood _ hinner))
    (fun inner values hinner hvalues _ => holds_ended hA _ _ _ _ _ hinner hvalues)
    (fun inner values hvalues hfew index size => ?_)
    fun jacobian inner values constraints hinner hvalues _ _ =>
      holds_conclude hA _ _ _ _ _ _ hinner hvalues
  · exact (cached A fits n).holds_minimize hconfined
      (fun x hx => (cached A fits n).mono _ (fun _ _ => trivial)
        (holds_value hA ⟨senses, s.multipliers, s.penalty⟩ (hgood x hx)))
      (fun x hx => holds_gradient hA ⟨senses, s.multipliers, s.penalty⟩ (hgood x hx))
      (fun p => A.holds_lift_state _ (hA.report p)) hs.point settings hratio
  · -- too few values: those that are too many are cut off before
    refine hA.astray values _ _ _ hvalues fun hlength => ?_
    have hsome : vectorOf? m (values.constraints.take m) =
        some ⟨values.constraints.toArray, hlength⟩ :=
      vectorOf?_eq_some.mpr (List.take_of_length_le (Nat.le_of_eq hlength)).symm
    rw [hsome] at hfew
    cases hfew

theorem holds_outerIterations (senses : Vector Sense m) (remaining outer : Nat) {s : Outer α n m}
    (hs : s.Fits region fits) :
    A.holds (outerIterations config senses lower upper remaining outer s)
      fun t => t.Fits n m fits ∧ t.EndsIn region := by
  -- on the iterations that are left: each one starts where the one before it ended
  induction remaining generalizing outer s with
  | zero =>
    rw [outerIterations, exhausted]
    cases hlast : s.last with
    | none =>
      exact A.chain (hA.evaluate _ (hgood _ hs.point)) fun _ hvalues =>
        holds_finish hA _ _ _ _ _ hs.point hvalues
    | some found => exact holds_finish hA _ _ _ _ _ hs.point (hs.last found hlast)
  | succ remaining ih =>
    refine A.chain (holds_outerIteration hA hgood hconfined senses outer hs) fun next hnext => ?_
    cases next with
    | ended t => exact A.pure t hnext
    | goesOn s => exact ih (outer + 1) hnext

end

section

variable {problem : Layout α}

/-- The run is covered, and stays in the region, unless there is no room for a full history; no
reading is asked for that end, which no callback brings about. -/
theorem holds_run_of_confined {region : Vector α problem.dimension → Prop}
    (hA : A.Covers good problem.rows.length fits) {config : Config α}
    (hgood : ∀ start, problem.checkedStart = .ok start → ∀ x, region x → good x.toList)
    (hregion : ∀ start, problem.checkedStart = .ok start → config.validate = .ok () →
      region start.point ∧
        Minimize.Confined start.lower start.upper config.maxStepRatio region) :
    A.holds (run config problem)
        (fun t => t.Fits problem.dimension problem.rows.length fits ∧ t.EndsIn region) ∨
      ∃ index size, historyCapacity < config.maxOuter ∧
        run config problem = (Run.outOfRange index size : Run α ε _) := by
  rw [run]
  split
  · next e he => exact .inl (hA.refuse _ _ (Config.checked_of_validate he))
  next hvalid =>
  rw [solve]
  split
  · next e he => exact .inl (hA.refuse _ _ (Layout.checked_of_checkedStart he))
  next start hstart =>
  split
  · next hroom => exact .inr ⟨_, _, hroom, rfl⟩
  obtain ⟨hpoint, hconfined⟩ := hregion start hstart hvalid
  exact .inl (holds_outerIterations hA (hgood start hstart) hconfined _ _ _ ⟨hpoint, nofun⟩)

/-- The same of the box. -/
theorem holds_run (hA : A.Covers good problem.rows.length fits) (config : Config α)
    (hgood : ∀ start, problem.checkedStart = .ok start → ∀ x,
      Minimize.InBox start.lower start.upper x → good x.toList) :
    A.holds (run config problem) (fun t => t.Fits problem.dimension problem.rows.length fits) ∨
      ∃ index size, run config problem = (Run.outOfRange index size : Run α ε _) := by
  rcases holds_run_of_confined hA (fun start hstart x hx => hgood start hstart x (hx start hstart))
    (fun start hstart _ => problem.inBox_confined hstart config.maxStepRatio) with
    hrun | ⟨index, size, -, hrun⟩
  · exact .inl (A.mono _ (fun _ h => h.1) hrun)
  · exact .inr ⟨index, size, hrun⟩

end

end AugmentedLagrangian

/-! ## The projected BFGS solver -/

namespace ProjectedBfgs

variable [Scalar α] {n : Nat} {A : Always (Run α ε)} {good : List α → Prop}
  {fits : Values α → Prop}

section

variable (hA : A.Answers good fits)
include hA

omit [Scalar α] in
theorem holds_value {x : Vector α n} (hx : good x.toList) :
    A.holds (answer (.value x)) fun _ => True :=
  A.chain (hA.evaluate _ hx) fun _ _ => A.pure _ trivial

omit [Scalar α] in
theorem holds_gradient {x : Vector α n} (hx : good x.toList) :
    A.holds (answer (.gradient x)) fun _ => True := by
  refine A.seq (hA.jacobian _ hx) fun matrix => ?_
  exact A.seq (hA.shaped _) fun entries => A.pure _ trivial

/-- The run is covered, and stays in the region. -/
theorem holds_run_of_confined {problem : Layout α} {region : Vector α problem.dimension → Prop}
    {config : Config α}
    (hgood : ∀ start, problem.checkedStart = .ok start → ∀ x, region x → good x.toList)
    (hregion : ∀ start, problem.checkedStart = .ok start → config.validate = .ok () →
      region start.point ∧
        Minimize.Confined start.lower start.upper config.maxStepRatio region) :
    A.holds (run config problem)
      fun t => t.Fits problem.dimension 0 fits ∧ t.EndsIn region := by
  rw [run]
  split
  · next e he => exact hA.refuse _ _ (Config.checked_of_validate he)
  next hvalid =>
  rw [solve]
  refine A.ite (fun _ => hA.refuse _ _ trivial) fun _ => ?_
  split
  · next e he => exact hA.refuse _ _ (Layout.checked_of_checkedStart he)
  next start hstart =>
  obtain ⟨hpoint, hconfined⟩ := hregion start hstart hvalid
  have hbox := hgood start hstart
  -- the Jacobian at the start, the minimisation, and the values where it has ended
  refine A.seq (hA.jacobian _ (hbox _ hpoint)) fun matrix => ?_
  refine A.seq (hA.shaped _) fun initial => ?_
  have hminimize := A.holds_minimize hconfined (fun x hx => holds_value hA (hbox x hx))
    (fun x hx => holds_gradient hA (hbox x hx)) hA.report hpoint
  refine A.chain (hminimize _ rfl) fun outcome houtcome => ?_
  refine A.chain (hA.evaluate _ (hbox _ houtcome)) fun values hvalues => ?_
  have hrecord (code : ReturnCode) : (Termination.mk code.toInt outcome.point.toList
      values.objective values.constraints [] outcome.iterations
      outcome.trace.toList).Fits problem.dimension 0 fits :=
    ⟨Vector.length_toList, hvalues, rfl⟩
  refine A.ite (fun _ => ?_) fun _ => A.pure _ ⟨hrecord _, outcome.point, houtcome, rfl⟩
  exact A.seq (hA.report _) fun _ => A.pure _ ⟨hrecord _, outcome.point, houtcome, rfl⟩

/-- The same of the box. -/
theorem holds_run (config : Config α) {problem : Layout α}
    (hgood : ∀ start, problem.checkedStart = .ok start → ∀ x,
      Minimize.InBox start.lower start.upper x → good x.toList) :
    A.holds (run config problem) fun t => t.Fits problem.dimension 0 fits :=
  A.mono _ (fun _ h => h.1) <|
    holds_run_of_confined hA (fun start hstart x hx => hgood start hstart x (hx start hstart))
      fun _ hstart _ => problem.inBox_confined hstart config.maxStepRatio

end

end ProjectedBfgs

end Nlp
