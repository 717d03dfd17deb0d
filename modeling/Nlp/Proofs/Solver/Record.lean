import Nlp.Proofs.Solver.Iterates
import Nlp.Proofs.Solver.Outer
import Nlp.Proofs.Solver.Walk

/-!
# What a run records

A run writes its record as it goes along: each outer iteration adds the objective at its end to the
history, and so does each iteration of a minimisation to its trace, which begins with the merit at
the start.  What is said here of the records holds whatever the replies of the callbacks are, and in
any arithmetic.

## Main definitions

* `Contract.ValuesAt`: the values are a reply at a point, or at a numerically equal one.
* `Termination.Consistent`: a record that fits together.
* `AugmentedLagrangian.Trail`, `AugmentedLagrangian.Logged`: the outer iterations of a run, by the
  objectives at their ends.
* `Minimize.Entries`: the iterations of a minimisation, by the merits at their tops.
* `ProjectedBfgs.settings`, `ProjectedBfgs.record`: the minimisation of a run, and its record;
  `ProjectedBfgs.Reports`, the two together.

## Main results

* `AugmentedLagrangian.replying_outerIteration`: what an outer iteration adds to the record.
* `AugmentedLagrangian.replying_solve`, `ProjectedBfgs.replying_solve`: the records of whole runs.
* `Minimize.entries_of_yields`: the trace of a minimisation.
-/

namespace Nlp

variable {α ε β : Type}

/-- The values are a reply at this point, or at one that is numerically equal to it. -/
def Contract.ValuesAt [Scalar α] (C : Contract (callbacks α ε)) (x : List α)
    (values : Values α) : Prop :=
  ∃ y, (y = x ∨ samePoint y x = true) ∧ C.replies (.evaluate y) (.ok values)

/-- The results a run can come to on the replies of the contract. -/
abbrev replying (C : Contract (callbacks α ε)) : Always (Run α ε) :=
  (Always.program C).except (Failure α ε)

variable {C : Contract (callbacks α ε)}

section

variable (hasks : ∀ c, C.asks c)
include hasks

theorem replying_evaluate (x : List α) :
    (replying C).holds (Run.evaluate x) fun values => C.replies (.evaluate x) (.ok values) := by
  refine ⟨hasks _, fun reply hreply => ?_⟩
  cases reply with
  | ok values =>
    rintro _ ⟨⟩
    exact hreply
  | error e => exact nofun

theorem replying_jacobian (x : List α) :
    (replying C).holds (Run.jacobian x) fun matrix => C.replies (.jacobian x) (.ok matrix) := by
  refine ⟨hasks _, fun reply hreply => ?_⟩
  cases reply with
  | ok matrix =>
    rintro _ ⟨⟩
    exact hreply
  | error e => exact nofun

theorem replying_report (p : Progress α) : (replying C).holds (Run.report p) fun _ => True :=
  ⟨hasks _, fun _ _ _ _ => trivial⟩

theorem replying_outOfRange (index size : Nat) (post : β → Prop) :
    (replying C).holds (Run.outOfRange index size) post :=
  ⟨hasks _, fun reply => reply.elim⟩

omit hasks in
theorem replying_refuse (e : SolverError α) (post : β → Prop) :
    (replying C).holds (Run.refuse e) post :=
  fun _ h => nomatch h

omit hasks in
theorem replying_shaped (a : Matrix α) (rows cols : Nat) :
    (replying C).holds (Run.shaped a rows cols) fun entries =>
      a.shaped? rows cols = some entries := by
  rw [Run.shaped]
  split
  · next entries h => exact (replying C).pure entries h
  · split
    · exact replying_refuse _ _
    · exact replying_refuse _ _

end

/-! ## The record -/

/-- The record holds the values at its point, the last entry of the history is the objective there,
there is a multiplier for each row, and all values are numbers unless the run diverges. -/
structure Termination.Consistent [Scalar α] (t : Termination α)
    (isValues : List α → Values α → Prop) (rows : Nat) : Prop where
  values : isValues t.point ⟨t.objective, t.constraints⟩
  history : t.history.getLast? = some t.objective
  multipliers : t.multipliers.length = rows
  finite : t.code ≠ ReturnCode.diverging.toInt →
    Scalar.isFinite t.objective ∧ ∀ c ∈ t.constraints, Scalar.isFinite c

theorem Values.isFinite_iff [Scalar α] {v : Values α} :
    v.isFinite = true ↔ Scalar.isFinite v.objective ∧ ∀ c ∈ v.constraints, Scalar.isFinite c := by
  rw [Values.isFinite, Bool.and_eq_true, List.all_eq_true]

/-! ## The augmented Lagrangian solver -/

namespace AugmentedLagrangian

variable [Scalar α] {n m : Nat} {config : Config α} {senses : Vector Sense m}
  {lower upper : Vector α n} {s : Outer α n m}

/-- The results on such replies, of computations that leave them in the cache. -/
abbrev recalling (C : Contract (callbacks α ε)) (n : Nat) : Always (StateT (Cache α n) (Run α ε)) :=
  (replying C).state (Cache.Holds fun x values => C.replies (.evaluate x) (.ok values))

/-- What the iteration before has found are the values at the iterate, all of them numbers, and the
history ends with them. -/
structure Outer.Recorded (C : Contract (callbacks α ε)) (s : Outer α n m) (found : Found α) :
    Prop where
  values : C.ValuesAt s.point.toList found.values
  finite : found.values.isFinite = true
  history : s.history.toList.getLast? = some found.values.objective

/-- What the iteration of number `outer` comes to has one more entry in its history. -/
def Next.Recorded (C : Contract (callbacks α ε)) (s : Outer α n m) (outer : Nat) :
    Next α n m → Prop
  | .ended t => t.Consistent C.ValuesAt m ∧ t.history = s.history.toList ++ [t.objective] ∧
      t.iterations = outer + 1
  | .goesOn next => ∃ found, next.last = some found ∧ next.Recorded C found ∧
      next.history.toList = s.history.toList ++ [found.values.objective]

section

variable (hasks : ∀ c, C.asks c)
include hasks

theorem replying_valuesAt (x : Vector α n) :
    (recalling C n).holds (valuesAt x) (C.ValuesAt x.toList) :=
  holds_valuesAt_of_evaluate (replying C) _ (replying_evaluate hasks x.toList)

theorem replying_answer (p : Penalised α m) (c : MeritCall α n) :
    (recalling C n).holds (answer p c) fun _ => True := by
  cases c with
  | value x =>
    exact (recalling C n).mono _ (fun _ _ => trivial) (holds_answer_value_of_parts (replying C) p
      (replying_valuesAt hasks x) fun _ _ _ _ => replying_outOfRange hasks _ _ _)
  | gradient x =>
    have hjacobian : (replying C).holds (do Run.shaped (← Run.jacobian x.toList) (1 + m) n)
        fun _ => True :=
      (replying C).chain (replying_jacobian hasks _) fun a _ =>
        (replying C).mono _ (fun _ _ => trivial) (replying_shaped a _ _)
    exact (recalling C n).mono _ (fun _ _ => trivial) (holds_answer_gradient_of_parts (replying C) p
      (replying_valuesAt hasks x) hjacobian fun _ _ _ _ => replying_outOfRange hasks _ _ _)
  | report event => exact (replying C).holds_lift_state _ (replying_report hasks event)

omit hasks in
/-- The record of a run that ends after an iteration. -/
theorem recorded_record {code : ReturnCode} {x : Vector α n} {values : Values α}
    (hvalues : C.ValuesAt x.toList values)
    (hfinite : code ≠ .diverging → values.isFinite = true) (multipliers : Vector α m)
    (outer : Nat) :
    Next.Recorded C s outer
      (.ended
        (record code x values multipliers (outer + 1) (s.history.push values.objective))) := by
  refine ⟨⟨hvalues, ?_, Vector.length_toList, fun hcode => ?_⟩, Array.toList_push, rfl⟩
  · simp [record]
  · exact Values.isFinite_iff.mp (hfinite fun hdiverging => hcode (hdiverging ▸ rfl))

theorem replying_ended (code : ReturnCode) {x : Vector α n} {values : Values α}
    (hvalues : C.ValuesAt x.toList values)
    (hfinite : code ≠ .diverging → values.isFinite = true) (multipliers : Vector α m)
    (outer : Nat) :
    (replying C).holds
      (.ended <$> finish config code x values multipliers (outer + 1)
        (s.history.push values.objective) : Run α ε (Next α n m))
      (Next.Recorded C s outer) := by
  refine (replying C).map ((replying C).mono _ ?_
    (holds_finish_record (replying_report hasks) _ _ _ _ _ _))
  rintro _ rfl
  exact recorded_record hvalues hfinite multipliers outer

theorem replying_conclude (penalised : Penalised α m) (outer : Nat) (size : α)
    {inner : Minimize.Outcome α n} {values : Values α} (constraints : Vector α m)
    (hvalues : C.ValuesAt inner.point.toList values) (hfinite : values.isFinite = true) :
    (replying C).holds (conclude config penalised outer s size inner values constraints)
      (Next.Recorded C s outer) := by
  have hended (code : ReturnCode) : (replying C).holds
      (.ended <$> finish config code inner.point values (updateMultipliers penalised constraints)
        (outer + 1) (s.history.push values.objective) : Run α ε (Next α n m))
      (Next.Recorded C s outer) :=
    replying_ended hasks code hvalues (fun _ => hfinite) _ outer
  rw [conclude]
  refine (replying C).ite (fun _ => hended .succeeded) fun _ => ?_
  refine (replying C).ite (fun _ => hended .diverging) fun _ => ?_
  refine (replying C).ite (fun _ => hended .infeasible) fun _ => ?_
  refine (replying C).pure _ ⟨_, rfl, ⟨hvalues, hfinite, ?_⟩, ?_⟩
  · simp
  · simp

/-- An outer iteration adds the objective at its end to the history. -/
theorem replying_outerIteration (outer : Nat) :
    (replying C).holds (outerIteration config senses lower upper outer s)
      (Next.Recorded C s outer) := by
  refine holds_outerIteration_of_parts _ (fun _ => True)
    (fun inner => C.ValuesAt inner.point.toList) ?_ (fun a => ?_) (replying_report hasks)
    Cache.holds_none (fun settings _ => ?_) (fun inner _ => replying_valuesAt hasks inner.point)
    (fun inner values _ hvalues _ => ?_) (fun _ _ _ _ _ _ => replying_outOfRange hasks _ _ _)
    fun jacobian inner values constraints _ hvalues hfinite _ =>
      replying_conclude hasks _ outer (gradientScale jacobian) constraints hvalues hfinite
  · exact (replying C).mono _ (fun _ _ => trivial) (replying_jacobian hasks _)
  · exact (replying C).mono _ (fun _ _ => trivial) (replying_shaped a _ _)
  · -- the minimisation goes by the merit, and not by how that comes about
    refine (Program.meets_anything _).interpret (recalling C n) fun c _ => ?_
    exact (recalling C n).mono _ (fun _ _ => trivial) (replying_answer hasks _ c)
  · exact replying_ended hasks .diverging hvalues (fun h => absurd rfl h) _ outer

end

/-- The outer iterations that lead to a state, on replies of the contract, by the objectives at the
points where they ended. -/
inductive Trail (C : Contract (callbacks α ε)) (config : Config α) (senses : Vector Sense m)
    (lower upper : Vector α n) (first : Outer α n m) : Outer α n m → List α → Prop
  | start : Trail C config senses lower upper first first []
  | step {s next : Outer α n m} {ends : List α} {values : Values α} :
    Trail C config senses lower upper first s ends →
    (outerIteration config senses lower upper ends.length s).run.Yields C (.ok (.goesOn next)) →
    C.ValuesAt next.point.toList values →
    Trail C config senses lower upper first next (ends ++ [values.objective])

/-- The end of a run that has come along a trail: an iteration ends it, or they are used up. -/
def Logged (C : Contract (callbacks α ε)) (config : Config α) (senses : Vector Sense m)
    (lower upper : Vector α n) (first : Outer α n m) (t : Termination α) : Prop :=
  ∃ s ends, Trail C config senses lower upper first s ends ∧
    (((outerIteration config senses lower upper ends.length s).run.Yields C (.ok (.ended t)) ∧
        C.ValuesAt t.point ⟨t.objective, t.constraints⟩ ∧
        t.history = ends ++ [t.objective] ∧ t.iterations = ends.length + 1) ∨
      (t.history = ends ∧ t.iterations = ends.length))

theorem replying_outerIterations (hasks : ∀ c, C.asks c) (remaining : Nat) {first s : Outer α n m}
    {ends : List α} (htrail : Trail C config senses lower upper first s ends)
    (hhistory : s.history.toList = ends)
    (hlast : (s.last = none ∧ remaining ≠ 0) ∨ ∃ found, s.last = some found ∧ s.Recorded C found) :
    (replying C).holds (outerIterations config senses lower upper remaining ends.length s) fun t =>
      t.Consistent C.ValuesAt m ∧ Logged C config senses lower upper first t := by
  -- on the iterations that are left; the invariant is that the history holds one entry for each
  -- made
  induction remaining generalizing s ends with
  | zero =>
    obtain ⟨-, h⟩ | ⟨found, hlast, hfound⟩ := hlast
    · exact absurd rfl h
    rw [outerIterations, exhausted, hlast]
    refine (replying C).mono _ ?_ (holds_finish_record (replying_report hasks) _ _ _ _ _ _)
    rintro _ rfl
    refine ⟨⟨hfound.values, hfound.history, Vector.length_toList, fun _ => ?_⟩, s, ends, htrail,
      .inr ⟨hhistory, rfl⟩⟩
    exact Values.isFinite_iff.mp hfound.finite
  | succ remaining ih =>
    have hstep : (replying C).holds (outerIteration config senses lower upper ends.length s)
        (Next.Recorded C s ends.length) :=
      replying_outerIteration hasks ends.length
    have hnext := hstep.and (Program.meets_of_asks hasks _).yields
    refine (replying C).bind _ _ (Program.Meets.mono ?_ hnext)
    rintro _ ⟨hrecorded, hyields⟩ next rfl
    have hrecorded := hrecorded next rfl
    cases next with
    | ended t =>
      obtain ⟨hconsistent, hentry, hiterations⟩ := hrecorded
      rw [hhistory] at hentry
      exact (replying C).pure t ⟨hconsistent, s, ends, htrail,
        .inl ⟨hyields, hconsistent.values, hentry, hiterations⟩⟩
    | goesOn next =>
      obtain ⟨found, hfound, hnext, hentry⟩ := hrecorded
      rw [hhistory] at hentry
      have h := ih (htrail.step hyields hnext.values) hentry (.inr ⟨found, hfound, hnext⟩)
      rwa [List.length_append, List.length_singleton] at h

/-- A run that may make an iteration ends with a record of the iterations it has made. -/
theorem replying_solve (hasks : ∀ c, C.asks c) (hmost : config.maxOuter ≠ 0)
    (problem : Layout α) :
    (replying C).holds (solve config problem) fun t =>
      t.Consistent C.ValuesAt problem.rows.length ∧
        ∃ start, problem.checkedStart = .ok start ∧
          Logged C config ⟨problem.rows.toArray, rfl⟩ start.lower start.upper
            (.first config start.point) t := by
  rw [solve]
  split
  · exact replying_refuse _ _
  next start hstart =>
  split
  · exact replying_outOfRange hasks _ _ _
  refine (replying C).mono _ ?_
    (replying_outerIterations hasks config.maxOuter .start rfl (.inl ⟨rfl, hmost⟩))
  exact fun t ht => ⟨ht.1, start, hstart, ht.2⟩

end AugmentedLagrangian

/-! ## The projected BFGS solver -/

namespace Minimize

variable [Scalar α] {n : Nat} {C : Contract (merit α n)} {lower upper start : Vector α n}
  {settings : Settings α}

/-- The entries are the merits at the tops of the iterations, in order, and then the one at the
end. -/
structure Entries (C : Contract (merit α n)) (lower upper start : Vector α n)
    (settings : Settings α) (iterations : Nat) (value : α) (entries : List α) : Prop where
  length : entries.length = iterations + 1
  tops : ∀ k < iterations, ∃ norm s, Reaches C lower upper start settings k norm s ∧
    entries[k]? = some s.value
  last : entries.getLast? = some value

theorem Entries.push {k : Nat} {norm : Option α} {s : Iterate α n} {entries : List α}
    (hs : Reaches C lower upper start settings k norm s)
    (h : Entries C lower upper start settings k s.value entries) (value : α) :
    Entries C lower upper start settings (k + 1) value (entries ++ [value]) := by
  have hkept {j : Nat} (hj : j < k + 1) : (entries ++ [value])[j]? = entries[j]? :=
    List.getElem?_append_left (h.length ▸ hj)
  refine ⟨by simp [h.length], fun j hj => ?_, by simp⟩
  rcases Nat.lt_succ_iff_lt_or_eq.mp hj with hlt | rfl
  · obtain ⟨norm', s', hs', hentry⟩ := h.tops j hlt
    exact ⟨norm', s', hs', (hkept hj).trans hentry⟩
  · have hlast := h.last
    rw [List.getLast?_eq_getElem?, h.length, Nat.add_sub_cancel] at hlast
    exact ⟨norm, s, hs, (hkept hj).trans hlast⟩

theorem Reaches.entries {k : Nat} {norm : Option α} {s : Iterate α n}
    (hs : Reaches C lower upper start settings k norm s) :
    Entries C lower upper start settings k s.value s.trace.toList ∧ Scalar.isFinite s.value := by
  induction hs with
  | start _ hfinite _ => exact ⟨⟨rfl, fun j hj => absurd hj (Nat.not_lt_zero j), rfl⟩, hfinite⟩
  | @step k norm _ s _ hs hnext ih =>
    cases iterateOnce_yields hnext with
    | @goesOn t g _ ht _ =>
      have hpush := ih.1.push hs t.value
      rw [← Array.toList_push, ← heading_trace lower upper s] at hpush
      exact ⟨hpush, ht.finite⟩

theorem entries_of_yields {o : Outcome α n}
    (h : (minimize lower upper start settings).Yields C o) :
    Entries C lower upper start settings o.iterations o.value o.trace.toList ∧
      (o.stop ≠ .nonFinite → Scalar.isFinite o.value) := by
  obtain ⟨value, -, -, rfl⟩ | ⟨k, norm, s, hs, hend | rfl⟩ := minimize_yields h
  · exact ⟨⟨rfl, fun j hj => absurd hj (Nat.not_lt_zero j), rfl⟩, fun h => absurd rfl h⟩
  · obtain ⟨hentries, hfinite⟩ := hs.entries
    cases iterateOnce_yields hend with
    | nonFinite => exact ⟨hentries, fun h => absurd rfl h⟩
    | converged | lineSearchFailed => exact ⟨hentries, fun _ => hfinite⟩
    | smallStep _ ht =>
      refine ⟨?_, fun _ => ht.finite⟩
      rw [Array.toList_push]
      exact hentries.push hs _
  · exact ⟨hs.entries.1, fun _ => hs.entries.2⟩

end Minimize

namespace ProjectedBfgs

variable [Scalar α] {n : Nat} {config : Config α}

/-- The objective and its gradient, in the replies of the callbacks. -/
def objective (C : Contract (callbacks α ε)) (n : Nat) : Contract (merit α n) where
  asks _ := True
  replies
    | .value x, v => ∃ values, C.replies (.evaluate x.toList) (.ok values) ∧ v = values.objective
    | .gradient x, g => ∃ a entries, C.replies (.jacobian x.toList) (.ok a) ∧
        a.shaped? 1 n = some entries ∧ g = entries.get ⟨0, Nat.one_pos⟩
    | .report _, _ => True

/-- The settings of the minimisation of a run that finds this gradient at its start. -/
def settings (config : Config α) (initial : Vector α n) : Minimize.Settings α where
  maxIterations := config.maxIterations
  tolerance := config.tolerance * Scalar.max (infNorm initial) 1
  maxStepRatio := config.maxStepRatio
  verbose := decide (5 ≤ config.printLevel)

/-- The record of a run whose minimisation ends with this outcome. -/
def record (tolerance : α) (o : Minimize.Outcome α n) (values : Values α) : Termination α :=
  ⟨(code tolerance o).toInt, o.point.toList, values.objective, values.constraints, [], o.iterations,
    o.trace.toList⟩

/-- The run ends as its minimisation does, with the values at the point where that ended. -/
structure Reports (C : Contract (callbacks α ε)) (problem : Layout α)
    (start : Start α problem.dimension) (settings : Minimize.Settings α)
    (o : Minimize.Outcome α problem.dimension) (t : Termination α) : Prop where
  minimised : (minimize start.lower start.upper start.point settings).Yields
    (objective C problem.dimension) o
  point : t.point = o.point.toList
  iterations : t.iterations = o.iterations
  history : t.history = o.trace.toList
  values : C.replies (.evaluate t.point) (.ok ⟨t.objective, t.constraints⟩)
  multipliers : t.multipliers = []
  code : t.code = (code settings.tolerance o).toInt

section

variable (hasks : ∀ c, C.asks c)
include hasks

omit [Scalar α] in
theorem replying_answer (c : MeritCall α n) :
    (replying C).holds (answer c) ((objective C n).replies c) := by
  cases c with
  | value x =>
    refine (replying C).chain (replying_evaluate hasks x.toList) fun values hvalues => ?_
    exact (replying C).pure _ ⟨values, hvalues, rfl⟩
  | gradient x =>
    refine (replying C).chain (replying_jacobian hasks x.toList) fun a ha => ?_
    refine (replying C).chain (replying_shaped a 1 n) fun entries hentries => ?_
    exact (replying C).pure _ ⟨a, entries, ha, hentries, rfl⟩
  | report p => exact replying_report hasks p

theorem replying_solve (problem : Layout α) :
    (replying C).holds (solve config problem) fun t =>
      problem.rows = [] ∧ ∃ start initial o, problem.checkedStart = .ok start ∧
        (objective C problem.dimension).replies (.gradient start.point) initial ∧
        Reports C problem start (settings config initial) o t := by
  rw [solve]
  refine (replying C).ite (fun _ => replying_refuse _ _) fun hrows => ?_
  split
  · exact replying_refuse _ _
  next start hstart =>
  refine (replying C).chain (replying_jacobian hasks _) fun matrix hmatrix => ?_
  refine (replying C).chain (replying_shaped matrix _ _) fun entries hentries => ?_
  refine (replying C).chain (Program.yields_interpret (replying C) (C := objective C _)
    (fun _ => trivial) (replying_answer hasks) _) fun outcome houtcome => ?_
  refine (replying C).chain (replying_evaluate hasks _) fun values hvalues => ?_
  refine (replying C).mono _ (fun t ht => ⟨not_not.mp hrows, start, entries.get ⟨0, Nat.one_pos⟩,
    outcome, hstart, ⟨matrix, entries, hmatrix, hentries, rfl⟩, ht⟩) ?_
  have hreports : Reports C problem start (settings config (entries.get ⟨0, Nat.one_pos⟩)) outcome
      (record (settings config (entries.get ⟨0, Nat.one_pos⟩)).tolerance outcome values) :=
    ⟨houtcome, rfl, rfl, rfl, hvalues, rfl, rfl⟩
  refine (replying C).ite (fun _ => ?_) fun _ => (replying C).pure _ hreports
  exact (replying C).seq (replying_report hasks _) fun _ => (replying C).pure _ hreports

end

end ProjectedBfgs

end Nlp
