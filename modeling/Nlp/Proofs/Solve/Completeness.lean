import Nlp.Proofs.Derivative.Columns
import Nlp.Proofs.Solve.History
import Nlp.Proofs.Solve.Mirror
import Nlp.Proofs.Solve.Modes
import Nlp.Proofs.Solver.Walk

/-!
# What a solve leaves on record

The record of a solve pairs the variables and the constraints of the problem, in order, with the
vectors its solver came back with. Where a vector is too short the pairing stops, and the record is
one of the first entries only. The solvers of the library always come back with vectors that are
long enough, since their callbacks are checked against the problem.

## Main definitions

* `Solution.Complete`: an entry for every variable and every constraint.
* `Termination.Fills`: a termination that is enough for that.
* `Solution.Records`: what is recorded of any termination.
* `Sized`: callbacks with a value for every row.

## Main results

* `Solution.complete_iff_of_solved`: which terminations are recorded completely.
* `SolveCall.record_of_run`: what a solve with any adapter leaves on record.
* `SolveCall.before_or_ran`: what is put into a history is what a run has come to.
* `SolveCall.complete_of_bundled`: the solvers of the library leave complete records.
-/

namespace Nlp

variable {σ τ α : Type}

/-! ## Records -/

/-- The variable is recorded as it is declared, with some value. -/
def Variable.RecordedAs (declared recorded : Variable Double) : Prop :=
  recorded = { declared with value := recorded.value }

theorem Variable.recordedAs (declared : Variable Double) (value : Double) :
    declared.RecordedAs { declared with value } :=
  rfl

/-- The constraint is recorded as it is declared. -/
structure Constraint.RecordedAs (declared : Constraint Double) (recorded : SolvedConstraint) :
    Prop where
  name : recorded.name = declared.name
  kind : recorded.kind = declared.kind
  target : recorded.target = declared.target

theorem Constraint.recordedAs (declared : Constraint Double) (value multiplier : Double) :
    declared.RecordedAs ⟨declared.name, declared.kind, declared.target, value, multiplier⟩ :=
  ⟨rfl, rfl, rfl⟩

/-- There is one entry for every variable and one for every constraint, in order. -/
structure Solution.Complete (problem : Problem Double) (solution : Solution) : Prop where
  vars : List.Forall₂ Variable.RecordedAs problem.vars solution.vars
  constraints : List.Forall₂ Constraint.RecordedAs problem.constraints solution.constraints

/-- The values of a complete record are as many as the variables. -/
theorem Solution.Complete.length_x {problem : Problem Double} {solution : Solution}
    (h : solution.Complete problem) : solution.x.length = problem.vars.length := by
  rw [x, List.length_map]
  exact h.vars.length_eq.symm

/-- There is a value for every variable, and for every constraint a value and a multiplier. -/
structure Termination.Fills (problem : Problem Double) (t : Termination Double) : Prop where
  point : problem.vars.length ≤ t.point.length
  constraints : problem.constraints.length ≤ t.constraints.length
  multipliers : problem.constraints.length ≤ t.multipliers.length

/-- The entries are the first variables and constraints, as many as there are values for, with these
values. -/
structure Solution.Records (problem : Problem Double) (t : Termination Double)
    (solution : Solution) : Prop where
  vars : List.Forall₂ Variable.RecordedAs (problem.vars.take t.point.length) solution.vars
  x : solution.x = t.point.take problem.vars.length
  constraints : List.Forall₂ Constraint.RecordedAs
    (problem.constraints.take (min t.constraints.length t.multipliers.length))
    solution.constraints
  values : solution.constraints.map SolvedConstraint.value =
    List.zipWith (fun value (c : Constraint Double) => value + c.target)
      (t.constraints.take t.multipliers.length) problem.constraints
  multipliers : solution.constraints.map SolvedConstraint.multiplier =
    (t.multipliers.take t.constraints.length).take problem.constraints.length

section

variable {β γ : Type} {R : α → γ → Prop} {f : α → β → γ}

/-- A pairing has to do with the first entries, as many as there are partners. -/
theorem forall₂_zipWith (hf : ∀ a b, R a (f a b)) (as : List α) (bs : List β) :
    List.Forall₂ R (as.take bs.length) (List.zipWith f as bs) := by
  induction as generalizing bs with
  | nil => simp
  | cons a as ih =>
    cases bs with
    | nil => simp
    | cons b bs => exact .cons (hf a b) (ih bs)

/-- A pairing reaches every entry exactly if there are enough partners. -/
theorem forall₂_zipWith_iff (hf : ∀ a b, R a (f a b)) {as : List α} {bs : List β} :
    List.Forall₂ R as (List.zipWith f as bs) ↔ as.length ≤ bs.length := by
  constructor
  · intro h
    have hlength := h.length_eq
    rw [List.length_zipWith] at hlength
    omega
  · intro hle
    have hfirst := forall₂_zipWith hf as bs
    rwa [List.take_of_length_le hle] at hfirst

end

namespace Solution

variable {problem : Problem Double} {t : Termination Double} {solution : Solution}
  (hvars : solution.vars = solvedVariables problem t.point)
  (hconstraints : solution.constraints = solvedConstraints problem t.constraints t.multipliers)
include hvars hconstraints

theorem records_of_solved : solution.Records problem t where
  vars := by
    rw [hvars]
    exact forall₂_zipWith Variable.recordedAs _ _
  x := by
    rw [x, hvars, solvedVariables, List.map_zipWith]
    apply List.ext_getElem
    · simp
    · simp
  constraints := by
    rw [hconstraints, ← List.length_zip]
    exact forall₂_zipWith (fun c row => c.recordedAs _ _) _ _
  values := by
    rw [hconstraints, solvedConstraints, List.map_zipWith]
    apply List.ext_getElem
    · simp only [List.length_zipWith, List.length_zip, List.length_take]
      omega
    · simp
  multipliers := by
    rw [hconstraints, solvedConstraints, List.map_zipWith]
    apply List.ext_getElem
    · simp
    · simp

/-- A termination is recorded completely exactly if there is enough of it. -/
theorem complete_iff_of_solved : solution.Complete problem ↔ t.Fills problem := by
  have hpoint : List.Forall₂ Variable.RecordedAs problem.vars solution.vars ↔
      problem.vars.length ≤ t.point.length := by
    rw [hvars]
    exact forall₂_zipWith_iff Variable.recordedAs
  have hrows : List.Forall₂ Constraint.RecordedAs problem.constraints solution.constraints ↔
      problem.constraints.length ≤ (t.constraints.zip t.multipliers).length := by
    rw [hconstraints]
    exact forall₂_zipWith_iff fun c row => c.recordedAs _ _
  rw [List.length_zip, Nat.le_min] at hrows
  constructor
  · intro h
    obtain ⟨hvalues, hmultipliers⟩ := hrows.mp h.constraints
    exact ⟨hpoint.mp h.vars, hvalues, hmultipliers⟩
  · intro h
    exact ⟨hpoint.mpr h.point, hrows.mpr ⟨h.constraints, h.multipliers⟩⟩

end Solution

/-! ## Solves with any adapter -/

/-- **What a solve leaves on record**, with any adapter, in any mode, and whatever the ranks and the
network do. A rank other than the root records nothing, and neither does the root where its run or
the release of its session fails. Otherwise one record is put in, also of a termination that is too
short: it has the first variables and constraints, in order and as declared, as many as there are
values for. It is complete exactly if the termination is enough for all of them. -/
theorem SolveCall.record_of_run {call : SolveCall τ} {problem : Problem Double}
    {handler : RankHandler σ} {s s' : σ} {before : History} {solved : Solved τ}
    (h : (call.program problem before).run handler s = .finished solved s') :
    (¬ call.here.isRoot → solved.history = before) ∧
      (call.here.isRoot → ∃ s₀ ran s₁ released s₂,
        call.Ran problem handler s₀ ran s₁ ∧ call.Released handler ran s₁ released s₂ ∧
        ((∀ t, ran = .ok t → released ≠ .ok ()) → solved.history = before) ∧
        ∀ t counters, ran = .ok (t, counters) → released = .ok () →
          ∃ solution, solved.history.solutions = before.solutions ++ [solution] ∧
            solution.Records problem t ∧ (solution.Complete problem ↔ t.Fills problem)) := by
  have hkeeps := keeps_of_run h
  refine ⟨fun hother => (hkeeps.other hother).1, fun hroot => ?_⟩
  obtain ⟨s₀, ran, s₁, released, s₂, hran, hreleased, -, hrecorded, hfailed, hunreleased⟩ :=
    hkeeps.root hroot
  refine ⟨s₀, ran, s₁, released, s₂, hran, hreleased, ?_, ?_⟩
  · intro hnot
    cases hresult : ran with
    | error e => exact (hfailed e hresult).1
    | ok t =>
      cases hrelease : released with
      | error e => exact (hunreleased t e hresult hrelease).1
      | ok _ => exact absurd hrelease (hnot t hresult)
  · intro t counters hresult hrelease
    obtain ⟨hhistory, -⟩ := hrecorded t counters hresult hrelease
    refine ⟨_, congrArg History.solutions hhistory, ?_, ?_⟩
    · exact Solution.records_of_solved rfl rfl
    · exact Solution.complete_iff_of_solved rfl rfl

/-- A solve leaves the history as it is, or puts in the record of what its run has come to. -/
theorem SolveCall.before_or_ran {call : SolveCall τ} {problem : Problem Double}
    {handler : RankHandler σ} {s s' : σ} {before : History} {solved : Solved τ}
    (h : (call.program problem before).run handler s = .finished solved s') :
    solved.history = before ∨
      ∃ s₀ t counters s₁, call.Ran problem handler s₀ (.ok (t, counters)) s₁ ∧
        solved.history = before.append
          (.ofTermination call.adapter problem call.engine call.here call.elapsed t counters) := by
  have hkeeps := keeps_of_run h
  by_cases hroot : call.here.isRoot
  · obtain ⟨s₀, ran, s₁, released, s₂, hran, -, -, hrecorded, hfailed, hunreleased⟩ :=
      hkeeps.root hroot
    rcases ran with e | ⟨t, counters⟩
    · exact .inl (hfailed e rfl).1
    rcases released with e | ⟨⟩
    · exact .inl (hunreleased _ e rfl rfl).1
    exact .inr ⟨s₀, t, counters, s₁, hran, (hrecorded t counters rfl rfl).1⟩
  · exact .inl (hkeeps.other hroot).1

/-- A problem of two variables. -/
def twoVariables : Problem Double :=
  ⟨"two", [⟨"x", .continuous, 0, 1, 0.5⟩, ⟨"y", .continuous, 0, 1, 0.5⟩], ["f"], []⟩

/-- A solve whose solver comes back with a point of one entry. -/
def SolveCall.short : SolveCall (List Finding) where
  adapter := .probing "short" [] false ⟨0, [0.25], 0, [], [], 1, []⟩
  engine := .new .analytic .sequential
  memory := none
  here := .single
  elapsed := ⟨0, 500⟩

theorem SolveCall.run_short :
    ∃ solved solution,
      (short.program twoVariables ⟨[]⟩).run Work.deaf () = .finished solved () ∧
      solved.result = .ok (some 0) ∧ solved.history.solutions = [solution] ∧
        solution.x = [0.25] :=
  ⟨_, _, rfl, rfl, rfl, rfl⟩

/-- The solve succeeds, and its record has an entry for one variable out of two. -/
theorem SolveCall.short_incomplete :
    ∃ solved solution,
      (short.program twoVariables ⟨[]⟩).run Work.deaf () = .finished solved () ∧
      solved.result = .ok (some 0) ∧ solved.history.solutions = [solution] ∧
        ¬ solution.Complete twoVariables := by
  obtain ⟨solved, solution, hrun, hresult, hhistory, hx⟩ := run_short
  refine ⟨solved, solution, hrun, hresult, hhistory, fun hcomplete => ?_⟩
  have hlength := hcomplete.length_x
  rw [hx] at hlength
  cases hlength

theorem SolveCall.short_record :
    ∃ solved, (short.program twoVariables ⟨[]⟩).run Work.deaf () = .finished solved () ∧
      ∃ s₀ ran s₁ released s₂, short.Ran twoVariables Work.deaf s₀ ran s₁ ∧
        short.Released Work.deaf ran s₁ released s₂ ∧
        ((∀ t, ran = .ok t → released ≠ .ok ()) → solved.history = ⟨[]⟩) ∧
        ∀ t counters, ran = .ok (t, counters) → released = .ok () →
          ∃ solution, solved.history.solutions = [solution] ∧
            solution.Records twoVariables t ∧
            (solution.Complete twoVariables ↔ t.Fills twoVariables) := by
  obtain ⟨solved, solution, hrun, -⟩ := run_short
  exact ⟨solved, hrun, (record_of_run hrun).2 rfl⟩

/-! ## Solves with the solvers of the library -/

/-- Anything may be asked, and values have one for each row. -/
def Sized (α ε : Type) (rows : Nat) : Contract (callbacks α ε) where
  asks _ := True
  replies
    | .evaluate _, reply => ∀ values, reply = .ok values → values.constraints.length = rows
    | _, _ => True

/-- All results of a run on such values. -/
abbrev sizing (α ε : Type) (rows : Nat) : Always (Run α ε) :=
  (Always.program (Sized α ε rows)).except (Failure α ε)

theorem sizing_covers {ε : Type} {rows : Nat} :
    (sizing α ε rows).Covers (fun _ => True) rows fun values =>
      values.constraints.length = rows where
  evaluate x _ := by
    refine ⟨trivial, fun reply hreply => ?_⟩
    cases reply with
    | ok values =>
      rintro _ ⟨⟩
      exact hreply values rfl
    | error e => exact nofun
  jacobian x _ := by
    refine ⟨trivial, fun reply _ => ?_⟩
    cases reply with
    | ok matrix => exact fun _ _ => trivial
    | error e => exact nofun
  report p := ⟨trivial, fun _ _ _ _ => trivial⟩
  refuse e post _ b hb := by cases hb
  astray _ _ _ _ hlength hother := absurd hlength hother

namespace Adapter

/-- An adapter's run has the terminations of the solver run in it. -/
theorem meets_plain {C : Contract (callbacks Double (Error Double))}
    {run : Run Double (Error Double) (Termination Double)} {post : Termination Double → Prop}
    (hrun : ((Always.program C).except (Failure Double (Error Double))).holds run post) :
    (plain run).Meets C fun r => ∀ t, r.1 = .ok t → post t := by
  refine (Program.meets_bind _ _).mpr (hrun.mono fun r hr => ?_)
  cases r with
  | ok t =>
    rintro _ ⟨⟩
    exact hr t rfl
  | error e => exact nofun

/-- On values for every row, the solvers of the library come to terminations with an entry for each
variable, and with a value and a multiplier for each row. -/
theorem Bundled.meets_sized {adapter : Adapter Unit} (h : adapter.Bundled)
    (layout : Layout Double) :
    (adapter.run layout).Meets (Sized Double (Error Double) layout.rows.length) fun r =>
      ∀ t, r.1 = .ok t → t.Fits layout.dimension layout.rows.length fun values =>
        values.constraints.length = layout.rows.length := by
  cases h with
  -- there may be no room for the history; then there is no termination either
  | augmentedLagrangian config options =>
    rcases AugmentedLagrangian.holds_run sizing_covers config fun _ _ _ _ => trivial with
      hrun | ⟨index, size, hrun⟩
    · exact meets_plain hrun
    · show (plain (AugmentedLagrangian.run config layout)).Meets _ _
      rw [hrun]
      exact ⟨trivial, fun reply => reply.elim⟩
  | projectedBfgs config options =>
    show Program.Meets _ _ (if layout.rows = [] then _ else _)
    split
    · next hrows =>
      refine meets_plain ((sizing _ _ _).mono _ (fun t ht => ?_)
        (ProjectedBfgs.holds_run sizing_covers.toAnswers config fun _ _ _ _ => trivial))
      obtain ⟨hpoint, hvalues, hmultipliers⟩ := ht
      exact ⟨hpoint, hvalues, by rw [hmultipliers, hrows]; rfl⟩
    · exact nofun

end Adapter

/-- A bridge has a value for every constraint of its problem. -/
theorem Bridge.sized_answer (problem : Problem Double) (engine : Engine) (here : Place)
    (c : CallbackCall Double) :
    ((Always.program (.anything rankAccess)).state fun _ => True).holds
      (answer problem engine here c)
      ((Sized Double (Error Double) problem.layout.rows.length).replies c) := by
  intro b _
  cases c with
  -- the problem has checked the evaluation, and the targets are as many as its rows
  | evaluate x =>
    show ((evaluate problem x).run b).Meets _ _
    rw [run_evaluate]
    have hmodel : ∀ c, inRange.asks c → (Always.program (.anything rankAccess)).holds
        (Program.perform (I := rankAccess) (.model c)) (inRange.replies c) :=
      fun _ _ => ⟨trivial, fun _ _ => trivial⟩
    refine (Program.meets_bind _ _).mpr
      (((problem.ranging_evaluate x).interpret (Always.program (.anything rankAccess))
        hmodel).mono fun result hresult => ?_)
    refine ⟨fun values hvalues => ?_, trivial⟩
    cases result with
    | error e => cases hvalues
    | ok e =>
      obtain rfl := Except.ok.inj hvalues
      have hlength := problem.length_of_checkEvaluation (hresult e rfl)
      simp [shifted, Problem.layout, hlength]
  | jacobian x | report progress | outOfRange index size =>
    exact (Program.meets_anything _).mono fun _ _ => ⟨trivial, trivial⟩

/-- With its callbacks answered by a bridge, a solver of the library comes to terminations that are
recorded completely. -/
theorem Adapter.Bundled.meets_answered {adapter : Adapter Unit} (h : adapter.Bundled)
    (problem : Problem Double) (engine : Engine) (memory : Engine.Memory) (here : Place) :
    (adapter.answered problem engine memory here).Meets (.anything rankAccess)
      fun r => ∀ t, r.1.1 = .ok t → t.Fills problem := by
  have hmeets := (h.meets_sized problem.layout).interpret
    ((Always.program (.anything rankAccess)).state fun _ => True)
    fun c _ => Bridge.sized_answer problem engine here c
  refine (hmeets (.new memory) trivial).mono fun r ⟨hfits, _⟩ t ht => ?_
  obtain ⟨hpoint, hvalues, hmultipliers⟩ := hfits t ht
  have hrows : problem.layout.rows.length = problem.constraints.length := by
    simp [Problem.layout]
  rw [hrows] at hvalues hmultipliers
  exact ⟨hpoint.ge, hvalues.ge, hmultipliers.ge⟩

/-- A run that has come to a termination has been answered by a bridge. -/
theorem SolveCall.Ran.exists_answered {call : SolveCall τ} {problem : Problem Double}
    {handler : RankHandler σ} {s s' : σ} {t : Termination Double} {counters : Counters}
    (h : call.Ran problem handler s (.ok (t, counters)) s') :
    ∃ s₁ findings bridge,
      (call.adapter.answered problem call.engine call.memory call.here).run handler s₁ =
        .finished ((.ok t, findings), bridge) s' := by
  -- the index of the relation is not a variable: it is put aside as an equation
  generalize hresult : Except.ok (t, counters) = result at h
  cases h with
  | refused => cases hresult
  | @ran s₁ _ result findings bridge hprepared hrun =>
    cases result with
    | error e => cases hresult
    | ok t' =>
      obtain ⟨rfl, -⟩ := Prod.mk.inj (Except.ok.inj hresult)
      exact ⟨s₁, findings, bridge, hrun⟩

/-- A solver of the library comes to terminations that are recorded completely. -/
theorem SolveCall.Ran.fills {call : SolveCall Unit} {problem : Problem Double}
    {handler : RankHandler σ} {s s' : σ} {t : Termination Double} {counters : Counters}
    (h : call.Ran problem handler s (.ok (t, counters)) s') (hbundled : call.adapter.Bundled) :
    t.Fills problem := by
  obtain ⟨s₁, findings, bridge, hrun⟩ := h.exists_answered
  exact (hbundled.meets_answered problem call.engine call.memory call.here).of_finished hrun t rfl

/-- The solvers of the library, with any settings, in any mode and whatever the model, the ranks and
the network do, leave records with an entry for every variable and for every constraint. -/
theorem SolveCall.complete_of_bundled {call : SolveCall Unit} {problem : Problem Double}
    {handler : RankHandler σ} {s s' : σ} {before : History} {solved : Solved Unit}
    (hbundled : call.adapter.Bundled)
    (h : (call.program problem before).run handler s = .finished solved s') :
    solved.history = before ∨
      ∃ solution, solved.history.solutions = before.solutions ++ [solution] ∧
        solution.Complete problem := by
  rcases before_or_ran h with hbefore | ⟨_, t, counters, _, hran, hhistory⟩
  · exact .inl hbefore
  · refine .inr ⟨_, congrArg History.solutions hhistory, ?_⟩
    exact (Solution.complete_iff_of_solved rfl rfl).mpr (hran.fills hbundled)

end Nlp
