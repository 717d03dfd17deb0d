import Nlp.Proofs.Solve.Baseline
import Nlp.Proofs.Solve.Completeness
import Nlp.Proofs.Solver.Record

/-!
# Values on record

A solver sees the constraints with their targets taken off, and the record has them put on again.
With doubles that is not always the way back: what the target rounds away is lost.  What is on
record is otherwise what the model has, all of it at one point, through the whole run and whatever
has been remembered on the way: the recorded point, but for the signs of its zeros.

## Main definitions

* `Model.Replies`, `Model.serving`: a rank whose model always answers alike.
* `Faithful`: callbacks that are answered from this model.
* `Constraint.Regains`: what becomes of the value of a row.
* `Solution.TakenAt`: a record of what the model has at a point.

## Main results

* `Bridge.faithful_answer`: a bridge answers from the model.
* `SolveCall.values_recorded`: what the augmented Lagrangian solver leaves on record.
-/

namespace Nlp

variable {σ α : Type} {m : Model Double} {problem : Problem Double}

/-! ## Callbacks that are answered from a model -/

/-- Calls of the model are answered by `m`, whatever else they do. -/
def Model.Replies (m : Model Double) (handler : RankHandler σ) : Prop :=
  ∀ c s, (handler (.model c) s).1 = m.answer c

/-- Anything may be asked, and calls of the model are answered by `m`. -/
def Model.serving (m : Model Double) : Contract rankAccess where
  asks _ := True
  replies
    | .model c, reply => m.answer c = some reply
    | _, _ => True

/-- A program over the model comes to what the model makes of it. -/
theorem Model.meets_onRank (m : Model Double) (p : Program (modelAccess Double) α) :
    p.onRank.Meets m.serving (m.Gives p) := by
  induction p with
  | done a => exact rfl
  | call c next ih =>
    refine ⟨trivial, fun reply hreply => (ih reply).mono fun a ha => ?_⟩
    have hreply : m.answer c = some reply := hreply
    rw [Gives, Program.run, responder, hreply]
    exact ha

/-- Anything may be asked, and the values at a point are those of the model, checked, with the
targets taken off. -/
def Faithful (m : Model Double) (problem : Problem Double) :
    Contract (callbacks Double (Error Double)) where
  asks _ := True
  replies
    | .evaluate x, reply => ∀ values, reply = .ok values →
        m.Gives (problem.evaluate x).run (.ok (m.evaluate x)) ∧
          values = Bridge.shifted problem (m.evaluate x)
    | _, _ => True

/-- A bridge answers from the model of its rank. -/
theorem Bridge.faithful_answer (engine : Engine) (here : Place) (c : CallbackCall Double) :
    ((Always.program m.serving).state fun _ => True).holds (answer problem engine here c)
      ((Faithful m problem).replies c) := by
  intro b _
  cases c with
  -- what a problem has evaluated is what the model has at the point, and has been checked
  | evaluate x =>
    show ((evaluate problem x).run b).Meets _ _
    rw [run_evaluate]
    refine (Program.meets_bind _ _).mpr ((m.meets_onRank _).mono fun result hresult => ?_)
    refine ⟨fun values hvalues => ?_, trivial⟩
    cases result with
    | error e => cases hvalues
    | ok e =>
      obtain rfl := Except.ok.inj hvalues
      obtain ⟨-, rfl, -⟩ := Model.gives_evaluate_iff.mp hresult
      exact ⟨hresult, rfl⟩
  | jacobian x | report progress | outOfRange index size =>
    exact (Program.meets_of_asks (fun _ => trivial) _).mono fun _ _ => ⟨trivial, trivial⟩

/-- The augmented Lagrangian solver comes to consistent records only, whatever it is answered. -/
theorem Adapter.meets_consistent {C : Contract (callbacks Double (Error Double))}
    (hasks : ∀ c, C.asks c) (config : AugmentedLagrangian.Config Double) (options : OptionTable)
    (layout : Layout Double) :
    ((augmentedLagrangian config options).run layout).Meets C fun r =>
      ∀ t, r.1 = .ok t → t.Consistent C.ValuesAt layout.rows.length := by
  refine meets_plain ?_
  show (replying C).holds (AugmentedLagrangian.run config layout) _
  rw [AugmentedLagrangian.run]
  split
  · exact replying_refuse _ _
  · next hvalid =>
    have hmost := (AugmentedLagrangian.Config.valid_of_validate hvalid).limits.1
    exact (replying C).mono _ (fun t ht => ht.1)
      (AugmentedLagrangian.replying_solve hasks hmost layout)

namespace SolveCall

variable {call : SolveCall Unit} {config : AugmentedLagrangian.Config Double}
  {options : OptionTable} {handler : RankHandler σ} {s s' : σ}

/-- A run with this solver comes to a termination with values of the model. -/
theorem Ran.consistent (hadapter : call.adapter = .augmentedLagrangian config options)
    (hm : m.Replies handler) {t : Termination Double} {counters : Counters}
    (h : call.Ran problem handler s (.ok (t, counters)) s') :
    t.Consistent (Faithful m problem).ValuesAt problem.constraints.length := by
  obtain ⟨s₁, findings, bridge, hrun⟩ := h.exists_answered
  rw [Adapter.answered, hadapter] at hrun
  have hmeets := (Adapter.meets_consistent (C := Faithful m problem) (fun _ => trivial) config
    options problem.layout).interpret ((Always.program m.serving).state fun _ => True)
    fun c _ => Bridge.faithful_answer call.engine call.here c
  have hreplies : ∀ c s reply, (handler c s).1 = some reply → m.serving.replies c reply := by
    intro c s reply hreply
    cases c with
    | model c => exact (hm c s).symm.trans hreply
    | broadcast payload | gather payload => trivial
  obtain ⟨hconsistent, -⟩ := (hmeets (.new call.memory) trivial).of_run hreplies hrun
  have hrows : problem.layout.rows.length = problem.constraints.length := by
    simp [Problem.layout]
  exact hrows ▸ hconsistent t rfl

end SolveCall

/-! ## The record -/

/-- The value that is on record for a row is the model's, with the target taken off and put on
again.  A target of zero changes no number by that, but the sign of a zero. -/
structure Constraint.Regains (c : Constraint Double) (g value : Double) : Prop where
  regained : value = g - c.target + c.target
  alike : c.target.IsZero → value.Alike g

theorem Constraint.regains (c : Constraint Double) (g : Double) :
    c.Regains g (g - c.target + c.target) :=
  ⟨rfl, fun hzero => hzero.sub_add_alike g⟩

/-- The record is of what the model has at the point, which is the recorded one, but for the signs
of zeros: the objective as it is, and for each row what the target leaves of its value. -/
structure Solution.TakenAt (m : Model Double) (problem : Problem Double) (solution : Solution)
    (point : List Double) : Prop where
  zeros : Zeros point solution.x
  objective : solution.objective = (m.evaluate point).objective
  rows : (m.evaluate point).constraints.length = problem.constraints.length
  values : List.Forall₂ (fun row r => Constraint.Regains row.1 row.2 r.value)
    (problem.constraints.zip (m.evaluate point).constraints) solution.constraints

namespace Solution.Records

variable {t : Termination Double} {solution : Solution} (h : solution.Records problem t)
include h

/-- The rows on record are those of a termination that has a multiplier for each. -/
theorem regains {gs : List Double} (hlength : gs.length = problem.constraints.length)
    (hmultipliers : t.multipliers.length = problem.constraints.length)
    (hconstraints : t.constraints = List.zipWith (fun g c => g - c.target) gs problem.constraints) :
    List.Forall₂ (fun row r => Constraint.Regains row.1 row.2 r.value)
      (problem.constraints.zip gs) solution.constraints := by
  have hall : t.constraints.take t.multipliers.length = t.constraints := by
    rw [List.take_of_length_le]
    rw [hconstraints, hmultipliers, List.length_zipWith]
    exact Nat.min_le_right _ _
  have hvalues : solution.constraints.map SolvedConstraint.value =
      (problem.constraints.zip gs).map fun row => row.2 - row.1.target + row.1.target := by
    rw [h.values, hall, hconstraints]
    apply List.ext_getElem
    · simp [hlength]
    · simp
  have hregains : List.Forall₂
      (fun (row : Constraint Double × Double) value => row.1.Regains row.2 value)
      (problem.constraints.zip gs) (solution.constraints.map SolvedConstraint.value) := by
    rw [hvalues, List.forall₂_map_right_iff]
    exact List.forall₂_same.mpr fun row _ => row.1.regains row.2
  exact List.forall₂_map_right_iff.mp hregains

/-- What is recorded of a termination with values of the model. -/
theorem exists_takenAt (hobjective : solution.objective = t.objective)
    (ht : t.Consistent (Faithful m problem).ValuesAt problem.constraints.length) :
    ∃ point, solution.TakenAt m problem point := by
  obtain ⟨point, hpoint, hreply⟩ := ht.values
  obtain ⟨hgives, hvalues⟩ := hreply _ rfl
  obtain ⟨hlength, -, hcheck⟩ := Model.gives_evaluate_iff.mp hgives
  obtain ⟨htobjective, htconstraints⟩ := Values.mk.inj hvalues
  have hrows := problem.length_of_checkEvaluation hcheck
  -- the solver may have had the values of a numerically equal point in its memory
  have hzeros : Zeros point t.point := by
    rcases hpoint with rfl | hsame
    · exact List.forall₂_same.mpr fun _ _ => .inl rfl
    · exact Bridge.zeros_of_samePoint hsame
  refine ⟨point, ?_, hobjective.trans htobjective, hrows,
    h.regains hrows ht.multipliers htconstraints⟩
  -- the whole point is on record, as it has an entry for each variable
  rwa [h.x, List.take_of_length_le]
  rw [← hzeros.length_eq, hlength]

end Solution.Records

namespace SolveCall

variable {call : SolveCall Unit} {config : AugmentedLagrangian.Config Double}
  {options : OptionTable} {handler : RankHandler σ} {s s' : σ}

/-- **What the augmented Lagrangian solver leaves on record**, with any settings, engine and
targets, whatever the other ranks and the network do.  The values are those of the model at one
point, the recorded one but for the signs of zeros: the objective as it is, and a constraint with
its target taken off and put on again.  A target of zero leaves numbers as they are. -/
theorem values_recorded {before : History} {solved : Solved Unit}
    (hadapter : call.adapter = .augmentedLagrangian config options) (hm : m.Replies handler)
    (h : (call.program problem before).run handler s = .finished solved s') :
    solved.history = before ∨
      ∃ solution, solved.history.solutions = before.solutions ++ [solution] ∧
        ∃ point, solution.TakenAt m problem point := by
  rcases before_or_ran h with hbefore | ⟨_, t, counters, _, hran, hhistory⟩
  · exact .inl hbefore
  · refine .inr ⟨_, congrArg History.solutions hhistory, ?_⟩
    exact (Solution.records_of_solved rfl rfl).exists_takenAt rfl (hran.consistent hadapter hm)

end SolveCall

/-! ## A target that swamps the values -/

/-- The objective is zero everywhere, and the constraint one. -/
def swamped : Model Double where
  evaluate _ := ⟨0, [1], 0⟩
  evaluateComplex _ := none
  gradient _ := none

/-- The target is so large that one more or less is the same. -/
def swampedProblem : Problem Double :=
  ⟨"swamped", [⟨"x", .continuous, 0, 1, 0⟩], ["f"], [⟨"c", .inequality, 1e17⟩]⟩

namespace SolveCall

/-- A solve of this problem with forward differences. -/
def swamped : SolveCall Unit where
  adapter := .augmentedLagrangian .default []
  engine := .new (.finiteDifference Method.defaultDifference) .sequential
  memory := none
  here := .single
  elapsed := ⟨0, 500⟩

theorem run_swamped :
    ∃ solved s solution,
      (swamped.program swampedProblem ⟨[]⟩).run Nlp.swamped.hermit () = .finished solved s ∧
      solved.history.solutions = [solution] ∧
        solution.constraints.map SolvedConstraint.value = [0] := by
  have hresult : ((swamped.program swampedProblem ⟨[]⟩).run Nlp.swamped.hermit
      ()).result?.map (fun solved => solved.history.solutions.map fun solution =>
        solution.constraints.map SolvedConstraint.value) = some [[0]] := by
    decide +kernel
  obtain ⟨solved, s, hrun, hvalues⟩ := Program.Ending.exists_of_result? hresult
  obtain ⟨solution, hhistory, hvalues⟩ := List.map_eq_singleton_iff.mp hvalues
  exact ⟨solved, s, solution, hrun, hhistory, hvalues⟩

/-- The model has a one at the recorded point, and there is a zero on record. -/
theorem swamped_lost :
    Nlp.swamped.Replies Nlp.swamped.hermit ∧
      ∃ solved s solution,
        (swamped.program swampedProblem ⟨[]⟩).run Nlp.swamped.hermit () = .finished solved s ∧
        solved.history.solutions = [solution] ∧
          (Nlp.swamped.evaluate solution.x).constraints = [1] ∧
          solution.constraints.map SolvedConstraint.value = [0] := by
  obtain ⟨solved, s, solution, hrun, hhistory, hvalues⟩ := run_swamped
  exact ⟨fun _ _ => rfl, solved, s, solution, hrun, hhistory, rfl, hvalues⟩

theorem swamped_recorded :
    ∃ solved s,
      (swamped.program swampedProblem ⟨[]⟩).run Nlp.swamped.hermit () = .finished solved s ∧
      ∃ solution, solved.history.solutions = [solution] ∧
        ∃ point, solution.TakenAt Nlp.swamped swampedProblem point := by
  obtain ⟨solved, s, solution, hrun, hhistory, -⟩ := run_swamped
  refine ⟨solved, s, hrun, (values_recorded rfl (fun _ _ => rfl) hrun).resolve_left ?_⟩
  intro hbefore
  rw [hbefore] at hhistory
  cases hhistory

end SolveCall

end Nlp
