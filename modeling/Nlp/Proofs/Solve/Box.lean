import Nlp.Proofs.Derivative.Commands
import Nlp.Proofs.Group.Schedule
import Nlp.Proofs.Solve.Joint
import Nlp.Proofs.Solve.Modes
import Nlp.Proofs.Solver.Box

/-!
# Where the models of a group are asked during a solve

The root's solver asks at points of the box, and the derivatives of its problem are taken at such
points.  A forward difference asks one step away from a point of the box, also where that is outside
of it; no other call of a model leaves the box, on whatever rank it is made.

## Main definitions

* `Problem.StaysNear`: the arithmetic on points in a solve, with the calls it leads to.
* `GroupSolve`: what the ranks of a group bring to a solve, in any modes.

## Main results

* `Bridge.keeping_answer`: the answer to a callback at a point of the box keeps to the rules.
* `GroupSolve.meets_program`: so does the part of every rank in a solve.
* `GroupSolve.calls_near_box`: where the models of a group are asked.
-/

namespace Nlp

variable {good : List Double → Prop} {m : Method Double} {here : Place} {problem : Problem Double}
  {σ ρ τ α : Type}

/-! ## Callbacks -/

namespace Bridge

/-- The results of answers to callbacks that keep to the rules. -/
abbrev keepingAnswer (good : List Double → Prop) (m : Method Double) (here : Place) :
    Always Answer :=
  (keeping good m here).state fun _ => True

variable {x : List Double}

theorem keeping_evaluate (hx : good x) :
    (keepingAnswer good m here).holds (evaluate problem x) fun _ => True := by
  have hmodel : (keepingAnswer good m here).holds (Answer.ofModel (problem.evaluate x).run)
      fun _ => True :=
    (keeping good m here).holds_lift_state _
      (keeping_onRank ((problem.nearing_evaluate (.inl hx)).mono fun _ _ => trivial))
  refine (keepingAnswer good m here).seq hmodel fun result => ?_
  cases result with
  | error e => exact (keepingAnswer good m here).pure _ trivial
  | ok values =>
    refine (keepingAnswer good m here).seq (fun _ _ => ⟨trivial, trivial⟩) fun _ => ?_
    exact (keepingAnswer good m here).pure _ trivial

theorem keeping_jacobian {engine : Engine} (hreal : ∀ step, engine.method ≠ .complexStep step)
    (hx : good x) :
    (keepingAnswer good engine.method here).holds (jacobian problem engine here x)
      fun _ => True := by
  refine (keepingAnswer good engine.method here).seq (fun _ _ => ⟨trivial, trivial⟩) fun b => ?_
  have hrequest : (Engine.keepingRequest good engine.method here).holds
      (engine.jacobianAt problem x (b.known x) here) fun _ => True :=
    Engine.keeping_jacobianAt hreal hx _
  refine (keepingAnswer good engine.method here).seq
    ((keeping good engine.method here).holds_lift_state _
      ((hrequest b.memory trivial).mono fun _ _ => trivial)) ?_
  rintro ⟨result, memory⟩
  refine (keepingAnswer good engine.method here).seq (fun _ _ => ⟨trivial, trivial⟩) fun _ => ?_
  cases result with
  | error e => exact (keepingAnswer good engine.method here).pure _ trivial
  | ok jacobian =>
    refine (keepingAnswer good engine.method here).seq (fun _ _ => ⟨trivial, trivial⟩) fun _ => ?_
    exact (keepingAnswer good engine.method here).pure _ trivial

/-- The answer to a callback at a good point keeps to the rules. -/
theorem keeping_answer {engine : Engine} (hreal : ∀ step, engine.method ≠ .complexStep step)
    (c : CallbackCall Double) (hc : (Visits Double (Error Double) good).asks c) :
    (keepingAnswer good engine.method here).holds (answer problem engine here c) fun _ => True := by
  cases c with
  | evaluate x => exact keeping_evaluate hc
  | jacobian x => exact keeping_jacobian hreal hc
  | report progress =>
    exact (keeping good engine.method here).holds_lift_state _
      (keeping_onRank ⟨trivial, fun _ _ => trivial⟩)
  | outOfRange index size =>
    exact (keeping good engine.method here).holds_lift_state _
      (keeping_onRank ⟨trivial, fun reply => reply.elim⟩)

end Bridge

/-! ## Arithmetic on points -/

/-- The solvers ask for points of the box only, and values, gradient and forward differences at a
point of the box take the model there, or one step away from it. -/
structure Problem.StaysNear [Scalar α] (p : Problem α) (m : Method α) : Prop where
  augmentedLagrangian (ε : Type) (config : AugmentedLagrangian.Config α) :
    (AugmentedLagrangian.run config p.layout : Run α ε (Termination α)).run.Meets
      (Visits α ε p.Encloses) fun _ => True
  projectedBfgs (ε : Type) (config : ProjectedBfgs.Config α) :
    (ProjectedBfgs.run config p.layout : Run α ε (Termination α)).run.Meets
      (Visits α ε p.Encloses) fun _ => True
  evaluate (x : List α) : p.Encloses x →
    (p.evaluate x).run.Meets (Nlp.Nearby p.Encloses m) fun _ => True
  gradient (x : List α) : p.Encloses x →
    (p.gradient x).run.Meets (Nlp.Nearby p.Encloses m) fun _ => True
  columns (x : List α) (step : α) (baseline : Baseline α) (js : List Nat) : p.Encloses x →
    m = .finiteDifference step →
    (Kernel.columns (.forward step baseline) p x js).run.Meets (Nlp.Nearby p.Encloses m)
      fun _ => True

theorem Problem.staysNear [Scalar α] (p : Problem α) (m : Method α)
    (hordered : Scalar.Ordered α) : p.StaysNear m where
  augmentedLagrangian _ config :=
    (AugmentedLagrangian.run_visits (fun _ hstart _ hx =>
      encloses_of_inBox hordered hstart hx) config).mono fun _ _ => trivial
  projectedBfgs _ config :=
    (ProjectedBfgs.run_visits (fun _ hstart _ hx =>
      encloses_of_inBox hordered hstart hx) config).mono fun _ _ => trivial
  evaluate _ hx := (p.nearing_evaluate (.inl hx)).mono fun _ _ => trivial
  gradient _ hx := (p.nearing_gradient hx).mono fun _ _ => trivial
  columns _ _ baseline js hx hm :=
    (Kernel.nearing_columns p hm baseline hx js).mono fun _ _ => trivial

/-! ## Solves -/

namespace Adapter

/-- The solvers of the library ask at points of the box. -/
theorem Bundled.visits {adapter : Adapter Unit} (h : adapter.Bundled) {layout : Layout Double}
    (hgood : ∀ start, layout.checkedStart = .ok start → ∀ x,
      Minimize.InBox start.lower start.upper x → good x.toList) :
    (adapter.run layout).Meets (Visits Double (Error Double) good) fun _ => True := by
  have hplain : ∀ {run : Run Double (Error Double) (Termination Double)},
      (visiting (Error Double) good).holds run (fun _ => True) →
        (plain run).Meets (Visits Double (Error Double) good) fun _ => True :=
    fun hrun => (Program.meets_bind _ _).mpr (hrun.mono fun _ _ => trivial)
  cases h with
  | augmentedLagrangian config options =>
    exact hplain (AugmentedLagrangian.run_visits hgood config)
  | projectedBfgs config options =>
    show Program.Meets _ _ (if layout.rows = [] then _ else _)
    split
    · exact hplain (ProjectedBfgs.run_visits hgood config)
    · trivial

section

variable {adapter : Adapter τ} {engine : Engine} {memory : Engine.Memory} {elapsed : Duration}
  {history : History}

theorem keeping_answered (hreal : ∀ step, engine.method ≠ .complexStep step)
    (hvisits : (adapter.run problem.layout).Meets (Visits Double (Error Double) good)
      fun _ => True) :
    (keeping good engine.method here).holds (adapter.answered problem engine memory here)
      fun _ => True := by
  have hrun : (Bridge.keepingAnswer good engine.method here).holds
      ((adapter.run problem.layout).interpret (Bridge.answer problem engine here)) fun _ => True :=
    hvisits.interpret _ (Bridge.keeping_answer hreal)
  exact (hrun (.new memory) trivial).mono fun _ _ => trivial

theorem keeping_noteAll (events : List (Event Double)) :
    (keepingTask good m here).holds (noteAll events) fun _ => True := by
  induction events with
  | nil => exact (keepingTask good m here).pure () trivial
  | cons event events ih =>
    exact (keepingTask good m here).seq (Task.keeping_note event) fun _ => ih

theorem keeping_finish (o : Outcome τ) :
    (keepingTask good m here).holds (finish engine here o) fun _ => True := by
  by_cases hmode : engine.mode = .parallel
  · rw [finish_parallel hmode]
    refine (keepingTask good m here).seq
      (Task.keeping_lift (keeping_run (Session.keeping_release _))) fun released => ?_
    rcases released with e | ⟨⟩
    · rcases o with ⟨e' | _, findings⟩
      · exact (keepingTask good m here).seq (Task.keeping_note _) fun _ => Task.keeping_ofExcept _
      · exact Task.keeping_throw e _
    · exact Task.keeping_ofExcept _
  · rw [finish, if_neg hmode]
    exact Task.keeping_ofExcept _

/-- What the root goes on with after its run. -/
theorem keeping_conclude (o : Outcome τ) :
    (keeping good m here).holds
      ((finish engine here o).run.bind (adapter.keep problem history engine here elapsed o))
      fun _ => True := by
  refine (keeping good m here).seq (keeping_run (keeping_finish o)) fun result => ?_
  rcases result with e | ⟨t, counters⟩
  · trivial
  · exact (keeping good m here).seq (keeping_run (Task.keeping_note _)) fun _ => trivial

/-- What the root goes on with after a handshake. -/
theorem keeping_runAtRoot {prepared : Except (Error Double) Unit}
    (hreal : ∀ step, engine.method ≠ .complexStep step)
    (hvisits : (adapter.run problem.layout).Meets (Visits Double (Error Double) good)
      fun _ => True) {f : Outcome τ → Program rankAccess α}
    (hf : ∀ o, (keeping good engine.method here).holds (f o) fun _ => True) :
    (keeping good engine.method here).holds
      (match prepared with
        | .error e => f ⟨.error e, none⟩
        | .ok () => (adapter.answered problem engine memory here).bind fun ran => f (.ofRun ran))
      fun _ => True := by
  cases prepared with
  | error e => exact hf _
  | ok _ =>
    exact (keeping good engine.method here).seq (keeping_answered hreal hvisits) fun ran => hf _

/-- Without a session a root keeps to the rules throughout. -/
theorem keeping_solve_root (hmode : engine.mode ≠ .parallel)
    (hreal : ∀ step, engine.method ≠ .complexStep step)
    (hvisits : (adapter.run problem.layout).Meets (Visits Double (Error Double) good)
      fun _ => True) (size : Nat) :
    (keeping good engine.method ⟨rootRank, size⟩).holds
      (adapter.solve problem history engine memory ⟨rootRank, size⟩ elapsed) fun _ => True := by
  have hprepare : (keepingTask good engine.method ⟨rootRank, size⟩).holds
      (prepare problem engine ⟨rootRank, size⟩) fun _ => True := by
    rw [prepare, if_neg hmode]
    exact keeping_noteAll _
  rw [solve_root]
  refine (keeping good _ _).seq (keeping_run (Task.keeping_note _)) fun _ => ?_
  rw [runAtRoot_bind]
  refine (keeping good _ _).seq (keeping_run hprepare) fun prepared => ?_
  exact keeping_runAtRoot hreal hvisits fun o => keeping_conclude o

/-- A root that opens a session keeps to the rules from its first broadcast on. -/
theorem begins_solve_root (hmode : engine.mode = .parallel)
    (hreal : ∀ step, engine.method ≠ .complexStep step)
    (hvisits : (adapter.run problem.layout).Meets (Visits Double (Error Double) good)
      fun _ => True) (size : Nat) :
    Conduct.Begins (Conduct.nearby good engine.method) ⟨rootRank, size⟩
      (adapter.solve problem history engine memory ⟨rootRank, size⟩ elapsed) := by
  rw [solve_root]
  refine Task.begins_note _ fun _ => ?_
  rw [runAtRoot_bind, prepare_parallel _ hmode, Task.run_bind_bind]
  refine Session.begins_handshake.bind fun greeted => ?_
  cases greeted with
  | error e => exact keeping_conclude _
  | ok _ =>
    refine (keeping good _ _).seq (keeping_run (keeping_noteAll _)) fun prepared => ?_
    exact keeping_runAtRoot hreal hvisits fun o => keeping_conclude o

/-- The part of another rank, where the first broadcast is covered by the rules, too. -/
theorem keeping_assist (hother : here.rank ≠ rootRank) :
    (keepingTask good m here).holds (assist problem engine here) fun _ => True := by
  by_cases hmode : engine.mode = .parallel
  · rw [assist_parallel _ hmode]
    refine (keepingTask good m here).seq (Session.keeping_handshake hother) fun _ => ?_
    refine (keepingTask good m here).seq (Session.keeping_serveFrom hother _ _) fun _ => ?_
    exact (keepingTask good m here).pure none trivial
  · rw [assist, if_neg hmode]
    exact (keepingTask good m here).pure none trivial

/-- The part of another rank in a session begins like the root's. -/
theorem begins_assist (hother : here.rank ≠ rootRank) (hmode : engine.mode = .parallel)
    (f : Except (Error Double) (Option Nat) → Program rankAccess α)
    (hf : ∀ result, (keeping good m here).holds (f result) fun _ => True) :
    Conduct.Begins (Conduct.nearby good m) here ((assist problem engine here).run.bind f) := by
  rw [assist_parallel _ hmode, Task.run_bind_bind]
  refine Session.begins_handshake.bind fun greeted => ?_
  cases greeted with
  | error e => exact hf _
  | ok _ =>
    rw [Task.andThen_ok, Task.run_bind_bind]
    refine (keeping good m here).seq (keeping_run (Session.keeping_serveFrom hother _ _)) ?_
    intro served
    cases served with
    | error e => exact hf _
    | ok _ => exact hf _

end

end Adapter

/-- What the ranks of a group bring to a solve, in any modes. -/
structure GroupSolve where
  /-- The solvers; only the root's is run. -/
  adapter : Rank → Adapter Unit
  /-- The problems, whose layouts and models may differ. -/
  problem : Rank → Problem Double
  /-- The histories of the problems. -/
  history : Rank → History
  /-- The engines. -/
  engine : Rank → Engine
  /-- What the engines remember of earlier requests. -/
  memory : Rank → Engine.Memory
  /-- What the clocks of the ranks say of the solve. -/
  elapsed : Rank → Duration

namespace GroupSolve

/-- The part of a rank. -/
def program (solve : GroupSolve) (here : Place) : Program rankAccess (Solved Unit) :=
  (solve.adapter here.rank).solve (solve.problem here.rank) (solve.history here.rank)
    (solve.engine here.rank) (solve.memory here.rank) here (solve.elapsed here.rank)

/-- The group with its programs, after this many collectives. -/
def crew (solve : GroupSolve) (size count : Nat) (states : Rank → σ) :
    Crew σ (Solved Unit × Nat) :=
  .ofPrograms size count states fun r => solve.program ⟨r, size⟩

/-- The positions at which the root's commands come: all, or all but the first if that is where it
opens a session. -/
def Commands (solve : GroupSolve) (count k : Nat) : Prop :=
  (solve.engine rootRank).mode = .parallel → count < k

/-- Every endpoint keeps to the rules. -/
theorem meets_program {solve : GroupSolve}
    (hreal : ∀ step, (solve.engine rootRank).method ≠ .complexStep step)
    (hvisits : ((solve.adapter rootRank).run (solve.problem rootRank).layout).Meets
      (Visits Double (Error Double) good) fun _ => True) {r size : Nat} (hr : r < size)
    (count : Nat) :
    (((solve.program ⟨r, size⟩).interpret (⟨r, size⟩ : Place).overLink).run count).Meets
      ((Conduct.nearby good (solve.engine rootRank).method).onLink (solve.Commands count))
      fun _ => True := by
  have hup : ∀ k, solve.Commands count k → solve.Commands count (k + 1) :=
    fun k hk hmode => Nat.lt_succ_of_lt (hk hmode)
  have hsize : rootRank < size := Nat.lt_of_le_of_lt (Nat.zero_le r) hr
  -- the rules hold from the first position on, or after it where the root opens with its layout
  have hkeeping : ∀ {p : Program rankAccess (Solved Unit)},
      (keeping good (solve.engine rootRank).method ⟨r, size⟩).holds p (fun _ => True) →
        solve.Commands count count →
          ((p.interpret (⟨r, size⟩ : Place).overLink).run count).Meets
            ((Conduct.nearby good (solve.engine rootRank).method).onLink (solve.Commands count))
            fun _ => True :=
    fun h hcount => (Conduct.meets_overLink hup h hcount).mono fun _ _ => trivial
  have hbegins : ∀ {p : Program rankAccess (Solved Unit)},
      Conduct.Begins (Conduct.nearby good (solve.engine rootRank).method) ⟨r, size⟩ p →
        ¬ solve.Commands count count →
          ((p.interpret (⟨r, size⟩ : Place).overLink).run count).Meets
            ((Conduct.nearby good (solve.engine rootRank).method).onLink (solve.Commands count))
            fun _ => True :=
    fun h hcount => h.meets_overLink hup hsize hcount fun _ => Nat.lt_succ_self count
  by_cases hroot : r = rootRank
  · subst hroot
    by_cases hmode : (solve.engine rootRank).mode = .parallel
    · exact hbegins (Adapter.begins_solve_root hmode hreal hvisits size)
        fun hcount => Nat.lt_irrefl _ (hcount hmode)
    · exact hkeeping (Adapter.keeping_solve_root hmode hreal hvisits size)
        fun hmode' => absurd hmode' hmode
  · rw [program, Adapter.solve_other _ _ _ _ _ _ hroot]
    by_cases hcount : solve.Commands count count
    · refine hkeeping ?_ hcount
      exact (keeping good _ _).seq (keeping_run (Adapter.keeping_assist hroot)) fun _ => trivial
    by_cases hmode : (solve.engine r).mode = .parallel
    · exact hbegins (Adapter.begins_assist hroot hmode _ fun _ => trivial) hcount
    -- a rank that solves in another mode takes part in nothing
    · rw [Adapter.assist, if_neg hmode]
      trivial

variable {rules : Crew.Rules σ (Solved Unit × Nat)}

/-- In exact arithmetic and in that of doubles, no call of a model leaves the box, except that a
forward difference asks one step away from a point of the box: during a solve with a solver of the
library and any options, by finite differences with any step or with the model's own gradient, in
any mode and on any rank, whatever the models answer, in whatever order the messages come, and
whichever ranks unwind. -/
theorem calls_near_box {solve : GroupSolve} (hbundled : (solve.adapter rootRank).Bundled)
    (hreal : ∀ step, (solve.engine rootRank).method ≠ .complexStep step) :
    (∀ (p : Problem ℝ) (method : Method ℝ), p.StaysNear method) ∧
      ∀ (count : Nat) (states : Rank → σ) (reached : Crew σ (Solved Unit × Nat)),
        Crew.Reaches rules (solve.crew rules.size count states) reached →
          ∀ r < rules.size, ∀ c, (reached.hands r).Calls c →
            c.Nearby (solve.problem rootRank).Encloses (solve.engine rootRank).method := by
  refine ⟨fun p method => p.staysNear method Exact.ordered, ?_⟩
  -- a rank does as the root tells it, so the rules are kept by the group, not rank by rank
  intro count states reached hreaches r hr c hcalls
  have hvisits : ((solve.adapter rootRank).run (solve.problem rootRank).layout).Meets
      (Visits Double (Error Double) (solve.problem rootRank).Encloses) fun _ => True :=
    hbundled.visits fun start hstart x hx => Problem.encloses_of_inBox Double.ordered hstart hx
  exact Crew.asks_of_reaches (fun r hr => meets_program hreal hvisits hr count) hreaches hr hcalls

/-- Two variables, which start at their upper bounds. -/
def cornerProblem (α : Type) [Scalar α] : Problem α :=
  ⟨"corner", [⟨"u", .continuous, 0, 1, 1⟩, ⟨"v", .continuous, 0, 1, 1⟩], ["cost"], []⟩

/-- A solve of that problem. -/
def corner : GroupSolve where
  adapter _ := .projectedBfgs .default []
  problem _ := cornerProblem Double
  history _ := ⟨[]⟩
  engine _ := .new (.finiteDifference 0.5) .parallel
  memory _ := none
  elapsed _ := ⟨0, 0⟩

/-- A model that is level and has no constraints. -/
def flat : Model Double where
  evaluate _ := ⟨0, [], 0⟩
  evaluateComplex _ := none
  gradient _ := none

/-- The rank is about to evaluate its model at this point. -/
def evaluatesAt (x : List Double) (hand : Hand σ ρ) : Bool :=
  match hand.stage with
  | .working (.call (.model (.evaluate y)) _) _ => y = x
  | _ => false

theorem calls_of_evaluatesAt {x : List Double} {hand : Hand σ ρ}
    (h : evaluatesAt x hand = true) : hand.Calls (.evaluate x) := by
  unfold evaluatesAt at h
  split at h
  · next y next todo hstage =>
    obtain rfl := of_decide_eq_true h
    exact ⟨next, todo, hstage⟩
  · cases h

/-- The root opens the session and asks for the columns at the corner; then it is the turn of the
other rank, whose share is the second column. -/
theorem corner_calls :
    ∃ reached, Crew.Reaches (Crew.calmRules 2 fun _ => flat.responder)
      (corner.crew 2 0 fun _ => ()) reached ∧ (reached.hands 1).Calls (.evaluate [1, 1.5]) := by
  -- whose turn it is: both go through the handshake, then the root alone up to its baseline
  let turns := [0, 0, 1, 1, 0, 0, 0, 0, 0, 0, 1, 1]
  have hfollow : ((Crew.follow (fun _ => flat.responder) turns (corner.crew 2 0 fun _ => ())).any
      fun crew => evaluatesAt [1, 1.5] (crew.hands 1)) = true := by
    decide +kernel
  obtain ⟨reached, hreached, hcalls⟩ := (Option.any_eq_true _ _).mp hfollow
  refine ⟨reached, ?_, calls_of_evaluatesAt hcalls⟩
  exact Crew.reaches_of_follow (by decide) hreached

/-- A column of a forward difference is taken out of the box where the step leads there. -/
theorem column_leaves_box [Scalar α] {p : Problem α} {step : α} {baseline : Baseline α}
    {x : List α} {j : Nat} {a : α} (hlength : x.length = p.vars.length) (ha : x[j]? = some a)
    (hout : ¬ p.Encloses (x.set j (a + step))) :
    ¬ (Kernel.column (.forward step baseline) p x j).run.Meets (Nlp.Nearby p.Encloses .analytic)
      fun _ => True := by
  have hpoint : p.checkPoint (x.set j (a + step)).length = .ok () := by
    rw [Problem.checkPoint, List.length_set, if_pos hlength]
  intro hmeets
  rw [Kernel.column, ha] at hmeets
  dsimp only at hmeets
  rw [Problem.evaluate, hpoint] at hmeets
  obtain ⟨-, hasked⟩ := hmeets
  rcases (hasked () trivial).1 with hin | ⟨y, -, step', j', a', hmethod, -⟩
  · exact hout hin
  · cases hmethod

theorem corner_not_encloses [Scalar α] {a b : α} (h : 1 < b) :
    ¬ (cornerProblem α).Encloses [a, b] := by
  intro hencloses
  obtain ⟨-, hrest⟩ := List.forall₂_cons.mp hencloses
  obtain ⟨⟨-, hbelow⟩, -⟩ := List.forall₂_cons.mp hrest
  exact hbelow h

/-- A step leads out of the box where it starts at an upper bound, also if every variable starts
within its bounds.  No operation up to there rounds, and over the reals the column is the same. -/
theorem corner_leaves_box :
    (corner.adapter rootRank).Bundled ∧
      (corner.engine rootRank).method = .finiteDifference 0.5 ∧ (0 : Double) < 0.5 ∧
      (∀ v ∈ (corner.problem rootRank).vars, v.lower ≤ v.value ∧ v.value ≤ v.upper) ∧
      (∃ reached, Crew.Reaches (Crew.calmRules 2 fun _ => flat.responder)
        (corner.crew 2 0 fun _ => ()) reached ∧
        (reached.hands 1).Calls (.evaluate [1, 1.5]) ∧
        ¬ (corner.problem rootRank).Encloses [1, 1.5]) ∧
      (cornerProblem ℝ).Encloses [1, 1] ∧
        ∀ baseline, ¬ (Kernel.column (.forward 0.5 baseline) (cornerProblem ℝ) [1, 1] 1).run.Meets
          (Nlp.Nearby (cornerProblem ℝ).Encloses .analytic) fun _ => True := by
  have hcorner : (cornerProblem ℝ).Encloses [1, 1] :=
    .cons ⟨by norm_num, by norm_num⟩ (.cons ⟨by norm_num, by norm_num⟩ .nil)
  refine ⟨.projectedBfgs _ _, rfl, by decide +kernel, by decide +kernel, ?_, hcorner, ?_⟩
  · obtain ⟨reached, hreaches, hcalls⟩ := corner_calls
    have habove : (1 : Double) < 1.5 := by decide +kernel
    exact ⟨reached, hreaches, hcalls, corner_not_encloses habove⟩
  · intro baseline
    have habove : (1 : ℝ) < 1 + 0.5 := by norm_num
    exact column_leaves_box rfl rfl (corner_not_encloses habove)

theorem corner_calls_near_box :
    ∃ reached, Crew.Reaches (Crew.calmRules 2 fun _ => flat.responder)
      (corner.crew 2 0 fun _ => ()) reached ∧
      (reached.hands 1).Calls (.evaluate [1, 1.5]) ∧
      (ModelCall.evaluate [1, 1.5]).Nearby (corner.problem rootRank).Encloses
        (.finiteDifference 0.5) := by
  obtain ⟨reached, hreaches, hcalls⟩ := corner_calls
  have hbundled : (corner.adapter rootRank).Bundled := .projectedBfgs _ _
  have hreal : ∀ step, (corner.engine rootRank).method ≠ .complexStep step := by
    intro step hstep
    cases hstep
  obtain ⟨-, hnear⟩ := calls_near_box hbundled hreal
  exact ⟨reached, hreaches, hcalls, hnear 0 _ reached hreaches 1 Nat.one_lt_two _ hcalls⟩

end GroupSolve

end Nlp
