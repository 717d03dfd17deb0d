import Nlp.Solver.Config
import Nlp.Solver.Minimize

/-!
# The augmented Lagrangian solver

Each outer iteration minimises the merit

`f(x) + Σ_equal (l c + r/2 c²) + Σ_atMost (max(0, l + r c)² - l²) / (2 r)`

over the box of the variables, with multipliers `l` and penalty `r`, and then moves the
multipliers to the weights of the constraint rows at the new point.  The penalty grows whenever
the measure of infeasibility and complementarity fails to shrink to a quarter.

## Main definitions

* `weight`, `meritValue`, `meritGradient`: the merit and its derivative.
* `measure`: feasibility and complementarity in one number.
* `outerIteration`: one outer iteration.
* `solve`: the whole method.
-/

namespace Nlp.AugmentedLagrangian

/-! ## The merit -/

section

variable {α : Type} [Scalar α] {n m : Nat}

/-- The factor of a row's gradient in the gradient of the merit, and the row's next
multiplier. -/
def weight (sense : Sense) (multiplier penalty c : α) : α :=
  let shifted := multiplier + penalty * c
  match sense with
  | .equal => shifted
  | .atMost => Scalar.max shifted 0

/-- What a row adds to the merit. -/
def term (sense : Sense) (multiplier penalty c : α) : α :=
  match sense with
  | .equal => multiplier * c + 0.5 * penalty * c * c
  | .atMost =>
    let w := weight sense multiplier penalty c
    (w * w - multiplier * multiplier) / (2.0 * penalty)

/-- The constraint rows of a minimisation: sense and multiplier of each, and the penalty. -/
structure Penalised (α : Type) (m : Nat) where
  /-- The sense of each row. -/
  senses : Vector Sense m
  /-- The multiplier of each row. -/
  multipliers : Vector α m
  /-- The penalty. -/
  penalty : α

/-- The rows with their multipliers, in order. -/
def Penalised.rows (p : Penalised α m) : List (Sense × α) :=
  p.senses.toList.zip p.multipliers.toList

/-- The merit of a point with these values. -/
def meritValue (p : Penalised α m) (v : Values α) : α :=
  (v.constraints.zip p.rows).foldl (fun total (c, sense, l) => total + term sense l p.penalty c)
    v.objective

/-- The gradient of the objective: row 0 of the Jacobian. -/
def objectiveGradient (jacobian : Vector (Vector α n) (1 + m)) : Vector α n :=
  jacobian[0]

/-- The gradient of a constraint: the rows of the Jacobian after row 0. -/
def constraintGradient (jacobian : Vector (Vector α n) (1 + m)) (j : Fin m) : Vector α n :=
  jacobian[1 + j.val]

/-- The gradient of the merit at a point with these constraint values and this Jacobian.  A row
of weight zero is left out. -/
def meritGradient (p : Penalised α m) (constraints : List α)
    (jacobian : Vector (Vector α n) (1 + m)) : Vector α n :=
  (constraints.zip (p.rows.zip (jacobian.toList.drop 1))).foldl
    (fun g (c, (sense, l), row) =>
      let w := weight sense l p.penalty c
      if w != 0 then addScaled g w row else g)
    (objectiveGradient jacobian)

/-- Feasibility and complementarity in one number: the largest `|c|` of an equality and
`|max(c, -l/r)|` of an inequality. -/
def measure (p : Penalised α m) (constraints : Vector α m) : α :=
  (List.finRange m).foldl
    (fun total j =>
      Scalar.max total <|
        match p.senses.get j with
        | .equal => Scalar.abs (constraints.get j)
        | .atMost => Scalar.abs (Scalar.max (constraints.get j) (-p.multipliers.get j / p.penalty)))
    0

/-- The multipliers after a minimisation: the weight of each row. -/
def updateMultipliers (p : Penalised α m) (constraints : Vector α m) : Vector α m :=
  Vector.ofFn fun j => weight (p.senses.get j) (p.multipliers.get j) p.penalty (constraints.get j)

end

variable {α ε : Type} [Scalar α] {n m : Nat}

/-- The values found last, with their point. -/
abbrev Cache (α : Type) (n : Nat) : Type := Option (Vector α n × Values α)

/-- The values at a point, taken from the cache if that holds a numerically equal point. -/
def valuesAt (x : Vector α n) : StateT (Cache α n) (Run α ε) (Values α) := do
  match ← get with
  | some (point, values) =>
    if samePoint point.toList x.toList then return values
  | none => pure ()
  let values ← StateT.lift (Run.evaluate x.toList)
  set (some (x, values) : Cache α n)
  return values

/-- The penalised objective as a merit.  Values for more constraints than there are rows run past
the rows. -/
def answer (p : Penalised α m) :
    (c : MeritCall α n) → StateT (Cache α n) (Run α ε) ((merit α n).Reply c)
  | .value x => do
    let values ← valuesAt x
    if m < values.constraints.length then StateT.lift (Run.outOfRange m m)
    else return (meritValue p values : α)
  | .gradient x => do
    let values ← valuesAt x
    let jacobian ← StateT.lift (do Run.shaped (← Run.jacobian x.toList) (1 + m) n)
    if m < values.constraints.length then StateT.lift (Run.outOfRange m m)
    else return (meritGradient p values.constraints jacobian : Vector α n)
  | .report event => StateT.lift (Run.report event)

/-! ## The outer iterations -/

/-- Outer iterations without progress at the ceiling before a problem counts as infeasible. -/
def stallLimit : Nat := 3

/-- An objective below this counts as unbounded. -/
def unboundedObjective : α := -1e20

/-- What the last outer iteration found. -/
structure Found (α : Type) where
  /-- The values at the iterate. -/
  values : Values α
  /-- The measure there. -/
  measure : α
  /-- The projected gradient there, relative to the scale of the objective gradient. -/
  gradientNorm : Option α

/-- The state at the top of an outer iteration. -/
structure Outer (α : Type) (n m : Nat) where
  /-- The iterate. -/
  point : Vector α n
  /-- The multipliers. -/
  multipliers : Vector α m
  /-- The penalty. -/
  penalty : α
  /-- The measure of the iteration before. -/
  previous : Option α
  /-- Iterations at the ceiling without progress, since the last one with it. -/
  stalled : Nat
  /-- The objective after each iteration. -/
  history : Array α
  /-- What the iteration before found. -/
  last : Option (Found α)

/-- The end of a run. -/
def finish (config : Config α) (code : ReturnCode) (x : Vector α n) (values : Values α)
    (multipliers : Vector α m) (iterations : Nat) (history : Array α) :
    Run α ε (Termination α) := do
  if 1 ≤ config.printLevel then
    Run.report (.finished .augmentedLagrangian code iterations values.objective)
  return {
    code := code.toInt
    point := x.toList
    objective := values.objective
    constraints := values.constraints
    multipliers := multipliers.toList
    iterations
    history := history.toList }

/-- The code of a run whose outer iterations ran out. -/
def exhaustedCode (config : Config α) (penalty : α) (found : Found α) : ReturnCode :=
  if found.measure ≤ config.acceptableTolerance ∧
      found.gradientNorm.any (fun norm => decide (norm ≤ config.acceptableTolerance)) then
    .acceptable
  else if config.constraintTolerance < found.measure ∧ config.penaltyMax ≤ penalty then
    .infeasible
  else
    .iterationLimit

/-- Penalty and stall count after an iteration with this measure.  Without progress the penalty
grows up to its ceiling; at the ceiling an infeasible iterate counts as a stall. -/
def adapt (config : Config α) (penalty : α) (previous : Option α) (stalled : Nat) (measure : α) :
    α × Nat :=
  if previous.any fun before => decide (0.25 * before < measure) then
    if penalty < config.penaltyMax then
      (Scalar.min (penalty * config.penaltyGrowth) config.penaltyMax, stalled)
    else if config.constraintTolerance < measure then (penalty, stalled + 1)
    else (penalty, stalled)
  else (penalty, 0)

/-- What an outer iteration comes to. -/
inductive Next (α : Type) (n m : Nat) where
  /-- The run is at its end. -/
  | ended (t : Termination α)
  /-- There is another iteration, from this state. -/
  | goesOn (s : Outer α n m)

/-- The size of the objective gradient in this Jacobian, at least one, to which the tolerance of a
minimisation is relative. -/
def gradientScale (jacobian : Vector (Vector α n) (1 + m)) : α :=
  Scalar.max (infNorm (objectiveGradient jacobian)) 1

/-- How an outer iteration from `s` goes on after a minimisation that ended in numbers.  Success and
the other ends are tested in a fixed order; without an end the penalty is adapted. -/
def conclude (config : Config α) (penalised : Penalised α m) (outer : Nat) (s : Outer α n m)
    (size : α) (inner : Minimize.Outcome α n) (values : Values α) (constraints : Vector α m) :
    Run α ε (Next α n m) :=
  let history := s.history.push values.objective
  let measure := measure penalised constraints
  let multipliers := updateMultipliers penalised constraints
  let ended (code : ReturnCode) : Run α ε (Next α n m) :=
    .ended <$> finish config code inner.point values multipliers (outer + 1) history
  if measure ≤ config.constraintTolerance ∧
      inner.gradientNorm.any (fun norm => decide (norm ≤ config.tolerance * size)) then
    ended .succeeded
  else if values.objective < unboundedObjective then
    ended .diverging
  else
    let (penalty, stalled) := adapt config s.penalty s.previous s.stalled measure
    if stallLimit ≤ stalled then
      ended .infeasible
    else
      return .goesOn
        { point := inner.point
          multipliers
          penalty
          previous := some measure
          stalled
          history
          last := some ⟨values, measure, inner.gradientNorm.map (· / size)⟩ }

/-- The outer iteration of number `outer`. -/
def outerIteration (config : Config α) (senses : Vector Sense m) (lower upper : Vector α n)
    (outer : Nat) (s : Outer α n m) : Run α ε (Next α n m) := do
  let jacobian ← Run.shaped (← Run.jacobian s.point.toList) (1 + m) n
  let size := gradientScale jacobian
  let penalised : Penalised α m := ⟨senses, s.multipliers, s.penalty⟩
  let (inner, cache) ← ((minimize lower upper s.point
    { maxIterations := config.maxInner
      tolerance := config.tolerance * size
      maxStepRatio := config.maxStepRatio
      verbose := decide (5 ≤ config.printLevel) }).interpret (answer penalised)).run none
  let (values, _) ← (valuesAt inner.point).run cache
  if inner.stop = .nonFinite ∨ ¬ values.isFinite then
    Run.report (.nonFinite outer)
    .ended <$> finish config .diverging inner.point values s.multipliers (outer + 1)
      (s.history.push values.objective)
  else
    match vectorOf? m (values.constraints.take m) with
    | none => Run.outOfRange values.constraints.length values.constraints.length
    | some constraints =>
      let measure := measure penalised constraints
      if 3 ≤ config.printLevel then
        Run.report (.outerReport outer values.objective inner.value measure inner.gradientNorm
          s.penalty inner.iterations inner.stop)
      else
        Run.report (.outerTrace outer values.objective inner.value measure s.penalty)
      conclude config penalised outer s size inner values constraints

/-- The end of a run whose outer iterations ran out after `outer` of them. -/
def exhausted (config : Config α) (outer : Nat) (s : Outer α n m) : Run α ε (Termination α) :=
  match s.last with
  | none => do
    let values ← Run.evaluate s.point.toList
    finish config .iterationLimit s.point values s.multipliers 0 s.history
  | some found =>
    finish config (exhaustedCode config s.penalty found) s.point found.values s.multipliers
      outer s.history

/-- The outer iterations from `outer` on, of which `remaining` are left. -/
def outerIterations (config : Config α) (senses : Vector Sense m) (lower upper : Vector α n) :
    (remaining outer : Nat) → Outer α n m → Run α ε (Termination α)
  | 0, outer, s => exhausted config outer s
  | remaining + 1, outer, s => do
    match ← outerIteration config senses lower upper outer s with
    | .ended t => return t
    | .goesOn s => outerIterations config senses lower upper remaining (outer + 1) s

/-- The state before the first outer iteration. -/
def Outer.first (config : Config α) (point : Vector α n) : Outer α n m where
  point
  multipliers := 0
  penalty := config.penaltyInit
  previous := none
  stalled := 0
  history := #[]
  last := none

/-- The most objective values for which there can be room: eight bytes for each have to stay below
`2 ^ 63` bytes. -/
def historyCapacity : Nat := (UInt64.size / 2 - 1) / 8

/-- A run of the solver.  Room for a full history is taken before the first iteration. -/
def solve (config : Config α) (problem : Layout α) : Run α ε (Termination α) := do
  match problem.checkedStart with
  | .error e => Run.refuse e
  | .ok start =>
    if historyCapacity < config.maxOuter then Run.outOfRange config.maxOuter historyCapacity
    else
      outerIterations config ⟨problem.rows.toArray, rfl⟩ start.lower start.upper
        config.maxOuter 0 (.first config start.point)

/-- A run of the solver whose configuration is tested first. -/
def run (config : Config α) (problem : Layout α) : Run α ε (Termination α) :=
  match config.validate with
  | .error e => Run.refuse e
  | .ok () => solve config problem

end Nlp.AugmentedLagrangian
