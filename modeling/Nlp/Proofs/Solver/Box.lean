import Nlp.Proofs.Order
import Nlp.Proofs.Solver.Walk
import Nlp.Problem.Basic

/-!
# Where a solver asks for values

A solver asks its callbacks at points of the box only, whatever it is answered: the start is moved
into the box before the first call, every trial of a line search is, and an iterate is a start or a
trial.  Nothing but the order of the numbers is needed for that, so it holds over the reals, where a
point of the box is between the bounds, and of doubles, where an entry can also be a not-a-number,
which is not below nor above anything.

## Main definitions

* `Variable.Admits`, `Problem.Encloses`: an entry within its bounds, and the points of the box.
* `Visits`: the programs over the callbacks that ask at good points only, and `visiting`, the runs
  that do.

## Main results

* `Problem.encloses_of_inBox`: clamping leads to a point of the box.
* `AugmentedLagrangian.run_visits`, `ProjectedBfgs.run_visits`: where the solvers ask.
-/

namespace Nlp

variable {α ε β : Type}

/-! ## Boxes -/

section

variable [Scalar α]

/-- The number is not below the lower bound of the variable, nor above its upper bound. -/
def Variable.Admits (v : Variable α) (a : α) : Prop :=
  ¬ a < v.lower ∧ ¬ v.upper < a

/-- The point has an entry for every variable, which its bounds admit. -/
def Problem.Encloses (p : Problem α) (x : List α) : Prop :=
  List.Forall₂ Variable.Admits p.vars x

end

/-- Real numbers are admitted exactly if they are between the bounds. -/
theorem Exact.admits_iff {v : Variable ℝ} {a : ℝ} :
    v.Admits a ↔ v.lower ≤ a ∧ a ≤ v.upper := by
  rw [Variable.Admits]
  exact and_congr not_lt not_lt

/-- Among the doubles, a not-a-number is admitted, too. -/
theorem Double.admits_iff {v : Variable Double} (hbounds : v.lower ≤ v.upper) {a : Double} :
    v.Admits a ↔ (v.lower ≤ a ∧ a ≤ v.upper) ∨ a.isNaN = true := by
  obtain ⟨hlower, hupper⟩ := not_isNaN_of_le hbounds
  constructor
  · rintro ⟨hbelow, habove⟩
    cases ha : a.isNaN with
    | true => exact .inr rfl
    | false => exact .inl ⟨le_of_not_lt hlower ha hbelow, le_of_not_lt ha hupper habove⟩
  · rintro (⟨hle, hge⟩ | hnan)
    · exact ⟨not_lt_of_le hle, not_lt_of_le hge⟩
    · exact ⟨not_lt_of_isNaN (.inl hnan), not_lt_of_isNaN (.inr hnan)⟩

/-- The points that clamping leads to, between the bounds a solver has checked, are those of the
box. -/
theorem Problem.encloses_of_inBox [Scalar α] (hordered : Scalar.Ordered α) {p : Problem α}
    {start : Start α p.layout.dimension} (hstart : p.layout.checkedStart = .ok start)
    {x : Vector α p.layout.dimension} (hx : Minimize.InBox start.lower start.upper x) :
    p.Encloses x.toList := by
  obtain ⟨hlower, hupper, hbounds, -⟩ := Layout.checkedStart_eq_ok hstart
  obtain ⟨y, rfl⟩ := hx
  refine List.forall₂_iff_get.mpr ⟨Vector.length_toList.symm, fun i hi hi' => ?_⟩
  have hlower' : start.lower.get ⟨i, hi⟩ = (p.vars.get ⟨i, hi⟩).lower := by
    have hget := congrArg (fun l => l[i]?) hlower
    simpa [Problem.layout, hi] using hget
  have hupper' : start.upper.get ⟨i, hi⟩ = (p.vars.get ⟨i, hi⟩).upper := by
    have hget := congrArg (fun l => l[i]?) hupper
    simpa [Problem.layout, hi] using hget
  have hentry : (clampTo start.lower start.upper y).toList.get ⟨i, hi'⟩ =
      Scalar.clamp (start.lower.get ⟨i, hi⟩) (start.upper.get ⟨i, hi⟩) (y.get ⟨i, hi⟩) := by
    rw [List.get_eq_getElem, Vector.getElem_toList]
    exact entry_ofFn _ ⟨i, hi⟩
  rw [Variable.Admits, hentry, ← hlower', ← hupper']
  exact hordered.not_lt_clamp (hbounds ⟨i, hi⟩) _

/-! ## Programs over the callbacks -/

/-- Values and Jacobians are asked for at good points only, and may be anything. -/
def Visits (α ε : Type) (good : List α → Prop) : Contract (callbacks α ε) where
  asks
    | .evaluate x | .jacobian x => good x
    | .report _ | .outOfRange _ _ => True
  replies _ _ := True

variable {good : List α → Prop}

/-- The results of runs that visit good points only. -/
abbrev visiting (ε : Type) (good : List α → Prop) : Always (Run α ε) :=
  (Always.program (Visits α ε good)).except (Failure α ε)

/-- A run may be answered anything, and so fail anywhere. -/
theorem visiting_covers (rows : Nat) :
    (visiting ε good).Covers good rows fun _ => True where
  evaluate x hx := by
    refine ⟨hx, fun reply _ => ?_⟩
    cases reply with
    | ok values => exact fun _ _ => trivial
    | error e => exact fun _ _ => trivial
  jacobian x hx := by
    refine ⟨hx, fun reply _ => ?_⟩
    cases reply with
    | ok matrix => exact fun _ _ => trivial
    | error e => exact fun _ _ => trivial
  report p := ⟨trivial, fun _ _ _ _ => trivial⟩
  refuse e post _ b hb := by cases hb
  astray _ index size post _ _ := ⟨trivial, fun reply => reply.elim⟩

/-! ## Solvers -/

section

variable [Scalar α] {problem : Layout α}
  (hgood : ∀ start, problem.checkedStart = .ok start → ∀ x,
    Minimize.InBox start.lower start.upper x → good x.toList)
include hgood

/-- The solver visits points of its box only. -/
theorem AugmentedLagrangian.run_visits (config : Config α) :
    (visiting ε good).holds (run config problem) fun _ => True := by
  rcases holds_run (visiting_covers _) config hgood with hrun | ⟨index, size, hrun⟩
  · exact (visiting ε good).mono _ (fun _ _ => trivial) hrun
  · rw [hrun]
    exact ⟨trivial, fun reply => reply.elim⟩

/-- The solver visits points of its box only. -/
theorem ProjectedBfgs.run_visits (config : Config α) :
    (visiting ε good).holds (run config problem) fun _ => True :=
  (visiting ε good).mono _ (fun _ _ => trivial)
    (holds_run (visiting_covers 0).toAnswers config hgood)

end

end Nlp
