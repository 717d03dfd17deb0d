import Nlp.Problem.Evaluation

/-!
# Column kernels

The evaluation of single columns of a Jacobian, by perturbing one variable.

## Main definitions

* `Baseline`, `Kernel`: a perturbation scheme with everything it needs, ready to be sent to any
  rank.
* `Kernel.column`, `Kernel.columns`.
* `Program.muted`: a program whose events are lost.
-/

namespace Nlp

/-- The unperturbed values of a forward difference. -/
structure Baseline (α : Type) where
  /-- The objective. -/
  objective : α
  /-- The constraint rows. -/
  constraints : List α
deriving DecidableEq

/-- The values of an evaluation as a baseline. -/
def Baseline.ofEvaluation {α : Type} (e : Evaluation α) : Baseline α :=
  ⟨e.objective, e.constraints⟩

/-- A perturbation scheme. -/
inductive Kernel (α : Type) where
  /-- Forward differences from a baseline. -/
  | forward (step : α) (baseline : Baseline α)
  /-- Complex step. -/
  | complex (step : α)
deriving DecidableEq

/-- A column of a Jacobian with its index: the derivatives of objective and constraints by one
variable. -/
abbrev Column (α : Type) : Type := Nat × List α

namespace Kernel

variable {α : Type} [Scalar α]

/-- The difference quotients of a perturbed evaluation; a row without baseline is left out. -/
def differences (step : α) (baseline : Baseline α) (e : Evaluation α) : List α :=
  (e.objective - baseline.objective) / step ::
    List.zipWith (fun g g₀ => (g - g₀) / step) e.constraints baseline.constraints

/-- The imaginary quotients of an evaluation at a complex point. -/
def imaginaryParts (step : α) (e : Evaluation (Complex α)) : List α :=
  e.objective.im / step :: e.constraints.map fun g => g.im / step

/-- The derivatives by variable `j` at `x`. -/
def column (k : Kernel α) (p : Problem α) (x : List α) (j : Nat) : Local α (List α) :=
  match x[j]? with
  | none => Local.outOfRange j x.length
  | some xj =>
    match k with
    | .forward step baseline => do
      let e ← p.evaluate (x.set j (xj + step))
      return differences step baseline e
    | .complex step => do
      match ← p.evaluateComplex ((x.map Complex.ofReal).set j ⟨xj, step⟩) with
      | none => throw .complexStepUnsupported
      | some e => return imaginaryParts step e

/-- Some columns, one after another, up to the first that fails. -/
def columns (k : Kernel α) (p : Problem α) (x : List α) : List Nat → Local α (List (Column α))
  | [] => return []
  | j :: js => do
    let c ← k.column p x j
    let cs ← columns k p x js
    return (j, c) :: cs

end Kernel

/-- A program without its events, as one that runs on a pool whose log nobody reads. -/
def Program.muted {α ρ : Type} : Program (modelAccess α) ρ → Program (modelAccess α) ρ
  | .done r => .done r
  | .call (.note _) next => (next ()).muted
  | .call (.evaluate x) next => .call (.evaluate x) fun reply => (next reply).muted
  | .call (.evaluateComplex z) next => .call (.evaluateComplex z) fun reply => (next reply).muted
  | .call (.gradient x) next => .call (.gradient x) fun reply => (next reply).muted
  | .call (.outOfRange i n) next => .call (.outOfRange i n) fun reply => (next reply).muted

end Nlp
