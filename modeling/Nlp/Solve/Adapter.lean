import Nlp.Error
import Nlp.Options.Table
import Nlp.Solver.AugmentedLagrangian
import Nlp.Solver.ProjectedBfgs

/-!
# Adapters

An adapter is a solver under a name, with its options fixed: a program over the callbacks of the
problem it is given.

## Main definitions

* `Adapter`.
* `Adapter.augmentedLagrangian`, `Adapter.projectedBfgs`: the solvers of this library.
-/

namespace Nlp

/-- A solver with its options, whose runs give findings of type `τ` besides their
termination. -/
structure Adapter (τ : Type) where
  /-- The name of the solver. -/
  name : String
  /-- The options in effect. -/
  options : OptionTable
  /-- A run on a problem of this layout. -/
  run : Layout Double →
    Program (callbacks Double (Error Double)) (Except (Error Double) (Termination Double) × τ)

namespace Adapter

/-- Why a run gives no termination, seen from outside. -/
def failureError : Failure Double (Error Double) → Error Double
  | .callback e => e
  | .solver e => .ofSolver e

/-- A solver run without findings. -/
def plain (run : Run Double (Error Double) (Termination Double)) :
    Program (callbacks Double (Error Double)) (Except (Error Double) (Termination Double) × Unit) :=
  run.run.bind fun result => .done (result.mapError failureError, ())

/-- The augmented Lagrangian solver. -/
def augmentedLagrangian (config : AugmentedLagrangian.Config Double) (options : OptionTable) :
    Adapter Unit where
  name := "alm"
  options
  run layout := plain (AugmentedLagrangian.run config layout)

/-- The projected BFGS solver, which refuses a problem with constraints before it looks at its
configuration. -/
def projectedBfgs (config : ProjectedBfgs.Config Double) (options : OptionTable) :
    Adapter Unit where
  name := "bfgs"
  options
  run layout :=
    if layout.rows = [] then plain (ProjectedBfgs.run config layout)
    else .done (.error (.unsupported (.generalConstraints layout.rows.length)), ())

end Adapter

end Nlp
