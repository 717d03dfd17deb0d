import Nlp.Options.Table
import Nlp.Solver.Config

/-!
# Option schemas

A schema makes the fields of a closed configuration reachable by string keys.  Each setting reads
and writes one field, and a value is tested before it is written, so every configuration that is
reached from the default one by settings passes the tests of its fields.

## Main definitions

* `Setting`: one key with its field.
* `Schema`: the settings of a configuration; `Schema.keys`, `Schema.apply`, `Schema.snapshot`.
* The schemas of the two solvers.
-/

namespace Nlp

/-- One field of a configuration under its key. -/
structure Setting (κ : Type) where
  /-- The key. -/
  key : String
  /-- The field. -/
  get : κ → OptionValue
  /-- The configuration with another value of the field, or why the value is refused. -/
  set : OptionValue → κ → Except (Error Double) κ

namespace Setting

variable {κ : Type}

/-- A field that holds a positive finite number. -/
def number (key : String) (get : κ → Double) (put : Double → κ → κ) : Setting κ where
  key
  get c := .float (get c)
  set v c := return put (← v.positive key) c

/-- A field that holds a number greater than one. -/
def factor (key : String) (get : κ → Double) (put : Double → κ → κ) : Setting κ where
  key
  get c := .float (get c)
  set v c := do
    let d ← v.positive key
    if d ≤ 1 then throw (.invalidOption key (.notAboveOne d))
    return put d c

/-- A field that holds a positive number of things. -/
def limit (key : String) (get : κ → Nat) (put : Nat → κ → κ) : Setting κ where
  key
  get c := .ofNat (get c)
  set v c := return put (← v.count key) c

/-- A field that holds a print level, from 0 to 5. -/
def level (key : String) (get : κ → Nat) (put : Nat → κ → κ) : Setting κ where
  key
  get c := .ofNat (get c)
  set v c := return put (← v.intIn key 0 5).toNat c

end Setting

/-- A configuration whose fields have keys. -/
class Schema (κ : Type) where
  /-- The configuration nothing has been set in. -/
  default : κ
  /-- The settings, in the order in which they are listed. -/
  settings : List (Setting κ)

namespace Schema

variable {κ : Type} [Schema κ]

/-- The keys, in the order of the settings. -/
def keys (κ : Type) [Schema κ] : List String :=
  (settings (κ := κ)).map Setting.key

/-- The configuration with one option set. -/
def apply (c : κ) (key : String) (value : OptionValue) : Except (Error Double) κ :=
  match settings.find? fun s : Setting κ => s.key == key with
  | some s => s.set value c
  | none => .error (.unknownOption key)

/-- The values of all options. -/
def snapshot (c : κ) : OptionTable :=
  Ascending.ofList (settings.map fun s : Setting κ => (s.key, s.get c))

end Schema

/-- The options of the augmented Lagrangian solver. -/
instance : Schema (AugmentedLagrangian.Config Double) where
  default := .default
  settings := [
    .level "print_level" (·.printLevel) fun v c => { c with printLevel := v },
    .limit "max_iter" (·.maxOuter) fun v c => { c with maxOuter := v },
    .limit "max_inner_iter" (·.maxInner) fun v c => { c with maxInner := v },
    .number "tol" (·.tolerance) fun v c => { c with tolerance := v },
    .number "constr_viol_tol" (·.constraintTolerance)
      fun v c => { c with constraintTolerance := v },
    .number "acceptable_tol" (·.acceptableTolerance)
      fun v c => { c with acceptableTolerance := v },
    .number "penalty_init" (·.penaltyInit) fun v c => { c with penaltyInit := v },
    .factor "penalty_growth" (·.penaltyGrowth) fun v c => { c with penaltyGrowth := v },
    .number "penalty_max" (·.penaltyMax) fun v c => { c with penaltyMax := v },
    .number "max_step_ratio" (·.maxStepRatio) fun v c => { c with maxStepRatio := v }]

/-- The options of the projected BFGS solver. -/
instance : Schema (ProjectedBfgs.Config Double) where
  default := .default
  settings := [
    .level "print_level" (·.printLevel) fun v c => { c with printLevel := v },
    .limit "max_iter" (·.maxIterations) fun v c => { c with maxIterations := v },
    .number "tol" (·.tolerance) fun v c => { c with tolerance := v },
    .number "max_step_ratio" (·.maxStepRatio) fun v c => { c with maxStepRatio := v }]

end Nlp
