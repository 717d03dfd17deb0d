import Nlp.Solve.Adapter

/-!
# Probes

An adapter that asks for given things and then ends with a given record: it shows what a solver
would be told.

## Main definitions

* `Probe`, `Finding`: what is asked for, and what comes of it.
* `Adapter.probing`.
-/

namespace Nlp

/-- What a probing adapter asks for. -/
inductive Probe where
  /-- The layout. -/
  | layout
  /-- The values at a point. -/
  | evaluate (x : List Double)
  /-- The Jacobian at a point. -/
  | jacobian (x : List Double)

/-- What comes of a probe. -/
inductive Finding where
  /-- The layout. -/
  | layout (layout : Layout Double)
  /-- Values. -/
  | values (values : Values Double)
  /-- A Jacobian. -/
  | jacobian (matrix : Matrix Double)
  /-- A failure of the callback. -/
  | failure (error : Error Double)

namespace Probe

/-- Programs over the callbacks of a problem. -/
abbrev Asking : Type → Type :=
  Program (callbacks Double (Error Double))

/-- What comes of one probe. -/
def ask (layout : Layout Double) : Probe → Asking Finding
  | .layout => return .layout layout
  | .evaluate x => do
    let r : Except (Error Double) (Values Double) ←
      Program.perform (I := callbacks Double (Error Double)) (.evaluate x)
    return match r with
      | .ok v => .values v
      | .error e => .failure e
  | .jacobian x => do
    let r : Except (Error Double) (Matrix Double) ←
      Program.perform (I := callbacks Double (Error Double)) (.jacobian x)
    return match r with
      | .ok m => .jacobian m
      | .error e => .failure e

/-- The findings of some probes.  A failure is a finding like the others, or, if `stops`, the
error the run ends with. -/
def askAll (layout : Layout Double) (stops : Bool) :
    List Probe → Asking (Except (Error Double) Unit × List Finding)
  | [] => return (.ok (), [])
  | probe :: probes => do
    match ← ask layout probe, stops with
    | .failure e, true => return (.error e, [])
    | finding, _ => do
      let (result, findings) ← askAll layout stops probes
      return (result, finding :: findings)

end Probe

/-- An adapter that asks for given things and ends with a given record. -/
def Adapter.probing (name : String) (probes : List Probe) (stops : Bool)
    (ending : Termination Double) : Adapter (List Finding) where
  name
  options := []
  run layout := do
    let (result, findings) ← Probe.askAll layout stops probes
    return (result.map fun () => ending, findings)

end Nlp
