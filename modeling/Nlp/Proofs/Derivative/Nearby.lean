import Nlp.Derivative.Engine
import Nlp.Proofs.Contract

/-!
# Where a model is evaluated for derivatives

The values, the gradient and the columns of a Jacobian at a point come from calls of the model at
that very point, and, for forward differences, at points one step away from it: one entry is larger
by the step, wherever the bounds of its variable are.

## Main definitions

* `Method.Steps`: one point is a step of a finite difference away from another.
* `ModelCall.Nearby`: the calls at good points, and one step away from them.
* `nearing`: the local programs that make such calls only.

## Main results

* `Problem.nearing_evaluate`, `Problem.nearing_gradient`: values and gradient at a good point.
* `Kernel.nearing_columns`: forward differences at a good point.
-/

namespace Nlp

variable {α β : Type} [Scalar α]

/-- In `x` one entry of `y` has grown by the step of the finite difference. -/
def Method.Steps (m : Method α) (y x : List α) : Prop :=
  ∃ step j a, m = .finiteDifference step ∧ y[j]? = some a ∧ x = y.set j (a + step)

/-- The model is asked for values at a good point, or at one that is a step of the method away from
it, or for its gradient at a good point. -/
def ModelCall.Nearby (good : List α → Prop) (m : Method α) : ModelCall α → Prop
  | .evaluate x => good x ∨ ∃ y, good y ∧ m.Steps y x
  | .evaluateComplex _ => False
  | .gradient x => good x
  | .note _ | .outOfRange _ _ => True

/-- The model is asked nearby, and may answer anything. -/
def Nearby (good : List α → Prop) (m : Method α) : Contract (modelAccess α) :=
  ⟨ModelCall.Nearby good m, fun _ _ => True⟩

/-- The results, errors apart, of local programs that ask nearby. -/
abbrev nearing (good : List α → Prop) (m : Method α) : Always (Local α) :=
  (Always.program (Nearby good m)).except (Error α)

variable {good : List α → Prop} {m : Method α} {x : List α}

theorem nearing_ofExcept (r : Except (Error α) β) :
    (nearing good m).holds (liftM r) fun _ => True :=
  fun _ _ => trivial

theorem nearing_ask {c : ModelCall α} (hc : c.Nearby good m) :
    (nearing good m).holds (Local.ask c) fun _ => True :=
  ⟨hc, fun _ _ _ _ => trivial⟩

theorem nearing_throw (e : Error α) : (nearing good m).holds (throw e : Local α β) fun _ => True :=
  fun _ _ => trivial

theorem nearing_outOfRange (index size : Nat) :
    (nearing good m).holds (Local.outOfRange index size : Local α β) fun _ => True :=
  ⟨trivial, fun reply => reply.elim⟩

namespace Problem

variable (p : Problem α)

theorem nearing_evaluate (hx : (ModelCall.evaluate x).Nearby good m) :
    (nearing good m).holds (p.evaluate x) fun _ => True := by
  refine (nearing good m).seq (nearing_ofExcept _) fun _ => ?_
  refine (nearing good m).seq (nearing_ask trivial) fun _ => ?_
  refine (nearing good m).seq (nearing_ask hx) fun e => ?_
  exact (nearing good m).seq (nearing_ofExcept _) fun _ => (nearing good m).pure e trivial

theorem nearing_gradient (hx : good x) :
    (nearing good m).holds (p.gradient x) fun _ => True := by
  refine (nearing good m).seq (nearing_ofExcept _) fun _ => ?_
  refine (nearing good m).seq (nearing_ask hx) fun answer => ?_
  cases answer with
  | none => exact (nearing good m).pure none trivial
  | some s =>
    exact (nearing good m).seq (nearing_ofExcept _) fun _ => (nearing good m).pure (some s) trivial

end Problem

namespace Kernel

variable (p : Problem α) {step : α}

theorem nearing_column (hm : m = .finiteDifference step) (baseline : Baseline α) (hx : good x)
    (j : Nat) : (nearing good m).holds (column (.forward step baseline) p x j) fun _ => True := by
  rw [column]
  split
  · exact nearing_outOfRange _ _
  · next a ha =>
    have hstep : (ModelCall.evaluate (x.set j (a + step))).Nearby good m :=
      .inr ⟨x, hx, step, j, a, hm, ha, rfl⟩
    exact (nearing good m).seq (p.nearing_evaluate hstep) fun e => (nearing good m).pure _ trivial

/-- The columns of a forward difference take the model one step away from the point. -/
theorem nearing_columns (hm : m = .finiteDifference step) (baseline : Baseline α) (hx : good x)
    (js : List Nat) :
    (nearing good m).holds (columns (.forward step baseline) p x js) fun _ => True := by
  induction js with
  | nil => exact (nearing good m).pure [] trivial
  | cons j js ih =>
    refine (nearing good m).seq (nearing_column p hm baseline hx j) fun c => ?_
    exact (nearing good m).seq ih fun cs => (nearing good m).pure _ trivial

end Kernel

omit [Scalar α] in
/-- Without its events a program makes the other calls it makes with them. -/
theorem Program.Meets.muted {C : Contract (modelAccess α)}
    (hnote : ∀ event, C.replies (.note event) ()) {post : β → Prop}
    {p : Program (modelAccess α) β} (h : p.Meets C post) : p.muted.Meets C post := by
  -- to mute takes the notes out and keeps the other calls
  induction p with
  | done b => exact h
  | call c next ih =>
    cases c with
    | note event => exact ih () (h.2 () (hnote event))
    | evaluate x => exact ⟨h.1, fun reply hreply => ih reply (h.2 reply hreply)⟩
    | evaluateComplex z => exact ⟨h.1, fun reply hreply => ih reply (h.2 reply hreply)⟩
    | gradient x => exact ⟨h.1, fun reply hreply => ih reply (h.2 reply hreply)⟩
    | outOfRange index size => exact ⟨h.1, fun reply => reply.elim⟩

theorem Engine.nearing_analyticJacobian {good : List Double → Prop} {m : Method Double}
    (problem : Problem Double) {x : List Double} (hx : good x) :
    (nearing good m).holds (analyticJacobian problem x) fun _ => True := by
  refine (nearing good m).seq (problem.nearing_gradient hx) fun answer => ?_
  cases answer with
  | none => exact nearing_throw _
  | some s =>
    dsimp only
    split
    · exact (nearing good m).pure _ trivial
    · exact nearing_outOfRange _ _

end Nlp
