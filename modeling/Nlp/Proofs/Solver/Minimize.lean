import Nlp.Proofs.Contract
import Nlp.Solver.Minimize

/-!
# What a minimisation keeps and what it ends with

A minimisation evaluates its merit at points of the box only, and the point it ends at is one of
them.  A norm it ends with that is within the tolerance is the norm of the projected gradient at
that very point: the norms it carries along from earlier iterations are all too large.

Nothing here depends on the arithmetic, so it holds of doubles as well as of real numbers.

## Main definitions

* `Minimize.Merited`: what a minimisation relies on and asks for.
* `Minimize.Ended`: what it ends with.

## Main results

* `lineSearch_meets`, `iterateOnce_meets`: the parts of an iteration.
* `minimize_meets`: the whole minimisation.
-/

namespace Nlp

namespace Minimize

variable {α : Type} [Scalar α] {n : Nat}

/-- The gradient without the entries of variables that it holds on their bounds. -/
def projected (lower upper x g : Vector α n) : Vector α n :=
  mask (active lower upper x g) g

theorem projected_getElem (lower upper x g : Vector α n) (i : Fin n) :
    (projected lower upper x g).get i =
      if (x.get i ≤ lower.get i ∧ 0 < g.get i) ∨ (upper.get i ≤ x.get i ∧ g.get i < 0) then 0
      else g.get i := by
  simp [projected, mask, active]

/-- The points of the box are those that clamping leaves. -/
def InBox (lower upper x : Vector α n) : Prop :=
  ∃ y, x = clampTo lower upper y

/-- A minimisation asks at points of the box only, and is answered with values and gradients as
these two relations have them. -/
def Merited (lower upper : Vector α n) (isValue : Vector α n → α → Prop)
    (isGradient : Vector α n → Vector α n → Prop) : Contract (merit α n) where
  asks
    | .value x | .gradient x => InBox lower upper x
    | .report _ => True
  replies
    | .value x, v => isValue x v
    | .gradient x, g => isGradient x g
    | .report _, _ => True

variable {lower upper : Vector α n} {isValue : Vector α n → α → Prop}
  {isGradient : Vector α n → Vector α n → Prop} {settings : Settings α}

/-- A trial the line search accepts: a point of the box with its value, low enough for the
Armijo condition. -/
structure Accepted (lower upper : Vector α n) (isValue : Vector α n → α → Prop)
    (here : Iterate α n) (t : Trial α n) : Prop where
  inBox : InBox lower upper t.point
  step : t.step = t.point - here.point
  value : isValue t.point t.value
  finite : Scalar.isFinite t.value
  descent : t.value ≤ here.value + armijo * dot here.gradient t.step

/-- The state at the top of an iteration: a point of the box with its value and gradient. -/
structure Standing (lower upper : Vector α n) (isValue : Vector α n → α → Prop)
    (isGradient : Vector α n → Vector α n → Prop) (s : Iterate α n) : Prop where
  inBox : InBox lower upper s.point
  value : isValue s.point s.value
  gradient : isGradient s.point s.gradient

/-- The end of a minimisation: a point of the box with its value, and the projected gradient
there wherever the norm is within the tolerance. -/
structure Ended (lower upper : Vector α n) (isValue : Vector α n → α → Prop)
    (isGradient : Vector α n → Vector α n → Prop) (tolerance : α) (o : Outcome α n) : Prop where
  inBox : InBox lower upper o.point
  value : isValue o.point o.value
  stationary : ∀ norm ∈ o.gradientNorm, norm ≤ tolerance →
    ∃ g, isGradient o.point g ∧ norm = infNorm (projected lower upper o.point g)

theorem Ended.of_none {o : Outcome α n} {tolerance : α} (hb : InBox lower upper o.point)
    (hv : isValue o.point o.value) (hn : o.gradientNorm = none) :
    Ended lower upper isValue isGradient tolerance o :=
  ⟨hb, hv, fun norm h => by simp [hn] at h⟩

/-- A norm above the tolerance claims nothing about the point. -/
theorem Ended.of_large {o : Outcome α n} {tolerance : α} (hb : InBox lower upper o.point)
    (hv : isValue o.point o.value) (hn : ∀ norm ∈ o.gradientNorm, ¬ norm ≤ tolerance) :
    Ended lower upper isValue isGradient tolerance o :=
  ⟨hb, hv, fun norm h hle => absurd hle (hn norm h)⟩

theorem Standing.ended {s : Iterate α n} (hs : Standing lower upper isValue isGradient s)
    {tolerance norm : α} (hnorm : ¬ norm ≤ tolerance) {iterations : Nat} {stop : InnerStop}
    {trace : Array α} :
    Ended lower upper isValue isGradient tolerance
      ⟨s.point, s.value, some norm, iterations, stop, trace⟩ := by
  refine Ended.of_large hs.inBox hs.value ?_
  rintro v ⟨⟩
  exact hnorm

theorem Standing.steer {s : Iterate α n} (hs : Standing lower upper isValue isGradient s)
    (frozen : Vector Bool n) (pg : Vector α n) :
    Standing lower upper isValue isGradient (Minimize.steer s frozen pg).2 := by
  unfold Minimize.steer
  dsimp only
  split
  · exact ⟨hs.inBox, hs.value, hs.gradient⟩
  · exact hs

theorem Standing.advance {s : Iterate α n} {t : Trial α n} {g : Vector α n}
    (ht : Accepted lower upper isValue s t) (hg : isGradient t.point g) :
    Standing lower upper isValue isGradient (s.advance t g) :=
  ⟨ht.inBox, ht.value, hg⟩

/-- What an iteration comes to: an end, or a state to go on from with a norm above the
tolerance. -/
def Next.Sound (lower upper : Vector α n) (isValue : Vector α n → α → Prop)
    (isGradient : Vector α n → Vector α n → Prop) (tolerance : α) : Next α n → Prop
  | .ended o => Ended lower upper isValue isGradient tolerance o
  | .goesOn norm s => ¬ norm ≤ tolerance ∧ Standing lower upper isValue isGradient s

end Minimize

open Minimize

variable {α : Type} [Scalar α] {n : Nat} {lower upper : Vector α n}
  {isValue : Vector α n → α → Prop} {isGradient : Vector α n → Vector α n → Prop}
  {settings : Settings α}

theorem lineSearch_meets (here : Iterate α n) (d : Vector α n) (trials : Nat) (length : α) :
    (lineSearch lower upper here d trials length).Meets (Merited lower upper isValue isGradient)
      fun found => ∀ t ∈ found, Accepted lower upper isValue here t := by
  -- on the trials that are left: only one that passes the test is returned
  induction trials generalizing length with
  | zero =>
    rw [lineSearch]
    exact fun t h => nomatch h
  | succ trials ih =>
    rw [lineSearch]
    refine ⟨⟨_, rfl⟩, fun value hvalue => ?_⟩
    dsimp only [Program.bind]
    split
    · next h =>
      rintro t ⟨⟩
      exact ⟨⟨_, rfl⟩, rfl, hvalue, h.1, h.2⟩
    · exact ih _

theorem iterateOnce_meets {iteration : Nat} {s : Iterate α n}
    (hs : Standing lower upper isValue isGradient s) :
    (iterateOnce lower upper settings iteration s).Meets
      (Merited lower upper isValue isGradient)
      (Next.Sound lower upper isValue isGradient settings.tolerance) := by
  rw [iterateOnce]
  split
  · exact Ended.of_none hs.inBox hs.value rfl
  dsimp only
  split
  · -- the norm that stops the run is measured here
    refine ⟨hs.inBox, hs.value, ?_⟩
    rintro norm ⟨⟩ -
    exact ⟨s.gradient, hs.gradient, rfl⟩
  next hlarge =>
  have hsteer := hs.steer (active lower upper s.point s.gradient)
    (mask (active lower upper s.point s.gradient) s.gradient)
  refine (Program.meets_bind _ _).mpr ((lineSearch_meets _ _ maxTrials _).mono ?_)
  rintro (_ | trial) htrial
  · exact hsteer.ended hlarge
  have hacc := htrial trial rfl
  refine ⟨hacc.inBox, fun gradient hgradient => ?_⟩
  have hnext := Standing.advance hacc hgradient
  dsimp only [Program.bind, Program.bind_eq]
  -- the step is reported or not, and is the last one or not
  split
  · refine ⟨trivial, fun _ _ => ?_⟩
    split
    · exact hnext.ended hlarge
    · exact ⟨hlarge, hnext⟩
  · split
    · exact hnext.ended hlarge
    · exact ⟨hlarge, hnext⟩

/-- The iterations carry along a norm above the tolerance, so that one within it is measured at
the end. -/
theorem iterate_meets (remaining iteration : Nat) {norm : Option α} {s : Iterate α n}
    (hnorm : ∀ v ∈ norm, ¬ v ≤ settings.tolerance)
    (hs : Standing lower upper isValue isGradient s) :
    (iterate lower upper settings remaining iteration norm s).Meets
      (Merited lower upper isValue isGradient)
      (Ended lower upper isValue isGradient settings.tolerance) := by
  -- on the iterations that are left; the norm carried along is that of the iteration before
  induction remaining generalizing iteration norm s with
  | zero =>
    rw [iterate]
    exact Ended.of_large hs.inBox hs.value hnorm
  | succ remaining ih =>
    rw [iterate]
    refine (Program.meets_bind _ _).mpr ((iterateOnce_meets hs).mono ?_)
    rintro (outcome | ⟨norm, next⟩) hnext
    · exact hnext
    · refine ih (iteration + 1) ?_ hnext.2
      rintro v ⟨⟩
      exact hnext.1

theorem minimize_meets (start : Vector α n) :
    (minimize lower upper start settings).Meets (Merited lower upper isValue isGradient)
      (Ended lower upper isValue isGradient settings.tolerance) := by
  rw [minimize]
  refine ⟨⟨_, rfl⟩, fun value hvalue => ?_⟩
  dsimp only [Program.bind]
  split
  · refine ⟨⟨_, rfl⟩, fun gradient hgradient => ?_⟩
    exact iterate_meets _ _ (fun v h => nomatch h) ⟨⟨_, rfl⟩, hvalue, hgradient⟩
  · exact Ended.of_none ⟨_, rfl⟩ hvalue rfl

end Nlp
