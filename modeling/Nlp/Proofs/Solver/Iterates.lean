import Nlp.Proofs.Solver.Minimize
import Mathlib.Logic.Function.Iterate

/-!
# The iterations of a minimisation

A minimisation goes from state to state: an iteration ends it, or accepts a trial of its line
search and leads to the state at the trial.  Here is said once what an iteration can come to, with
everything it has tested, and where the result of a minimisation comes from: the last state it
reached.

Nothing here depends on the arithmetic, nor on how the merit answers.

## Main definitions

* `Minimize.heading`: the direction an iteration takes, and the state it is taken from.
* `Minimize.Takes`: a trial that an iteration accepts; `Minimize.firstTrial`, the one tried first.
* `Minimize.Turn`: what an iteration can come to.
* `Minimize.Reaches`: the states at the tops of the iterations.
* `Minimize.Measured`: the state at which a minimisation has measured the norm it ends with.
* `Minimize.Carries`: replies that serve a minimisation as well as others do.

## Main results

* `iterateOnce_yields`: an iteration comes to one of its turns.
* `goesOn_of_firstTrial`: an iteration that needs no halving.
* `minimize_yields`: the result of a minimisation comes from a state that is reached;
  `minimize_yields_of_reaches`, the converse.
* `measured_of_yields`: where the norm of the projected gradient was measured;
  `converged_iff_of_yields`, what it says of the reason of the stop.
* `minimize_yields_of_carries`: a minimisation comes to the same on replies that serve it as well.
-/

namespace Nlp

namespace Minimize

variable {α : Type} [Scalar α] {n : Nat}

/-! ## The direction of an iteration -/

/-- The direction that the iteration from `s` takes, and the state it is taken from, in which the
inverse Hessian approximation may have been forgotten. -/
def heading (lower upper : Vector α n) (s : Iterate α n) : Vector α n × Iterate α n :=
  steer s (active lower upper s.point s.gradient) (projected lower upper s.point s.gradient)

section

variable (lower upper : Vector α n) (s : Iterate α n)

theorem heading_eq :
    (heading lower upper s).2 = s ∨
      (heading lower upper s).2 = { s with inverse := identity, fresh := true } := by
  unfold heading steer
  dsimp only
  split
  · exact .inr rfl
  · exact .inl rfl

@[simp] theorem heading_point : (heading lower upper s).2.point = s.point := by
  rcases heading_eq lower upper s with h | h <;> rw [h]

@[simp] theorem heading_value : (heading lower upper s).2.value = s.value := by
  rcases heading_eq lower upper s with h | h <;> rw [h]

@[simp] theorem heading_gradient : (heading lower upper s).2.gradient = s.gradient := by
  rcases heading_eq lower upper s with h | h <;> rw [h]

@[simp] theorem heading_trace : (heading lower upper s).2.trace = s.trace := by
  rcases heading_eq lower upper s with h | h <;> rw [h]

end

/-! ## What an iteration comes to -/

/-- A trial that the iteration from `s` accepts: some halvings of the first step length along the
direction, clamped to the box, at a value that satisfies the Armijo condition. -/
structure Takes (C : Contract (merit α n)) (lower upper : Vector α n) (settings : Settings α)
    (s : Iterate α n) (t : Trial α n) : Prop where
  length : ∃ halvings : Nat, t.length =
    (· * 0.5)^[halvings] (firstLength settings.maxStepRatio s.point (heading lower upper s).1)
  point : t.point = trialPoint lower upper s.point (heading lower upper s).1 t.length
  step : t.step = t.point - s.point
  value : C.replies (.value t.point) t.value
  finite : Scalar.isFinite t.value
  descent : t.value ≤ s.value + armijo * dot s.gradient t.step

/-- The trial that the line search of the iteration from `s` begins with, where the merit is
`value`. -/
def firstTrial (lower upper : Vector α n) (settings : Settings α) (s : Iterate α n) (value : α) :
    Trial α n :=
  let d := (heading lower upper s).1
  let length := firstLength settings.maxStepRatio s.point d
  let point := trialPoint lower upper s.point d length
  { point, step := point - s.point, value, length }

/-- What the iteration of number `k` from `s` can come to. -/
inductive Turn (C : Contract (merit α n)) (lower upper : Vector α n) (settings : Settings α)
    (k : Nat) (s : Iterate α n) : Next α n → Prop
  | nonFinite (hnumbers : (s.gradient.any fun g => !Scalar.isFinite g) = true) :
    Turn C lower upper settings k s
      (.ended ⟨s.point, s.value, none, k, .nonFinite, s.trace⟩)
  | converged (hnorm : infNorm (projected lower upper s.point s.gradient) ≤ settings.tolerance)
      (hnumbers : (s.gradient.any fun g => !Scalar.isFinite g) = false) :
    Turn C lower upper settings k s
      (.ended ⟨s.point, s.value, some (infNorm (projected lower upper s.point s.gradient)), k,
        .converged, s.trace⟩)
  | lineSearchFailed
      (hnorm : ¬ infNorm (projected lower upper s.point s.gradient) ≤ settings.tolerance)
      (hnumbers : (s.gradient.any fun g => !Scalar.isFinite g) = false) :
    Turn C lower upper settings k s
      (.ended ⟨s.point, s.value, some (infNorm (projected lower upper s.point s.gradient)), k,
        .lineSearchFailed, s.trace⟩)
  | smallStep {t : Trial α n} {g : Vector α n}
      (hnorm : ¬ infNorm (projected lower upper s.point s.gradient) ≤ settings.tolerance)
      (ht : Takes C lower upper settings s t) (hg : C.replies (.gradient t.point) g)
      (hnumbers : (s.gradient.any fun g => !Scalar.isFinite g) = false)
      (hstalled : isStalled s.point s.value t.value t.step = true) :
    Turn C lower upper settings k s
      (.ended ⟨t.point, t.value, some (infNorm (projected lower upper s.point s.gradient)), k + 1,
        .smallStep, s.trace.push t.value⟩)
  | goesOn {t : Trial α n} {g : Vector α n}
      (hnorm : ¬ infNorm (projected lower upper s.point s.gradient) ≤ settings.tolerance)
      (ht : Takes C lower upper settings s t) (hg : C.replies (.gradient t.point) g)
      (hnumbers : (s.gradient.any fun g => !Scalar.isFinite g) = false)
      (hstalled : isStalled s.point s.value t.value t.step = false) :
    Turn C lower upper settings k s
      (.goesOn (infNorm (projected lower upper s.point s.gradient))
        ((heading lower upper s).2.advance t g))

/-- The states at the tops of the iterations, on replies that the contract allows, with their
numbers and the norm of the projected gradient measured last. -/
inductive Reaches (C : Contract (merit α n)) (lower upper start : Vector α n)
    (settings : Settings α) : Nat → Option α → Iterate α n → Prop
  | start {value : α} {g : Vector α n}
      (hvalue : C.replies (.value (clampTo lower upper start)) value)
      (hfinite : Scalar.isFinite value)
      (hg : C.replies (.gradient (clampTo lower upper start)) g) :
    Reaches C lower upper start settings 0 none
      ⟨clampTo lower upper start, value, g, identity, true, #[value]⟩
  | step {k : Nat} {norm : Option α} {norm' : α} {s next : Iterate α n} :
    Reaches C lower upper start settings k norm s →
    (iterateOnce lower upper settings k s).Yields C (.goesOn norm' next) →
    Reaches C lower upper start settings (k + 1) (some norm') next

end Minimize

open Minimize

variable {α : Type} [Scalar α] {n : Nat} {C : Contract (merit α n)} {lower upper : Vector α n}
  {settings : Settings α}

/-- What the line search finds is a trial at some halvings of the step length it began with. -/
theorem lineSearch_yields {here : Iterate α n} {d : Vector α n} {trials : Nat} {length : α}
    {t : Trial α n} (h : (lineSearch lower upper here d trials length).Yields C (some t)) :
    (∃ halvings : Nat, t.length = (· * 0.5)^[halvings] length) ∧
      t.point = trialPoint lower upper here.point d t.length ∧
      t.step = t.point - here.point ∧ C.replies (.value t.point) t.value ∧
      Scalar.isFinite t.value ∧ t.value ≤ here.value + armijo * dot here.gradient t.step := by
  -- on the trials: each one that is refused halves the length
  induction trials generalizing length with
  | zero => exact nomatch h
  | succ trials ih =>
    rw [lineSearch] at h
    obtain ⟨value, hvalue, h⟩ := h
    dsimp only [Program.bind] at h
    split at h
    · next haccept =>
      obtain ⟨⟩ := h
      exact ⟨⟨0, rfl⟩, rfl, rfl, hvalue, haccept.1, haccept.2⟩
    · obtain ⟨⟨halvings, hlength⟩, hrest⟩ := ih h
      exact ⟨⟨halvings + 1, hlength⟩, hrest⟩

/-- What an iteration that has accepted a trial comes to: its end if the step was too small, and
otherwise the state at the trial. -/
theorem advance_yields {k : Nat} {s : Iterate α n} {norm : α} {t : Trial α n} {g : Vector α n}
    {next : Next α n} {verbose : Bool}
    (h : (do
        if verbose then
          Merit.report (.innerStep k t.value norm t.length)
        if isStalled s.point s.value t.value t.step then
          return .ended ⟨(s.advance t g).point, (s.advance t g).value, some norm, k + 1, .smallStep,
            (s.advance t g).trace⟩
        else
          return .goesOn norm (s.advance t g) : Program (merit α n) (Next α n)).Yields C next) :
    (isStalled s.point s.value t.value t.step = true ∧
        next = .ended ⟨t.point, t.value, some norm, k + 1, .smallStep, s.trace.push t.value⟩) ∨
      isStalled s.point s.value t.value t.step = false ∧ next = .goesOn norm (s.advance t g) := by
  dsimp only at h
  -- the report, if there is one, says nothing about what follows
  split at h
  · obtain ⟨_, -, h⟩ := h
    dsimp only [Program.bind] at h
    split at h
    · next hstalled => exact .inl ⟨hstalled, h⟩
    · next hstalled => exact .inr ⟨eq_false_of_ne_true hstalled, h⟩
  · split at h
    · next hstalled => exact .inl ⟨hstalled, h⟩
    · next hstalled => exact .inr ⟨eq_false_of_ne_true hstalled, h⟩

/-- And it can come to that, if reports have a reply. -/
theorem yields_advance (hreport : ∀ p, C.replies (.report p) ()) {k : Nat} {s : Iterate α n}
    {norm : α} {t : Trial α n} {g : Vector α n} {next : Next α n} {verbose : Bool}
    (h : (isStalled s.point s.value t.value t.step = true ∧
        next = .ended ⟨t.point, t.value, some norm, k + 1, .smallStep, s.trace.push t.value⟩) ∨
      isStalled s.point s.value t.value t.step = false ∧ next = .goesOn norm (s.advance t g)) :
    (do
        if verbose then
          Merit.report (.innerStep k t.value norm t.length)
        if isStalled s.point s.value t.value t.step then
          return .ended ⟨(s.advance t g).point, (s.advance t g).value, some norm, k + 1, .smallStep,
            (s.advance t g).trace⟩
        else
          return .goesOn norm (s.advance t g) : Program (merit α n) (Next α n)).Yields C next := by
  have hends : (if isStalled s.point s.value t.value t.step then
        return .ended ⟨(s.advance t g).point, (s.advance t g).value, some norm, k + 1, .smallStep,
          (s.advance t g).trace⟩
      else
        return .goesOn norm (s.advance t g) : Program (merit α n) (Next α n)).Yields C next := by
    rcases h with ⟨hstalled, rfl⟩ | ⟨hstalled, rfl⟩
    · rw [if_pos hstalled]
      exact rfl
    · rw [if_neg (ne_true_of_eq_false hstalled)]
      exact rfl
  dsimp only
  split
  · exact ⟨(), hreport _, hends⟩
  · exact hends

theorem iterateOnce_yields {k : Nat} {s : Iterate α n} {next : Next α n}
    (h : (iterateOnce lower upper settings k s).Yields C next) :
    Turn C lower upper settings k s next := by
  rw [iterateOnce] at h
  split at h
  · next hnumbers =>
    obtain rfl := h
    exact .nonFinite hnumbers
  next hnumbers =>
  have hnumbers := eq_false_of_ne_true hnumbers
  dsimp only at h
  split at h
  · next hnorm =>
    obtain rfl := h
    exact .converged hnorm hnumbers
  next hnorm =>
  obtain ⟨found, hfound, h⟩ := Program.yields_bind.mp h
  rw [← projected, ← heading] at hfound h
  cases found with
  | none =>
    obtain rfl := h
    simpa using Turn.lineSearchFailed (C := C) (k := k) hnorm hnumbers
  | some t =>
    -- forgetting the approximation leaves the point, the merit and the gradient as they are
    obtain ⟨hlength, hpoint, hstep, hvalue, hfinite, hdescent⟩ := lineSearch_yields hfound
    rw [heading_point] at hlength hpoint hstep
    rw [heading_value, heading_gradient] at hdescent
    have ht : Takes C lower upper settings s t :=
      ⟨hlength, hpoint, hstep, hvalue, hfinite, hdescent⟩
    obtain ⟨g, hg, h⟩ := h
    have hnext := advance_yields h
    rw [heading_point, heading_value, heading_trace] at hnext
    rcases hnext with ⟨hstalled, rfl⟩ | ⟨hstalled, rfl⟩
    · exact .smallStep hnorm ht hg hnumbers hstalled
    · exact .goesOn hnorm ht hg hnumbers hstalled

/-- An iteration goes on from its first trial if that is low enough and not too near. -/
theorem goesOn_of_firstTrial {k : Nat} {s : Iterate α n} (value : α) (g : Vector α n)
    (hnumber : (s.gradient.any fun a => !Scalar.isFinite a) = false)
    (hnorm : ¬ infNorm (projected lower upper s.point s.gradient) ≤ settings.tolerance)
    (hquiet : settings.verbose = false)
    (hvalue : C.replies (.value (firstTrial lower upper settings s value).point) value)
    (hfinite : Scalar.isFinite value)
    (hdescent : value ≤ s.value +
      armijo * dot s.gradient (firstTrial lower upper settings s value).step)
    (hg : C.replies (.gradient (firstTrial lower upper settings s value).point) g)
    (hmoves : isStalled s.point s.value value (firstTrial lower upper settings s value).step =
      false) :
    (iterateOnce lower upper settings k s).Yields C
      (.goesOn (infNorm (projected lower upper s.point s.gradient))
        ((heading lower upper s).2.advance (firstTrial lower upper settings s value) g)) := by
  rw [iterateOnce, if_neg (ne_true_of_eq_false hnumber)]
  dsimp only
  rw [← projected, if_neg hnorm, ← heading]
  refine Program.yields_bind.mpr ⟨some (firstTrial lower upper settings s value), ?_, g, hg, ?_⟩
  · rw [heading_point, maxTrials, lineSearch]
    refine ⟨value, by rwa [heading_point], ?_⟩
    dsimp only [Program.bind]
    rw [heading_value, heading_gradient, heading_point, if_pos ⟨hfinite, hdescent⟩]
    rfl
  · rw [← heading_point lower upper s, ← heading_value lower upper s] at hmoves
    dsimp only [Program.bind]
    rw [if_neg (ne_true_of_eq_false hquiet), if_neg]
    · rfl
    · exact ne_true_of_eq_false hmoves

/-- Where the projected gradient is small the iterations are at their end. -/
theorem iterate_of_converged {remaining k : Nat} {norm : Option α} {s : Iterate α n} {size : α}
    (hnumber : (s.gradient.any fun a => !Scalar.isFinite a) = false)
    (hsize : infNorm (projected lower upper s.point s.gradient) = size)
    (hsmall : size ≤ settings.tolerance) :
    iterate lower upper settings (remaining + 1) k norm s =
      pure ⟨s.point, s.value, some size, k, .converged, s.trace⟩ := by
  rw [iterate, iterateOnce, if_neg (ne_true_of_eq_false hnumber)]
  dsimp only
  rw [← projected, hsize, if_pos hsmall]
  rfl

/-! ## Whole minimisations -/

variable {start : Vector α n}

/-- The iterations end in one of them, or in the state that is left when they are used up. -/
theorem iterate_yields {remaining k : Nat} {norm : Option α} {s : Iterate α n}
    (hs : Reaches C lower upper start settings k norm s) {o : Outcome α n}
    (h : (iterate lower upper settings remaining k norm s).Yields C o) :
    ∃ k' norm' s', Reaches C lower upper start settings k' norm' s' ∧
      ((iterateOnce lower upper settings k' s').Yields C (.ended o) ∨
        o = ⟨s'.point, s'.value, norm', k', .iterationLimit, s'.trace⟩) := by
  -- on the iterations that are left: either this one ends the run, or the next is reached
  induction remaining generalizing k norm s with
  | zero => exact ⟨k, norm, s, hs, .inr h⟩
  | succ remaining ih =>
    rw [iterate] at h
    obtain ⟨next, hnext, h⟩ := Program.yields_bind.mp h
    cases next with
    | ended outcome =>
      obtain rfl := h
      exact ⟨k, norm, s, hs, .inl hnext⟩
    | goesOn norm' next => exact ih (hs.step hnext) h

/-- A minimisation ends before its first iteration if the merit at the start is no number, and
otherwise in a state that it reaches. -/
theorem minimize_yields {o : Outcome α n}
    (h : (minimize lower upper start settings).Yields C o) :
    (∃ value : α, C.replies (.value (clampTo lower upper start)) value ∧ ¬ Scalar.isFinite value ∧
      o = ⟨clampTo lower upper start, value, none, 0, .nonFinite, #[value]⟩) ∨
    ∃ k norm s, Reaches C lower upper start settings k norm s ∧
      ((iterateOnce lower upper settings k s).Yields C (.ended o) ∨
        o = ⟨s.point, s.value, norm, k, .iterationLimit, s.trace⟩) := by
  rw [minimize] at h
  obtain ⟨value, hvalue, h⟩ := h
  dsimp only [Program.bind] at h
  split at h
  · next hfinite =>
    obtain ⟨g, hg, h⟩ := h
    exact .inr (iterate_yields (.start hvalue hfinite hg) h)
  · next hfinite => exact .inl ⟨value, hvalue, hfinite, h⟩

/-- The iterates are points of the box, with the merit there and its gradient. -/
theorem Minimize.Reaches.standing {k : Nat} {norm : Option α} {s : Iterate α n}
    (hs : Reaches C lower upper start settings k norm s) :
    Standing lower upper (fun x v => C.replies (.value x) v) (fun x g => C.replies (.gradient x) g)
      s := by
  cases hs with
  | start hvalue _ hg => exact ⟨⟨start, rfl⟩, hvalue, hg⟩
  | step _ hnext =>
    cases iterateOnce_yields hnext with
    | goesOn _ ht hg => exact ⟨⟨_, ht.point⟩, ht.value, hg⟩

/-- A minimisation ends at a point of the box, with the merit there. -/
theorem end_of_yields {o : Outcome α n} (h : (minimize lower upper start settings).Yields C o) :
    InBox lower upper o.point ∧ C.replies (.value o.point) o.value := by
  obtain ⟨value, hvalue, -, rfl⟩ | ⟨k, norm, s, hs, hend | rfl⟩ := minimize_yields h
  · exact ⟨⟨start, rfl⟩, hvalue⟩
  · cases iterateOnce_yields hend with
    | nonFinite | converged | lineSearchFailed => exact ⟨hs.standing.inBox, hs.standing.value⟩
    | smallStep _ ht => exact ⟨⟨_, ht.point⟩, ht.value⟩
  · exact ⟨hs.standing.inBox, hs.standing.value⟩

/-- Where a minimisation has measured the norm it ends with: at the point it ends at, if it stops
before a step, and otherwise at the iterate before its last step. -/
inductive Minimize.Measured (C : Contract (merit α n)) (lower upper : Vector α n)
    (settings : Settings α) (s : Iterate α n) (o : Outcome α n) : Prop
  | here (hpoint : o.point = s.point) (hstop : o.stop = .converged ∨ o.stop = .lineSearchFailed)
  | before {t : Trial α n} (ht : Takes C lower upper settings s t) (hpoint : o.point = t.point)
      (hstop : o.stop = .smallStep ∨ o.stop = .iterationLimit)

theorem measured_of_yields {o : Outcome α n}
    (h : (minimize lower upper start settings).Yields C o) {norm : α}
    (hnorm : o.gradientNorm = some norm) :
    ∃ k last s, Reaches C lower upper start settings k last s ∧
      norm = infNorm (projected lower upper s.point s.gradient) ∧
      Measured C lower upper settings s o := by
  obtain ⟨value, -, -, rfl⟩ | ⟨k, last, s, hs, hend | rfl⟩ := minimize_yields h
  · cases hnorm
  · cases iterateOnce_yields hend with
    | nonFinite => cases hnorm
    | converged =>
      obtain rfl := Option.some.inj hnorm
      exact ⟨k, last, s, hs, rfl, .here rfl (.inl rfl)⟩
    | lineSearchFailed =>
      obtain rfl := Option.some.inj hnorm
      exact ⟨k, last, s, hs, rfl, .here rfl (.inr rfl)⟩
    | smallStep _ ht =>
      obtain rfl := Option.some.inj hnorm
      exact ⟨k, last, s, hs, rfl, .before ht rfl (.inl rfl)⟩
  · -- the norm that is left when the iterations are used up is that of the last one
    cases hs with
    | start => cases hnorm
    | step hs hnext =>
      obtain rfl := Option.some.inj hnorm
      cases iterateOnce_yields hnext with
      | goesOn _ ht => exact ⟨_, _, _, hs, rfl, .before ht rfl (.inr rfl)⟩

/-- A minimisation has converged exactly if the norm it ends with is within the tolerance: the norms
it carries along from earlier iterations are all too large. -/
theorem converged_iff_of_yields {o : Outcome α n}
    (h : (minimize lower upper start settings).Yields C o) :
    o.stop = .converged ↔ ∃ norm, o.gradientNorm = some norm ∧ norm ≤ settings.tolerance := by
  have hlarge {v : α} (hv : ¬ v ≤ settings.tolerance) :
      ¬ ∃ norm, some v = some norm ∧ norm ≤ settings.tolerance := by
    rintro ⟨_, ⟨⟩, hle⟩
    exact hv hle
  obtain ⟨value, -, -, rfl⟩ | ⟨k, last, s, hs, hend | rfl⟩ := minimize_yields h
  · exact ⟨nofun, nofun⟩
  · cases iterateOnce_yields hend with
    | nonFinite => exact ⟨nofun, nofun⟩
    | converged hnorm => exact ⟨fun _ => ⟨_, rfl, hnorm⟩, fun _ => rfl⟩
    | lineSearchFailed hnorm | smallStep hnorm =>
      exact ⟨nofun, fun hwithin => absurd hwithin (hlarge hnorm)⟩
  · cases hs with
    | start => exact ⟨nofun, nofun⟩
    | step _ hnext =>
      cases iterateOnce_yields hnext with
      | goesOn hnorm => exact ⟨nofun, fun hwithin => absurd hwithin (hlarge hnorm)⟩

/-- What the iterations that are left come to from a state that is reached, the minimisation comes
to. -/
theorem minimize_yields_of_reaches {k remaining : Nat} {norm : Option α} {s : Iterate α n}
    (hs : Reaches C lower upper start settings k norm s)
    (hmost : settings.maxIterations = k + remaining) {o : Outcome α n}
    (h : (iterate lower upper settings remaining k norm s).Yields C o) :
    (minimize lower upper start settings).Yields C o := by
  -- from the state back to the start, one more iteration being left at each step
  induction hs generalizing remaining with
  | @start value g hvalue hfinite hg =>
    rw [minimize]
    refine ⟨value, hvalue, ?_⟩
    dsimp only [Program.bind]
    rw [if_pos hfinite, hmost, Nat.zero_add]
    exact ⟨g, hg, h⟩
  | @step k norm norm' s next hs hnext ih =>
    have hmost' : settings.maxIterations = k + (remaining + 1) := by omega
    refine ih hmost' ?_
    rw [iterate]
    exact Program.yields_bind.mpr ⟨.goesOn norm' next, hnext, h⟩

/-! ## Other replies

A minimisation asks for a gradient only where it has found a value, and its reports lead to nothing.
-/

/-- The replies of `C` that a minimisation relies on are replies of `C'`. -/
structure Minimize.Carries (C C' : Contract (merit α n)) : Prop where
  value : ∀ x v, C.replies (.value x) v → C'.replies (.value x) v
  gradient : ∀ x v g, C.replies (.value x) v → C.replies (.gradient x) g →
    C'.replies (.gradient x) g
  report : ∀ p, C'.replies (.report p) ()

section

variable {C' : Contract (merit α n)} (hcarries : Carries C C')
include hcarries

theorem lineSearch_yields_of_carries {here : Iterate α n} {d : Vector α n} {trials : Nat}
    {length : α} {found : Option (Trial α n)}
    (h : (lineSearch lower upper here d trials length).Yields C found) :
    (lineSearch lower upper here d trials length).Yields C' found := by
  -- on the trials, whose values and tests are the same
  induction trials generalizing length with
  | zero => exact h
  | succ trials ih =>
    rw [lineSearch] at h ⊢
    obtain ⟨value, hvalue, h⟩ := h
    refine ⟨value, hcarries.value _ _ hvalue, ?_⟩
    dsimp only [Program.bind] at h ⊢
    split at h
    · next haccept => rwa [if_pos haccept]
    · next haccept =>
      rw [if_neg haccept]
      exact ih h

/-- An iteration comes to the same on the other replies, whether it reports or not. -/
theorem iterateOnce_yields_of_carries {k : Nat} {s : Iterate α n} {next : Next α n}
    (verbose : Bool) (h : (iterateOnce lower upper settings k s).Yields C next) :
    (iterateOnce lower upper { settings with verbose } k s).Yields C' next := by
  rw [iterateOnce] at h ⊢
  split at h
  · next hnumbers => rwa [if_pos hnumbers]
  next hnumbers =>
  rw [if_neg hnumbers]
  dsimp only at h ⊢
  split at h
  · next hnorm => rwa [if_pos hnorm]
  next hnorm =>
  rw [if_neg hnorm]
  obtain ⟨found, hfound, h⟩ := Program.yields_bind.mp h
  refine Program.yields_bind.mpr ⟨found, lineSearch_yields_of_carries hcarries hfound, ?_⟩
  cases found with
  | none => exact h
  | some t =>
    obtain ⟨-, -, -, hvalue, -, -⟩ := lineSearch_yields hfound
    obtain ⟨g, hg, h⟩ := h
    refine ⟨g, hcarries.gradient _ _ _ hvalue hg, ?_⟩
    exact yields_advance hcarries.report (advance_yields h)

/-- A minimisation comes to the same on the other replies, whether it reports or not. -/
theorem minimize_yields_of_carries {o : Outcome α n} (verbose : Bool)
    (h : (minimize lower upper start settings).Yields C o) :
    (minimize lower upper start { settings with verbose }).Yields C' o := by
  have hiterate {remaining k : Nat} {norm : Option α} {s : Iterate α n}
      (h : (iterate lower upper settings remaining k norm s).Yields C o) :
      (iterate lower upper { settings with verbose } remaining k norm s).Yields C' o := by
    -- on the iterations, each of which goes on in the same way
    induction remaining generalizing k norm s with
    | zero => exact h
    | succ remaining ih =>
      rw [iterate] at h ⊢
      obtain ⟨next, hnext, h⟩ := Program.yields_bind.mp h
      refine Program.yields_bind.mpr
        ⟨next, iterateOnce_yields_of_carries hcarries verbose hnext, ?_⟩
      cases next with
      | ended outcome => exact h
      | goesOn norm' next => exact ih h
  rw [minimize] at h ⊢
  obtain ⟨value, hvalue, h⟩ := h
  refine ⟨value, hcarries.value _ _ hvalue, ?_⟩
  dsimp only [Program.bind] at h ⊢
  split at h
  · next hfinite =>
    rw [if_pos hfinite]
    obtain ⟨g, hg, h⟩ := h
    exact ⟨g, hcarries.gradient _ _ _ hvalue hg, hiterate h⟩
  · next hfinite => rwa [if_neg hfinite]

end

end Nlp
