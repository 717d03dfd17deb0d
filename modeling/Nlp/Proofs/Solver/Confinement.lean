import Nlp.Proofs.Extended
import Nlp.Proofs.Solver.Box
import Nlp.Proofs.Solver.Curvature

/-!
# No call outside of the box

Whatever the callbacks answer, at any time, both solvers ask them at points of the box only, and the
point they return is one.  In any ordered arithmetic no entry of such a point compares below its
lower bound or above its upper one.  That leaves out an entry that is no number.  In exact
arithmetic there is none unless the start has one, also where bounds are infinite or missing and
where the callbacks answer with infinities or with no number: a step is taken only along a gradient
that is real, so the direction and the step length are real too, and a real number is added to an
entry that is a number.  An infinite entry never moves, because a step from there has no size that a
line search would accept.

## Main definitions

* `Layout.Admits`, `Layout.Encloses`: no entry is outside of its bounds; every one is between them.
* `Layout.Confines`: all calls of both solvers, and what they return, are at good points.
* `Minimize.Between`, `Minimize.Sane`: the region that a minimisation in exact arithmetic does not
  leave, and what keeps it there.

## Main results

* `iterateOnce_between`, `Minimize.confined_between`: one iteration, and a whole minimisation.
* `Layout.runs_confined`: all calls of both solvers are in the box.
-/

namespace Nlp

open Extended

namespace Minimize

variable {n : Nat} {lower upper : Vector Extended n}

/-! ## Real directions -/

theorem mask_reals (frozen : Vector Bool n) (v : Vector ℝ n) :
    mask frozen (reals v) = reals (mask frozen v) := by
  refine ext_get fun i => ?_
  rw [get_reals, mask, mask, entry_ofFn, entry_ofFn, get_reals]
  split
  · rfl
  · rfl

theorem direction_reals (h : Square ℝ n) (frozen : Vector Bool n) (v : Vector ℝ n) :
    direction (h.map reals) frozen (reals v) = reals (direction h frozen v) := by
  rw [direction, mulVec_reals, neg_reals, mask_reals, direction]

theorem get_map_reals (h : Square ℝ n) (i : Fin n) : (h.map reals).get i = reals (h.get i) :=
  Vector.getElem_map _ i.isLt

theorem identity_reals : (identity : Square Extended n) = (identity : Square ℝ n).map reals := by
  refine ext_get fun i => ext_get fun j => ?_
  have hentry : ((identity : Square Extended n).get i).get j = if i = j then 1 else 0 := by
    simp [identity]
  have hentry' : ((identity : Square ℝ n).get i).get j = if i = j then 1 else 0 := by
    simp [identity]
  rw [hentry, get_map_reals, get_reals, hentry']
  split
  · rfl
  · rfl

theorem scaleAll_reals (h : Square ℝ n) (a : ℝ) :
    scaleAll (h.map reals) (real a) = (scaleAll h a).map reals := by
  refine ext_get fun i => ext_get fun j => ?_
  rw [get_map_reals, get_reals]
  simp [scaleAll, scale, reals]

theorem updateInverse_reals (h : Square ℝ n) (s y : Vector ℝ n) {sy : ℝ} (hsy : sy ≠ 0) :
    updateInverse (h.map reals) (reals s) (reals y) (real sy) =
      (updateInverse h s y sy).map reals := by
  refine ext_get fun i => ext_get fun j => ?_
  rw [get_map_reals, get_reals]
  simp [updateInverse, mulVec_reals, dot_reals, real_div _ hsy,
    real_div _ (mul_ne_zero hsy hsy)]

/-- Learning from a real step is as over the real numbers. -/
theorem learn_reals (h : Square ℝ n) (fresh : Bool) (s y : Vector ℝ n) :
    learn (h.map reals) fresh (reals s) (reals y) =
      ((learn h fresh s y).1.map reals, (learn h fresh s y).2) := by
  have hself (v : Vector ℝ n) : 0 ≤ dot v v := by
    rw [Exact.dot_eq]
    exact Finset.sum_nonneg fun i _ => mul_self_nonneg (v.get i)
  have hfloor : (curvatureFloor : Extended) = real curvatureFloor := rfl
  have hcurved : curvatureFloor * Scalar.sqrt (dot (reals s) (reals s)) *
        Scalar.sqrt (dot (reals y) (reals y)) < dot (reals s) (reals y) ↔ Curved s y := by
    rw [dot_reals, dot_reals, dot_reals, sqrt_real (hself s), sqrt_real (hself y), hfloor, real_mul,
      real_mul, real_lt, Curved]
  -- real steps and changes take the same branch, and the division is by a positive number
  by_cases hc : Curved s y
  · rw [learn_of_curved hc]
    refine (if_pos (hcurved.mpr hc)).trans ?_
    rw [dot_reals, dot_reals, real_div _ hc.change_pos.ne', ← updateInverse_reals _ _ _ hc.pos.ne']
    cases fresh with
    | true =>
      rw [if_pos rfl, if_pos rfl, identity_reals, scaleAll_reals]
    | false => rfl
  · rw [learn_of_not_curved hc]
    exact if_neg (mt hcurved.mp hc)

/-- From a real gradient and a real inverse Hessian approximation the direction is real, and so is
the approximation it is taken with. -/
theorem heading_reals (lower upper : Vector Extended n) {s : Iterate Extended n} {g : Vector ℝ n}
    {h : Square ℝ n} (hg : s.gradient = reals g) (hh : s.inverse = h.map reals) :
    ∃ (d : Vector ℝ n) (h' : Square ℝ n), (heading lower upper s).1 = reals d ∧
      (heading lower upper s).2.inverse = h'.map reals := by
  have hprojected : projected lower upper s.point s.gradient =
      reals (mask (active lower upper s.point s.gradient) g) := by
    rw [projected, ← mask_reals, hg]
  unfold heading steer
  dsimp only
  rw [hprojected, hh, direction_reals, neg_reals]
  split
  · exact ⟨_, _, rfl, identity_reals⟩
  · exact ⟨_, _, rfl, hh⟩

/-- Along a real direction the first step length is a real number, wherever the point is, and the
step of this length is within the cap. -/
theorem firstLength_reals_capped {ratio : Extended} (hpos : 0 < ratio)
    (hratio : Scalar.isFinite ratio) (x : Vector Extended n) (d : Vector ℝ n) :
    ∃ length, firstLength ratio x (reals d) = real length ∧ 0 ≤ length ∧
      real (length * infNorm d) ≤ ratio * Scalar.max (infNorm x) 1 := by
  obtain ⟨r, rfl⟩ := isFinite_iff.mp hratio
  have hr : 0 < r := hpos
  unfold firstLength
  dsimp only
  rw [infNorm_reals]
  -- the cap is infinite, and then it is not exceeded, or it is real
  rcases max_one (infNorm x) with hmax | ⟨size, hsize, hmax⟩
  · rw [hmax, real_mul_infinite hr, if_neg nofun]
    exact ⟨1, rfl, zero_le_one, rfl⟩
  · have hcap : 0 < r * size := mul_pos hr (zero_lt_one.trans_le hsize)
    rw [hmax, real_mul]
    split
    · next hlt =>
      have hlong : 0 < infNorm d := hcap.trans hlt
      refine ⟨r * size / infNorm d, real_div _ hlong.ne', (div_pos hcap hlong).le, ?_⟩
      rw [div_mul_cancel₀ _ hlong.ne']
      exact le_refl nofun
    · next hle =>
      refine ⟨1, rfl, zero_le_one, ?_⟩
      rw [one_mul]
      exact not_lt.mp (mt real_lt.mpr hle)

theorem firstLength_reals {ratio : Extended} (hpos : 0 < ratio) (hratio : Scalar.isFinite ratio)
    (x : Vector Extended n) (d : Vector ℝ n) :
    ∃ length, firstLength ratio x (reals d) = real length :=
  (firstLength_reals_capped hpos hratio x d).imp fun _ hlength => hlength.1

/-- The point is between the bounds, entry by entry. -/
def Between (lower upper x : Vector Extended n) : Prop :=
  ∀ i : Fin n, lower.get i ≤ x.get i ∧ x.get i ≤ upper.get i

theorem between_clampTo (hbounds : ∀ i : Fin n, lower.get i ≤ upper.get i) {x : Vector Extended n}
    (hx : ∀ i : Fin n, x.get i ≠ nan) : Between lower upper (clampTo lower upper x) := by
  intro i
  rw [clampTo, entry_ofFn]
  exact clamp_mem (hbounds i) (hx i)

theorem get_add_scale (x : Vector Extended n) (d : Vector ℝ n) (length : ℝ) (i : Fin n) :
    (x + scale (reals d) (real length)).get i = x.get i + real (d.get i * length) := by
  refine (entry_zipWith _ _ _ i).trans ?_
  refine congrArg (x.get i + ·) ?_
  refine (Vector.getElem_map _ i.isLt).trans ?_
  exact congrArg (· * real length) (get_reals d i)

/-- A real step from a point between the bounds leads to another one. -/
theorem between_trialPoint (hbounds : ∀ i : Fin n, lower.get i ≤ upper.get i)
    {x : Vector Extended n} (hx : Between lower upper x) (d : Vector ℝ n) (length : ℝ) :
    Between lower upper (trialPoint lower upper x (reals d) (real length)) := by
  refine between_clampTo hbounds fun i => ?_
  rw [get_add_scale]
  exact add_real_ne_nan (ne_nan_of_le (hx i).1).2 _

/-- Where the whole step is a number, it is a real number: an infinite entry stays where it is, and
the difference of infinities is no number. -/
theorem trialStep_reals {x : Vector Extended n} (hx : Between lower upper x) (d : Vector ℝ n)
    (length : ℝ)
    (hstep : ∀ i : Fin n,
      (trialPoint lower upper x (reals d) (real length) - x).get i ≠ nan) :
    ∃ w, trialPoint lower upper x (reals d) (real length) - x = reals w := by
  refine exists_eq_reals fun i => ?_
  have hentry : (trialPoint lower upper x (reals d) (real length) - x).get i =
      Scalar.clamp (lower.get i) (upper.get i) (x.get i + real (d.get i * length)) - x.get i := by
    refine (entry_zipWith _ _ _ i).trans ?_
    rw [trialPoint, clampTo, entry_ofFn, get_add_scale]
  have hi := hstep i
  rw [hentry] at hi ⊢
  obtain ⟨hlower, hupper⟩ := hx i
  generalize x.get i = a at *
  -- an infinite entry stays where it is, and so has no step
  cases a with
  | real a =>
    obtain ⟨z, hz⟩ := clamp_real hlower hupper (a + d.get i * length)
    rw [real_add, hz, real_sub]
    exact ⟨_, rfl⟩
  | infinite up =>
    have hsum : infinite up + real (d.get i * length) = infinite up := rfl
    rw [hsum, clamp_eq_self hlower hupper, infinite_sub_self] at hi
    exact absurd rfl hi
  | nan => exact absurd hlower (not_le_nan _)

/-! ## Confinement -/

/-- The state at the top of an iteration: a point between the bounds, and a real inverse Hessian
approximation wherever the gradient is real. -/
structure Sane (lower upper : Vector Extended n) (s : Iterate Extended n) : Prop where
  point : Between lower upper s.point
  inverse : ∀ g, s.gradient = reals g → ∃ h : Square ℝ n, s.inverse = h.map reals

end Minimize

open Minimize

variable {n : Nat} {lower upper : Vector Extended n}

theorem lineSearch_between (hbounds : ∀ i : Fin n, lower.get i ≤ upper.get i)
    {here : Iterate Extended n} (hpoint : Between lower upper here.point) (d : Vector ℝ n)
    (trials : Nat) (length : ℝ) :
    (lineSearch lower upper here (reals d) trials (real length)).Meets
      (Within (Between lower upper))
      fun found => ∀ t ∈ found, Between lower upper t.point ∧ ∃ w, t.step = reals w := by
  induction trials generalizing length with
  | zero =>
    rw [lineSearch]
    rintro t ⟨⟩
  | succ trials ih =>
    have htrial := between_trialPoint hbounds hpoint d length
    rw [lineSearch]
    refine ⟨htrial, fun value _ => ?_⟩
    dsimp only [Program.bind]
    split
    · next haccept =>
      rintro t ⟨⟩
      refine ⟨htrial, trialStep_reals hpoint d length fun i hnan => ?_⟩
      -- no value is low enough where the descent that is asked for is no number
      have hdescent := haccept.2
      rw [dot_of_nan _ hnan, mul_nan, add_nan] at hdescent
      exact not_le_nan _ hdescent
    · exact ih (length * 0.5)

/-- An iteration asks at points between the bounds only, and ends at one, or goes on from there. -/
theorem iterateOnce_between (hbounds : ∀ i : Fin n, lower.get i ≤ upper.get i)
    {settings : Settings Extended} (hpos : 0 < settings.maxStepRatio)
    (hfinite : Scalar.isFinite settings.maxStepRatio) {iteration : Nat} {s : Iterate Extended n}
    (hs : Sane lower upper s) :
    (iterateOnce lower upper settings iteration s).Meets (Within (Between lower upper)) fun
      | .ended o => Between lower upper o.point
      | .goesOn _ next => Sane lower upper next := by
  rw [iterateOnce]
  split
  · exact hs.point
  next hgradient =>
  obtain ⟨g, hg⟩ := exists_eq_reals_of_isFinite hgradient
  -- a finite gradient is real, and then so are the inverse and the direction
  obtain ⟨h, hh⟩ := hs.inverse g hg
  obtain ⟨d, h', hd, hh'⟩ := heading_reals lower upper hg hh
  obtain ⟨length, hlength⟩ := firstLength_reals hpos hfinite s.point d
  dsimp only
  split
  · exact hs.point
  rw [← projected, ← heading, hd, heading_point, hlength]
  have hhere : Between lower upper (heading lower upper s).2.point := by
    rw [heading_point]
    exact hs.point
  refine (Program.meets_bind _ _).mpr
    ((lineSearch_between hbounds hhere d maxTrials length).mono ?_)
  rintro (_ | trial) htrial
  · exact hs.point
  obtain ⟨hinside, step, hstep⟩ := htrial trial rfl
  refine ⟨hinside, fun gradient _ => ?_⟩
  have hnext : Sane lower upper ((heading lower upper s).2.advance trial gradient) := by
    refine ⟨hinside, fun g' hg' => ?_⟩
    obtain rfl : gradient = reals g' := hg'
    refine ⟨(learn h' (heading lower upper s).2.fresh step (g' - g)).1, ?_⟩
    rw [Iterate.advance, hstep, hh', heading_gradient, hg, sub_reals, learn_reals]
  dsimp only [Program.bind, Program.bind_eq]
  split
  · refine ⟨trivial, fun _ _ => ?_⟩
    split
    · exact hinside
    · exact hnext
  · split
    · exact hinside
    · exact hnext

theorem iterate_between (hbounds : ∀ i : Fin n, lower.get i ≤ upper.get i)
    {settings : Settings Extended} (hpos : 0 < settings.maxStepRatio)
    (hfinite : Scalar.isFinite settings.maxStepRatio) (remaining iteration : Nat)
    (norm : Option Extended) {s : Iterate Extended n} (hs : Sane lower upper s) :
    (iterate lower upper settings remaining iteration norm s).Meets (Within (Between lower upper))
      fun o => Between lower upper o.point := by
  -- on the iterations that are left, with a sane iterate as the invariant
  induction remaining generalizing iteration norm s with
  | zero =>
    rw [iterate]
    exact hs.point
  | succ remaining ih =>
    rw [iterate]
    refine (Program.meets_bind _ _).mpr ((iterateOnce_between hbounds hpos hfinite hs).mono ?_)
    rintro (outcome | ⟨norm, next⟩) hnext
    · exact hnext
    · exact ih (iteration + 1) (some norm) hnext

/-- No minimisation leaves the bounds, whatever it is answered. -/
theorem Minimize.confined_between (hbounds : ∀ i : Fin n, lower.get i ≤ upper.get i)
    {ratio : Extended} (hpos : 0 < ratio) (hfinite : Scalar.isFinite ratio) :
    Confined lower upper ratio (Between lower upper) := by
  rintro start settings hstart rfl
  have hpoint : Between lower upper (clampTo lower upper start) :=
    between_clampTo hbounds fun i => (ne_nan_of_le (hstart i).1).2
  rw [minimize]
  refine ⟨hpoint, fun value _ => ?_⟩
  dsimp only [Program.bind]
  split
  · refine ⟨hpoint, fun gradient _ => ?_⟩
    exact iterate_between hbounds hpos hfinite _ _ _ ⟨hpoint, fun _ _ => ⟨_, identity_reals⟩⟩
  · exact hpoint

/-! ## Solvers -/

section

variable {α : Type} [Scalar α]

/-- The point has an entry for each variable, none of them below its lower bound or above its upper
one. -/
def Layout.Admits (problem : Layout α) (x : List α) : Prop :=
  x.length = problem.dimension ∧ List.Forall₂ (fun l a => ¬ a < l) problem.lower x ∧
    List.Forall₂ (fun u a => ¬ u < a) problem.upper x

/-- The point has an entry for each variable, all of them between their bounds. -/
def Layout.Encloses (problem : Layout α) (x : List α) : Prop :=
  x.length = problem.dimension ∧ List.Forall₂ (fun l a => l ≤ a) problem.lower x ∧
    List.Forall₂ (fun u a => a ≤ u) problem.upper x

/-- Whatever is answered, both solvers ask for values and Jacobians at good points only, under any
configuration, and end at one. -/
def Layout.Confines (problem : Layout α) (ε : Type) (good : List α → Prop) : Prop :=
  (∀ config, (AugmentedLagrangian.run config problem : Run α ε _).run.Meets (Visits α ε good)
      fun r => ∀ t, r = .ok t → good t.point) ∧
    ∀ config, (ProjectedBfgs.run config problem : Run α ε _).run.Meets (Visits α ε good)
      fun r => ∀ t, r = .ok t → good t.point

omit [Scalar α] in
theorem forall₂_toList {β : Type} {n : Nat} {R : α → β → Prop} {v : Vector α n} {w : Vector β n} :
    List.Forall₂ R v.toList w.toList ↔ ∀ i : Fin n, R (v.get i) (w.get i) := by
  rw [List.forall₂_iff_get]
  simp only [Vector.length_toList, true_and]
  constructor
  · intro h i
    exact h i.val i.isLt i.isLt
  · intro h i hi _
    exact h ⟨i, hi⟩

/-- Where the start is at a good point, and no minimisation leaves the good points, all calls are at
good points. -/
theorem Layout.confines_of_confined {problem : Layout α} {ε : Type} {good : List α → Prop}
    (hgood : ∀ start ratio, problem.checkedStart = .ok start → 0 < ratio → Scalar.isFinite ratio →
      good start.point.toList ∧
        Confined start.lower start.upper ratio fun x => good x.toList) :
    problem.Confines ε good := by
  have hends {k : Nat} {fits : Values α → Prop} (r : Except (Failure α ε) (Termination α))
      (hr : ∀ t, r = .ok t → t.Fits problem.dimension k fits ∧
        t.EndsIn fun x : Vector α problem.dimension => good x.toList) :
      ∀ t, r = .ok t → good t.point := by
    intro t ht
    obtain ⟨-, x, hx, hpoint⟩ := hr t ht
    rwa [hpoint]
  -- both solvers stay in the region of their cap on steps, and it only has good points
  constructor
  · intro config
    have hregion (start : Start α problem.dimension) (hstart : problem.checkedStart = .ok start)
        (hvalid : config.validate = .ok ()) : good start.point.toList ∧
          Confined start.lower start.upper config.maxStepRatio fun x => good x.toList := by
      obtain ⟨hpos, hfinite⟩ := (AugmentedLagrangian.Config.valid_of_validate hvalid).maxStepRatio
      exact hgood start config.maxStepRatio hstart hpos hfinite
    rcases AugmentedLagrangian.holds_run_of_confined (visiting_covers (ε := ε) _)
      (fun _ _ _ hx => hx) hregion with hrun | ⟨index, size, -, hrun⟩
    · exact Program.Meets.mono hends hrun
    · -- the run ends before its first call
      rw [hrun]
      exact ⟨trivial, fun reply => reply.elim⟩
  · intro config
    have hregion (start : Start α problem.dimension) (hstart : problem.checkedStart = .ok start)
        (hvalid : config.validate = .ok ()) : good start.point.toList ∧
          Confined start.lower start.upper config.maxStepRatio fun x => good x.toList := by
      obtain ⟨hpos, hfinite⟩ := ProjectedBfgs.Config.maxStepRatio_of_validate hvalid
      exact hgood start config.maxStepRatio hstart hpos hfinite
    have hrun := ProjectedBfgs.holds_run_of_confined (visiting_covers (ε := ε) 0).toAnswers
      (fun _ _ _ hx => hx) hregion
    exact Program.Meets.mono hends hrun

/-- The points of the box that a solver has checked are admitted. -/
theorem Layout.admits_of_inBox (hordered : Scalar.Ordered α) {problem : Layout α}
    {start : Start α problem.dimension} (hstart : problem.checkedStart = .ok start)
    {x : Vector α problem.dimension} (hx : Minimize.InBox start.lower start.upper x) :
    problem.Admits x.toList := by
  obtain ⟨hlower, hupper, hbounds, -⟩ := Layout.checkedStart_eq_ok hstart
  obtain ⟨y, rfl⟩ := hx
  have hclamp (i : Fin problem.dimension) :
      ¬ (clampTo start.lower start.upper y).get i < start.lower.get i ∧
        ¬ start.upper.get i < (clampTo start.lower start.upper y).get i := by
    rw [clampTo, entry_ofFn]
    exact hordered.not_lt_clamp (hbounds i) _
  rw [Layout.Admits, ← hlower, ← hupper, forall₂_toList, forall₂_toList]
  exact ⟨Vector.length_toList, fun i => (hclamp i).1, fun i => (hclamp i).2⟩

end

/-- The points of the box are those between the bounds that a solver has checked. -/
theorem Layout.encloses_iff_between {problem : Layout Extended}
    {start : Start Extended problem.dimension} (hstart : problem.checkedStart = .ok start)
    (x : Vector Extended problem.dimension) :
    problem.Encloses x.toList ↔ Between start.lower start.upper x := by
  obtain ⟨hlower, hupper, -, -⟩ := Layout.checkedStart_eq_ok hstart
  rw [Layout.Encloses, ← hlower, ← hupper, forall₂_toList, forall₂_toList, ← forall_and]
  exact and_iff_right Vector.length_toList

/-- Both solvers make all their calls in the box, and end there, whatever they are answered: in any
ordered arithmetic no entry is out of its bounds, and in exact arithmetic, with infinities or
without them, every entry is between its bounds. -/
theorem Layout.runs_confined (ε : Type) :
    (∀ (α : Type) [Scalar α], Scalar.Ordered α →
      ∀ problem : Layout α, problem.Confines ε problem.Admits) ∧
    (∀ problem : Layout ℝ, problem.Confines ε problem.Encloses) ∧
    ∀ problem : Layout Extended, Extended.nan ∉ problem.start →
      problem.Confines ε problem.Encloses := by
  have hadmits (α : Type) [Scalar α] (hordered : Scalar.Ordered α) (problem : Layout α) :
      problem.Confines ε problem.Admits := by
    refine Layout.confines_of_confined fun start ratio hstart _ _ => ?_
    have hbox := fun x => Layout.admits_of_inBox hordered hstart (x := x)
    obtain ⟨-, -, -, hpoint⟩ := Layout.checkedStart_eq_ok hstart
    exact ⟨hbox _ hpoint, Minimize.confined_of_inBox hbox ratio⟩
  refine ⟨hadmits, ?real, ?extended⟩
  case real =>
    intro problem
    have hencloses : problem.Encloses = problem.Admits := by
      funext x
      simp only [Layout.Encloses, Layout.Admits, not_lt]
    rw [hencloses]
    exact hadmits ℝ Exact.ordered problem
  case extended =>
    intro problem hnumbers
    refine Layout.confines_of_confined fun start ratio hstart hpos hfinite => ?_
    obtain ⟨-, -, hbounds, -⟩ := Layout.checkedStart_eq_ok hstart
    obtain ⟨x, hx, hpoint⟩ := Layout.point_of_checkedStart hstart
    simp only [Layout.encloses_iff_between hstart]
    refine ⟨?_, Minimize.confined_between hbounds hpos hfinite⟩
    rw [hpoint]
    refine between_clampTo hbounds fun i hi => hnumbers ?_
    rw [← hx, ← hi]
    exact Vector.mem_toList_iff.mpr (Vector.getElem_mem i.isLt)

/-- One variable that is not negative, without constraints. -/
noncomputable def halfLine : Layout Extended :=
  ⟨1, [.real 0], [.infinite true], [.real 1], []⟩

theorem halfLine_checkedStart : ∃ start, halfLine.checkedStart = .ok start := by
  have hbounds (i : Fin 1) : #v[Extended.real 0].get i ≤ #v[Extended.infinite true].get i := by
    obtain rfl : i = 0 := Subsingleton.elim i 0
    exact rfl
  exact ⟨_, Layout.checkedStart_toList hbounds #v[Extended.real 1] []⟩

/-- On doubles, and in exact arithmetic on a half line. -/
theorem Layout.runs_confined_halfLine :
    (∀ problem : Layout Double, problem.Confines Empty problem.Admits) ∧
      (∃ start, halfLine.checkedStart = .ok start) ∧ Extended.nan ∉ halfLine.start ∧
      halfLine.Confines Empty halfLine.Encloses := by
  have hnumbers : Extended.nan ∉ halfLine.start := by
    simp [halfLine]
  obtain ⟨hordered, -, hextended⟩ := Layout.runs_confined Empty
  exact ⟨hordered Double Double.ordered, halfLine_checkedStart, hnumbers,
    hextended halfLine hnumbers⟩

end Nlp
