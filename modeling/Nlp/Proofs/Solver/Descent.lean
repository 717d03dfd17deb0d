import Nlp.Proofs.Solver.Callbacks
import Nlp.Proofs.Solver.Curvature
import Nlp.Solver.ProjectedBfgs
import Mathlib.LinearAlgebra.Matrix.IsDiag

/-!
# Where accepted steps descend

The Armijo condition compares the merit with its slope along the step that was taken, which the box
may have cut.  The direction before the cut is one of descent.  After it the slope can be positive,
and then a step that raises the merit a little is accepted.  In exact arithmetic that takes both a
cut and a coupling: along the direction itself the slope is negative, and where the inverse Hessian
approximation is diagonal, every entry of the step goes down by itself.

## Main definitions

* `Cut`: the box cuts a trial.
* `Descends`: an accepted step of a minimisation, with the merit before and after it.
* `Descending`: the values of a minimisation, from step to step.

## Main results

* `slope_nonpos_of_not_cut`, `slope_nonpos_of_isDiag`: where the slope along a step is not positive.
* `descending_of_yields`: the trace of a minimisation.
* `accepted_steps_descend`: the traces of minimisations, and the histories of the projected BFGS
  solver.
-/

open scoped Matrix

namespace Nlp

open Exact

namespace Minimize

variable {n : Nat} {lower upper start : Vector ℝ n} {settings : Settings ℝ}
  {C : Contract (merit ℝ n)}

/-! ## The slope along a step -/

theorem firstLength_nonneg {ratio : ℝ} (hratio : 0 ≤ ratio) (x d : Vector ℝ n) :
    0 ≤ firstLength ratio x d := by
  have hcap : 0 ≤ ratio * max (infNorm x) 1 :=
    mul_nonneg hratio (zero_le_one.trans (le_max_right _ _))
  unfold firstLength
  dsimp only
  split
  · exact div_nonneg hcap (infNorm_nonneg d)
  · exact zero_le_one

theorem Takes.length_nonneg {s : Iterate ℝ n} {t : Trial ℝ n}
    (ht : Takes C lower upper settings s t) (hratio : 0 ≤ settings.maxStepRatio) :
    0 ≤ t.length := by
  obtain ⟨halvings, hlength⟩ := ht.length
  have hhalf : (0 : ℝ) ≤ 0.5 := by norm_num
  rw [hlength, mul_right_iterate]
  exact mul_nonneg (firstLength_nonneg hratio _ _) (pow_nonneg hhalf _)

/-- The direction is the quasi-Newton direction, if that is one of descent, and otherwise goes
against the projected gradient. -/
theorem heading_cases (lower upper : Vector ℝ n) (s : Iterate ℝ n) :
    ((heading lower upper s).1 = quasiNewton lower upper s ∧
      dot (quasiNewton lower upper s) (projected lower upper s.point s.gradient) < 0) ∨
    (heading lower upper s).1 = -projected lower upper s.point s.gradient := by
  unfold heading steer
  dsimp only
  split
  · exact .inr rfl
  · next h => exact .inl ⟨rfl, not_le.mp h⟩

theorem dot_mask (frozen : Vector Bool n) (v w : Vector ℝ n) :
    dot v (mask frozen w) = dot (mask frozen w) (mask frozen v) := by
  rw [dot_eq, dot_eq]
  refine Finset.sum_congr rfl fun i _ => ?_
  by_cases hi : frozen.get i = true <;> simp [mask, hi, mul_comm]

/-- The slope along the direction of an iteration is not positive. -/
theorem dot_heading_nonpos (lower upper : Vector ℝ n) (s : Iterate ℝ n) :
    dot s.gradient (heading lower upper s).1 ≤ 0 := by
  rcases heading_cases lower upper s with ⟨h, hdescent⟩ | h
  · rw [h, quasiNewton, direction, dot_mask]
    exact hdescent.le
  · rw [h, dot_eq, get_neg, dotProduct_neg, ← dot_eq, projected, dot_mask, dot_eq]
    exact neg_nonpos.mpr (Finset.sum_nonneg fun i _ => mul_self_nonneg _)

/-- A trial that the box does not cut is where the slope is not positive. -/
theorem slope_nonpos_of_not_cut {s : Iterate ℝ n} {t : Trial ℝ n}
    (ht : Takes C lower upper settings s t) (hratio : 0 ≤ settings.maxStepRatio)
    (hcut : t.point = s.point + scale (heading lower upper s).1 t.length) :
    dot s.gradient t.step ≤ 0 := by
  have hstep : t.step.get = t.length • (heading lower upper s).1.get := by
    rw [ht.step, hcut, get_sub, get_add, get_scale, add_sub_cancel_left]
  rw [dot_eq, hstep, dotProduct_smul, ← dot_eq]
  exact mul_nonpos_of_nonneg_of_nonpos (ht.length_nonneg hratio) (dot_heading_nonpos lower upper s)

/-- From a point of an interval, a number that goes against `g` still does once it is clamped. -/
theorem mul_clamp_sub_nonpos {l u x g a : ℝ} (hx : x ∈ Set.Icc l u) (h : g * a ≤ 0) :
    g * (Scalar.clamp l u (x + a) - x) ≤ 0 := by
  unfold Scalar.clamp
  split_ifs with hl hu
  · have ha : a < 0 := by linarith [hx.1]
    exact mul_nonpos_of_nonneg_of_nonpos (nonneg_of_mul_nonpos_left h ha) (sub_nonpos.mpr hx.1)
  · have ha : 0 < a := by linarith [hx.2]
    exact mul_nonpos_of_nonpos_of_nonneg (nonpos_of_mul_nonpos_left h ha) (sub_nonneg.mpr hx.2)
  · rwa [add_sub_cancel_left]

/-- With a diagonal inverse Hessian approximation every entry of the direction goes against that of
the gradient. -/
theorem mul_heading_nonpos_of_isDiag {s : Iterate ℝ n} (hs : (toMatrix s.inverse).PosDef)
    (hdiag : (toMatrix s.inverse).IsDiag) (i : Fin n) :
    s.gradient.get i * (heading lower upper s).1.get i ≤ 0 := by
  have hpos : 0 < toMatrix s.inverse i i := hs.diag_pos
  have hsquare : 0 ≤ s.gradient.get i * s.gradient.get i := mul_self_nonneg _
  rcases heading_cases lower upper s with ⟨h, -⟩ | h
  · -- a frozen variable does not move, and any other one only by its own entry of the gradient
    by_cases hi : (active lower upper s.point s.gradient).get i = true
    · simp [h, quasiNewton, direction, mask, hi]
    · have hentry : (quasiNewton lower upper s).get i =
          -(toMatrix s.inverse i i * s.gradient.get i) := by
        rw [quasiNewton, direction, mask, entry_ofFn, if_neg hi, get_neg, mulVec_get,
          ← hdiag.diagonal_diag, Pi.neg_apply, Matrix.mulVec_diagonal]
        simp [projected, mask, hi]
      rw [h, hentry, mul_neg, mul_left_comm]
      exact neg_nonpos.mpr (mul_nonneg hpos.le hsquare)
  · rw [h, get_neg, Pi.neg_apply, projected_getElem]
    split
    · simp
    · rw [mul_neg]
      exact neg_nonpos.mpr hsquare

/-- A trial along a direction without coupling is where the slope is not positive, cut or not. -/
theorem slope_nonpos_of_isDiag {s : Iterate ℝ n} {t : Trial ℝ n}
    (ht : Takes C lower upper settings s t) (hratio : 0 ≤ settings.maxStepRatio)
    (hpoint : ∀ i : Fin n, s.point.get i ∈ Set.Icc (lower.get i) (upper.get i))
    (hs : (toMatrix s.inverse).PosDef) (hdiag : (toMatrix s.inverse).IsDiag) :
    dot s.gradient t.step ≤ 0 := by
  rw [dot_eq]
  refine Finset.sum_nonpos fun i _ => ?_
  have hentry : t.step.get i = Scalar.clamp (lower.get i) (upper.get i)
      (s.point.get i + t.length * (heading lower upper s).1.get i) - s.point.get i := by
    rw [ht.step, ht.point, get_sub, Pi.sub_apply, trialPoint, clampTo, entry_ofFn, get_add,
      get_scale]
    rfl
  rw [hentry]
  refine mul_clamp_sub_nonpos (hpoint i) ?_
  rw [mul_left_comm]
  exact mul_nonpos_of_nonneg_of_nonpos (ht.length_nonneg hratio)
    (mul_heading_nonpos_of_isDiag hs hdiag i)

/-! ## Traces -/

/-- The box cuts the trial: the point is not where the step length leads along the direction. -/
def Cut (lower upper : Vector ℝ n) (s : Iterate ℝ n) (t : Trial ℝ n) : Prop :=
  t.point ≠ s.point + scale (heading lower upper s).1 t.length

/-- The step of number `k` of a minimisation, which accepts a trial, with the merit before and after
it.  Unless the ratio that bounds the step is negative, the merit rises only where the box cuts the
trial and the inverse Hessian approximation couples the variables. -/
inductive Descends (C : Contract (merit ℝ n)) (lower upper start : Vector ℝ n)
    (settings : Settings ℝ) (k : Nat) : ℝ → ℝ → Prop
  | step {norm : Option ℝ} {s : Iterate ℝ n} {t : Trial ℝ n}
      (hs : Reaches C lower upper start settings k norm s)
      (ht : Takes C lower upper settings s t)
      (hrise : 0 ≤ settings.maxStepRatio → s.value < t.value →
        Cut lower upper s t ∧ ¬ (toMatrix s.inverse).IsDiag) :
    Descends C lower upper start settings k s.value t.value

/-- The values of a minimisation: the merit at the start, and one step after the other. -/
structure Descending (C : Contract (merit ℝ n)) (lower upper start : Vector ℝ n)
    (settings : Settings ℝ) (values : List ℝ) : Prop where
  head : ∃ value, C.replies (.value (clampTo lower upper start)) value ∧ values[0]? = some value
  steps : ∀ k (h : k + 1 < values.length),
    Descends C lower upper start settings k values[k] values[k + 1]

theorem Descending.singleton {value : ℝ}
    (hvalue : C.replies (.value (clampTo lower upper start)) value) :
    Descending C lower upper start settings [value] where
  head := ⟨value, hvalue, rfl⟩
  steps k h := absurd h (Nat.not_lt.mpr (Nat.le_add_left 1 k))

theorem Descending.concat {values : List ℝ} {k : Nat} {v v' : ℝ}
    (h : Descending C lower upper start settings values) (hlast : values[k]? = some v)
    (hlength : values.length = k + 1) (hstep : Descends C lower upper start settings k v v') :
    Descending C lower upper start settings (values ++ [v']) where
  head := by
    obtain ⟨value, hvalue, hhead⟩ := h.head
    have hpos : 0 < values.length := by omega
    exact ⟨value, hvalue, (List.getElem?_append_left hpos).trans hhead⟩
  steps i hi := by
    rw [List.length_append, List.length_singleton] at hi
    -- the step of number `k` is the new one
    by_cases hlt : i < k
    · rw [List.getElem_append_left (by omega), List.getElem_append_left (by omega)]
      exact h.steps i (by omega)
    · obtain rfl : i = k := by omega
      obtain ⟨_, rfl⟩ := List.getElem?_eq_some_iff.mp hlast
      rw [List.getElem_append_left (by omega), List.getElem_concat_length hlength.symm]
      exact hstep

theorem Takes.descends (hbox : ∀ i : Fin n, lower.get i ≤ upper.get i) {k : Nat} {norm : Option ℝ}
    {s : Iterate ℝ n} {t : Trial ℝ n} (hs : Reaches C lower upper start settings k norm s)
    (ht : Takes C lower upper settings s t) :
    Descends C lower upper start settings k s.value t.value := by
  refine .step hs ht fun hratio hrise => ?_
  have harmijo : (0 : ℝ) < armijo := by norm_num [armijo]
  -- the Armijo condition lets a rise pass only along a positive slope
  have hslope : 0 < dot s.gradient t.step := by
    by_contra hle
    have hdrop := mul_nonpos_of_nonneg_of_nonpos harmijo.le (not_lt.mp hle)
    linarith [ht.descent]
  have hpoint (i : Fin n) : s.point.get i ∈ Set.Icc (lower.get i) (upper.get i) := by
    obtain ⟨y, hy⟩ := hs.standing.inBox
    rw [hy]
    exact clampTo_mem_Icc hbox y i
  exact ⟨fun hcut => hslope.not_ge (slope_nonpos_of_not_cut ht hratio hcut), fun hdiag =>
    hslope.not_ge (slope_nonpos_of_isDiag ht hratio hpoint hs.posDef hdiag)⟩

/-- The trace of a state that is reached has a value for the start and for every step, the last one
that of the state. -/
structure Traced (C : Contract (merit ℝ n)) (lower upper start : Vector ℝ n)
    (settings : Settings ℝ) (k : Nat) (s : Iterate ℝ n) : Prop where
  descending : Descending C lower upper start settings s.trace.toList
  length : s.trace.toList.length = k + 1
  last : s.trace.toList[k]? = some s.value

theorem Traced.push {k : Nat} {s : Iterate ℝ n} (h : Traced C lower upper start settings k s)
    {v : ℝ} (hstep : Descends C lower upper start settings k s.value v) :
    Descending C lower upper start settings (s.trace.push v).toList := by
  rw [Array.toList_push]
  exact h.descending.concat h.last h.length hstep

theorem Reaches.traced (hbox : ∀ i : Fin n, lower.get i ≤ upper.get i) {k : Nat} {norm : Option ℝ}
    {s : Iterate ℝ n} (hs : Reaches C lower upper start settings k norm s) :
    Traced C lower upper start settings k s := by
  -- on the iterations: each one adds the value of its trial to the trace
  induction hs with
  | start hvalue => exact ⟨.singleton hvalue, rfl, rfl⟩
  | @step k norm norm' s next hs hnext ih =>
    cases iterateOnce_yields hnext with
    | @goesOn t g hnorm ht hg =>
      have htrace : ((heading lower upper s).2.advance t g).trace = s.trace.push t.value :=
        congrArg (·.push t.value) (heading_trace lower upper s)
      refine ⟨?_, ?_, ?_⟩ <;> rw [htrace]
      · exact ih.push (ht.descends hbox hs)
      · rw [Array.toList_push, List.length_append, ih.length, List.length_singleton]
      · rw [Array.toList_push, ← ih.length, List.getElem?_concat_length]
        rfl

/-- The trace of a minimisation. -/
theorem descending_of_yields (hbox : ∀ i : Fin n, lower.get i ≤ upper.get i) {o : Outcome ℝ n}
    (h : (minimize lower upper start settings).Yields C o) :
    Descending C lower upper start settings o.trace.toList := by
  obtain ⟨value, hvalue, -, rfl⟩ | ⟨k, norm, s, hs, hend⟩ := minimize_yields h
  · exact .singleton hvalue
  have htraced := hs.traced hbox
  rcases hend with hend | rfl
  · cases iterateOnce_yields hend with
    | nonFinite | converged | lineSearchFailed => exact htraced.descending
    | smallStep hnorm ht hg => exact htraced.push (ht.descends hbox hs)
  · exact htraced.descending

end Minimize

/-! ## Histories -/

namespace ProjectedBfgs

open Minimize

variable {ε : Type} {P : PureCallbacks ℝ ε} {n : Nat}

/-- The objective, and its gradient, where the callbacks have them. -/
def objectives (P : PureCallbacks ℝ ε) (n : Nat) : Contract (merit ℝ n) where
  asks _ := True
  replies
    | .value x, v => ∃ values, P.evaluate x.toList = .ok values ∧ v = values.objective
    | .gradient x, g => ∃ a entries, P.jacobian x.toList = .ok a ∧ a.shaped? 1 n = some entries ∧
        g = entries.get ⟨0, Nat.one_pos⟩
    | .report _, _ => True

theorem ensures_answer (c : MeritCall ℝ n) :
    P.ensures.holds (answer c) ((objectives P n).replies c) := by
  cases c with
  | value x =>
    refine P.ensures.chain (PureCallbacks.ensures_evaluate x.toList) fun values hvalues => ?_
    exact P.ensures.pure _ ⟨values, hvalues, rfl⟩
  | gradient x =>
    refine P.ensures.chain (PureCallbacks.ensures_jacobian x.toList) fun a ha => ?_
    refine P.ensures.chain (PureCallbacks.ensures_shaped a 1 n) fun entries hentries => ?_
    exact P.ensures.pure _ ⟨a, entries, ha, hentries, rfl⟩
  | report p => exact PureCallbacks.ensures_report p

/-- The history of a run is the trace of its minimisation. -/
theorem ensures_solve (config : Config ℝ) (problem : Layout ℝ) :
    P.ensures.holds (solve config problem) fun t =>
      ∃ (start : Start ℝ problem.dimension) (settings : Settings ℝ) (o : Outcome ℝ _),
        problem.checkedStart = .ok start ∧ settings.maxStepRatio = config.maxStepRatio ∧
        (minimize start.lower start.upper start.point settings).Yields (objectives P _) o ∧
        t.history = o.trace.toList := by
  rw [solve]
  refine P.ensures.ite (fun _ => PureCallbacks.ensures_refuse _ _) fun _ => ?_
  split
  · exact PureCallbacks.ensures_refuse _ _
  next start hstart =>
  refine P.ensures.chain (PureCallbacks.ensures_jacobian _) fun a _ => ?_
  refine P.ensures.chain (PureCallbacks.ensures_shaped a _ _) fun initial _ => ?_
  refine P.ensures.chain (Program.yields_interpret P.ensures (C := objectives P _)
    (fun _ => trivial) ensures_answer _) fun outcome houtcome => ?_
  refine P.ensures.chain (PureCallbacks.ensures_evaluate _) fun values _ => ?_
  refine P.ensures.ite (fun _ => ?_) fun _ =>
    P.ensures.pure _ ⟨start, _, outcome, hstart, rfl, houtcome, rfl⟩
  refine P.ensures.chain (PureCallbacks.ensures_report _) fun _ _ => ?_
  exact P.ensures.pure _ ⟨start, _, outcome, hstart, rfl, houtcome, rfl⟩

/-- The traces of the minimisations over a box, on whatever replies, and the histories of all
runs. -/
theorem accepted_steps_descend {lower upper : Vector ℝ n} {C : Contract (merit ℝ n)}
    (hbox : ∀ i : Fin n, lower.get i ≤ upper.get i) :
    (∀ {start : Vector ℝ n} {settings : Settings ℝ} {o : Outcome ℝ n},
      (minimize lower upper start settings).Yields C o →
      Descending C lower upper start settings o.trace.toList) ∧
    ∀ {ε : Type} {P : PureCallbacks ℝ ε} {config : Config ℝ} {problem : Layout ℝ}
        {t : Termination ℝ}, P.run (solve config problem) = some (.ok t) →
      ∃ (start : Start ℝ problem.dimension) (settings : Settings ℝ),
        problem.checkedStart = .ok start ∧ settings.maxStepRatio = config.maxStepRatio ∧
        Descending (objectives P problem.dimension) start.lower start.upper start.point settings
          t.history := by
  refine ⟨descending_of_yields hbox, fun hrun => ?_⟩
  obtain ⟨start, settings, o, hstart, hratio, hyields, hhistory⟩ :=
    PureCallbacks.of_run (ensures_solve _ _) hrun
  obtain ⟨-, -, hbox, -⟩ := Layout.checkedStart_eq_ok hstart
  exact ⟨start, settings, hstart, hratio, hhistory ▸ descending_of_yields hbox hyields⟩

/-! ### A step up in the valley

From `(1, 1)` the direction is `(3/2, 1/4)`, and the bound on the first variable cuts it to
`(1/20, 1/4)`.  The step rises, by less than the Armijo condition lets pass.
-/

/-- The objective of the valley. -/
noncomputable def valleyCallbacks : PureCallbacks ℝ Empty where
  evaluate x := .ok ⟨valleyValue #v[x.getD 0 0, x.getD 1 0], []⟩
  jacobian x := .ok ⟨1, 2, #v[valleyGradient #v[x.getD 0 0, x.getD 1 0]]⟩

/-- The layout of the problem. -/
noncomputable def valleyLayout : Layout ℝ :=
  ⟨2, [0, 0], [1.05, 2.0], [0, 0], []⟩

/-- Two iterations of at most twice the size of the point. -/
noncomputable def valleyConfig : Config ℝ :=
  { Config.default with maxIterations := 2, maxStepRatio := 2.0 }

theorem valleyValue_last : valleyValue #v[21 / 20, 5 / 4] = -299999 / 250000 := by
  simp only [valleyValue, pair_get_zero, pair_get_one]
  norm_num

section

variable {settings : Settings ℝ} (hquiet : settings.verbose = false)
  (htolerance : settings.tolerance < 1) (hratio : settings.maxStepRatio = 2)
include hquiet htolerance hratio

theorem valley_goesOn_next :
    (iterateOnce #v[0, 0] #v[21 / 20, 2] settings 1 valleyNext).Yields valley
      (.goesOn 1 (valleyNext.advance
        ⟨#v[21 / 20, 5 / 4], #v[21 / 20 - 1, 5 / 4 - 1], -299999 / 250000, 1⟩
        (valleyGradient #v[21 / 20, 5 / 4]))) := by
  have hd : -(mulVec valleyNext.inverse #v[-1, 3 / 5]) = #v[3 / 2, 1 / 4] := by
    rw [valleyNext, mulVec_pair]
    refine eq_pair ?_ ?_ <;>
      simp only [get_neg, Pi.neg_apply, pair_get_zero, pair_get_one] <;> norm_num
  have hposDef : (toMatrix valleyNext.inverse).PosDef :=
    (valley_reaches hquiet htolerance hratio).posDef
  have hdescent : (-299999 / 250000 : ℝ) ≤
      valleyNext.value + armijo * (-1 * (21 / 20 - 1) + 3 / 5 * (5 / 4 - 1)) := by
    rw [valleyNext]
    norm_num [armijo]
  exact valley_goesOn hquiet htolerance hratio hposDef rfl rfl (by norm_num) (by norm_num)
    (by norm_num) hd (by norm_num) (by norm_num [Scalar.clamp]) (by norm_num [Scalar.clamp])
    valleyValue_last hdescent (by norm_num)

/-- Two iterations in the valley. -/
theorem valley_minimize (hmost : settings.maxIterations = 2) :
    (minimize #v[0, 0] #v[21 / 20, 2] #v[0, 0] settings).Yields valley
      ⟨#v[21 / 20, 5 / 4], -299999 / 250000, some 1, 2, .iterationLimit,
        #[0, -6 / 5, -299999 / 250000]⟩ := by
  have hreaches := (valley_reaches hquiet htolerance hratio).step
    (valley_goesOn_next hquiet htolerance hratio)
  have hmost' : settings.maxIterations = 1 + 1 + 0 := hmost
  exact minimize_yields_of_reaches hreaches hmost' rfl

end

theorem run_valley_answer (c : MeritCall ℝ 2) (reply : (merit ℝ 2).Reply c)
    (h : valley.replies c reply) : valleyCallbacks.run (answer c) = some (.ok reply) := by
  have hpair (x : Vector ℝ 2) : #v[x.toList.getD 0 0, x.toList.getD 1 0] = x := by
    refine (eq_pair ?_ ?_).symm <;> simp <;> rfl
  cases c with
  | value x =>
    obtain rfl := h
    refine PureCallbacks.run_bind_eq_ok.mpr ⟨_, rfl, ?_⟩
    rw [hpair]
    rfl
  | gradient x =>
    obtain rfl := h
    refine PureCallbacks.run_bind_eq_ok.mpr ⟨_, rfl, ?_⟩
    rw [hpair]
    refine PureCallbacks.run_bind_eq_ok.mpr ⟨#v[valleyGradient x], ?_, rfl⟩
    rw [Run.shaped, Matrix.shaped?_mk]
    rfl
  | report p => rfl

theorem valley_box (i : Fin 2) : #v[(0 : ℝ), 0].get i ≤ #v[21 / 20, 2].get i := by
  revert i
  rw [Fin.forall_fin_two]
  simp only [pair_get_zero, pair_get_one]
  norm_num

theorem valley_checkedStart :
    valleyLayout.checkedStart = .ok ⟨#v[0, 0], #v[21 / 20, 2], #v[0, 0]⟩ := by
  have hupper : [(1.05 : ℝ), 2.0] = #v[21 / 20, 2].toList := by
    show [(1.05 : ℝ), 2.0] = [21 / 20, 2]
    norm_num
  have h : (Layout.mk 2 #v[(0 : ℝ), 0].toList #v[(21 / 20 : ℝ), 2].toList #v[(0 : ℝ), 0].toList
      []).checkedStart = _ :=
    Layout.checkedStart_toList valley_box _ _
  rw [valley_clampTo, ← hupper] at h
  exact h

/-- The run on the valley uses up its two iterations, the second of which raises the objective. -/
theorem run_valley_solve :
    valleyCallbacks.run (solve valleyConfig valleyLayout) =
      some (.ok ⟨-1, [21 / 20, 5 / 4], -299999 / 250000, [], [], 2,
        [0, -6 / 5, -299999 / 250000]⟩) := by
  have hsize : max (infNorm (valleyGradient #v[0, 0])) 1 = 1 := by
    rw [valleyGradient_start, infNorm_pair]
    norm_num
  have hjacobian :
      valleyCallbacks.run (Run.shaped (Matrix.mk 1 2 #v[valleyGradient #v[0, 0]]) 1 2) =
        some (.ok #v[valleyGradient #v[0, 0]]) := by
    rw [Run.shaped, Matrix.shaped?_mk]
    rfl
  have htolerance : valleyConfig.tolerance * max (infNorm (valleyGradient #v[0, 0])) 1 < 1 := by
    rw [hsize]
    norm_num [valleyConfig, Config.default]
  have hyields : (minimize #v[0, 0] #v[21 / 20, 2] #v[0, 0]
      ⟨2, valleyConfig.tolerance * max (infNorm (valleyGradient #v[0, 0])) 1, 2.0, false⟩).Yields
        valley _ :=
    valley_minimize rfl htolerance (by norm_num) rfl
  have hminimize := PureCallbacks.run_interpret_of_yields run_valley_answer hyields
  rw [solve, valley_checkedStart]
  refine PureCallbacks.run_bind_eq_ok.mpr ⟨_, rfl, ?_⟩
  refine PureCallbacks.run_bind_eq_ok.mpr ⟨_, hjacobian, ?_⟩
  refine PureCallbacks.run_bind_eq_ok.mpr ⟨_, hminimize, ?_⟩
  refine PureCallbacks.run_bind_eq_ok.mpr ⟨⟨-299999 / 250000, []⟩, ?_, rfl⟩
  rw [← valleyValue_last]
  rfl

theorem valley_validate : valleyConfig.validate = .ok () := by
  have htolerance : requirePositive "tolerance" (1e-6 : ℝ) = .ok () :=
    requirePositive_eq_ok.mpr ⟨by norm_num, rfl⟩
  have hratio : requirePositive "max_step_ratio" (2.0 : ℝ) = .ok () :=
    requirePositive_eq_ok.mpr ⟨by norm_num, rfl⟩
  exact bind_eq_ok.mpr ⟨(), htolerance, hratio⟩

/-- The minimisation in the valley and the run on it are as the general statement has it: its second
step, along `(3/2, 1/4)`, is cut by the box, and rises. -/
theorem valley_steps_descend :
    Descending valley #v[0, 0] #v[21 / 20, 2] #v[0, 0] ⟨2, 1 / 1000000, 2, false⟩
        [0, -6 / 5, -299999 / 250000] ∧
      ∃ (start : Start ℝ valleyLayout.dimension) (settings : Settings ℝ),
        valleyLayout.checkedStart = .ok start ∧
        settings.maxStepRatio = valleyConfig.maxStepRatio ∧
        Descending (objectives valleyCallbacks valleyLayout.dimension) start.lower start.upper
          start.point settings [0, -6 / 5, -299999 / 250000] :=
  have hyields : (minimize #v[0, 0] #v[21 / 20, 2] #v[0, 0] ⟨2, 1 / 1000000, 2, false⟩).Yields
      valley _ :=
    valley_minimize rfl (by norm_num) rfl rfl
  have h := accepted_steps_descend (C := valley) valley_box
  ⟨h.1 hyields, h.2 run_valley_solve⟩

/-- An accepted step raises the merit: the history of the run on the valley is not non-increasing,
nor is the trace of its minimisation. -/
theorem valley_rises :
    valleyConfig.validate = .ok () ∧
      valleyCallbacks.run (solve valleyConfig valleyLayout) =
        some (.ok ⟨-1, [21 / 20, 5 / 4], -299999 / 250000, [], [], 2,
          [0, -6 / 5, -299999 / 250000]⟩) ∧
      (minimize #v[0, 0] #v[21 / 20, 2] #v[0, 0] ⟨2, 1 / 1000000, 2, false⟩).Yields valley
        ⟨#v[21 / 20, 5 / 4], -299999 / 250000, some 1, 2, .iterationLimit,
          #[0, -6 / 5, -299999 / 250000]⟩ ∧
      ¬ List.Pairwise (· ≥ ·) [(0 : ℝ), -6 / 5, -299999 / 250000] := by
  refine ⟨valley_validate, run_valley_solve, valley_minimize rfl (by norm_num) rfl rfl, ?_⟩
  norm_num

end ProjectedBfgs

end Nlp
