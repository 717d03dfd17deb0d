import Nlp.Proofs.Solver.Confinement
import Nlp.Proofs.Solver.Descent

/-!
# The cap on a step

The first trial of a line search goes along the direction by as much as the cap allows, and every
later one by half as much as the one before; then the trial is clamped to the box.  Clamping brings
a point no farther from a point of the box, so in exact arithmetic every trial is within the cap of
the iterate, and so is the next iterate, whatever the merit answers and at every iteration.

The bounds can be infinite.  An infinite entry of an iterate stays where it is, and the norm passes
over it.

## Main definitions

* `Minimize.Tries`: the trials of an iteration.
* `Minimize.Near`: the points within the cap of an iterate.
* `Minimize.Capped`: the calls, the iterates and the ends of a minimisation are within the cap.

## Main results

* `tries_of_makes`: an iteration asks for the merit at its trials only.
* `makes_minimize`: all values a minimisation asks for, but for that at the start, are asked for by
  an iteration.
* `Minimize.steps_capped`: minimisations in exact arithmetic keep to the cap.
-/

namespace Nlp

namespace Minimize

section

variable {α : Type} [Scalar α] {n : Nat}

/-- The points that the iteration from `s` tries: some halvings of the first step length along the
direction, clamped to the box. -/
def Tries (lower upper : Vector α n) (settings : Settings α) (s : Iterate α n) (y : Vector α n) :
    Prop :=
  ∃ halvings : Nat, y = trialPoint lower upper s.point (heading lower upper s).1
    ((· * 0.5)^[halvings] (firstLength settings.maxStepRatio s.point (heading lower upper s).1))

/-- The point is within the step cap of the iterate `x`. -/
def Near (settings : Settings α) (x y : Vector α n) : Prop :=
  infNorm (y - x) ≤ settings.maxStepRatio * Scalar.max (infNorm x) 1

/-- A minimisation keeps to its step cap. -/
structure Capped (C : Contract (merit α n)) (lower upper start : Vector α n)
    (settings : Settings α) : Prop where
  /-- The merit is asked for at the start, and then only by iterations. -/
  asked : ∀ y, (minimize lower upper start settings).Makes C (.value y) →
    y = clampTo lower upper start ∨ ∃ k norm s, Reaches C lower upper start settings k norm s ∧
      (iterateOnce lower upper settings k s).Makes C (.value y)
  /-- An iteration asks for it near the iterate. -/
  tried : ∀ {k norm s}, Reaches C lower upper start settings k norm s →
    ∀ y, (iterateOnce lower upper settings k s).Makes C (.value y) → Near settings s.point y
  /-- The next iterate is near the iterate. -/
  accepted : ∀ {k norm s}, Reaches C lower upper start settings k norm s → ∀ norm' next,
    (iterateOnce lower upper settings k s).Yields C (.goesOn norm' next) →
    Near settings s.point next.point
  /-- The end is near the iterate. -/
  last : ∀ {k norm s}, Reaches C lower upper start settings k norm s → ∀ o,
    (iterateOnce lower upper settings k s).Yields C (.ended o) → Near settings s.point o.point

end

end Minimize

open Minimize

/-! ## Where an iteration asks -/

section

variable {α : Type} [Scalar α] {n : Nat} {C : Contract (merit α n)} {lower upper : Vector α n}
  {settings : Settings α}

theorem Minimize.Takes.tries {s : Iterate α n} {t : Trial α n}
    (ht : Takes C lower upper settings s t) : Tries lower upper settings s t.point := by
  obtain ⟨halvings, hlength⟩ := ht.length
  refine ⟨halvings, ?_⟩
  rw [ht.point, hlength]

/-- The line search asks for values at some halvings of the step length it begins with. -/
theorem makes_lineSearch {here : Iterate α n} {d y : Vector α n} {trials : Nat} {length : α}
    (h : (lineSearch lower upper here d trials length).Makes C (.value y)) :
    ∃ halvings : Nat, y = trialPoint lower upper here.point d ((· * 0.5)^[halvings] length) := by
  -- on the trials: each one that is refused halves the length
  induction trials generalizing length with
  | zero => exact h.elim
  | succ trials ih =>
    rw [lineSearch] at h
    rcases h with h | ⟨value, -, h⟩
    · exact ⟨0, MeritCall.value.inj h⟩
    · dsimp only [Program.bind] at h
      split at h
      · exact h.elim
      · obtain ⟨halvings, hy⟩ := ih h
        exact ⟨halvings + 1, hy⟩

/-- An iteration asks for the merit only along a direction that is taken from numbers, and only at
its trials. -/
theorem tries_of_makes {k : Nat} {s : Iterate α n} {y : Vector α n}
    (h : (iterateOnce lower upper settings k s).Makes C (.value y)) :
    (s.gradient.any fun g => !Scalar.isFinite g) = false ∧ Tries lower upper settings s y := by
  rw [iterateOnce] at h
  split at h
  · exact h.elim
  next hnumbers =>
  dsimp only at h
  split at h
  · exact h.elim
  refine ⟨eq_false_of_ne_true hnumbers, ?_⟩
  rw [← projected, ← heading] at h
  rcases Program.makes_bind.mp h with h | ⟨found, -, h⟩
  · have htrial := makes_lineSearch h
    rwa [heading_point] at htrial
  cases found with
  | none => exact h.elim
  | some t =>
    -- after a trial is accepted, only the gradient and a report are asked for
    rcases h with h | ⟨g, -, h⟩
    · cases h
    dsimp only [Program.bind] at h
    split at h
    · rcases h with h | ⟨_, -, h⟩
      · cases h
      dsimp only [Program.bind] at h
      split at h
      · exact h.elim
      · exact h.elim
    · split at h
      · exact h.elim
      · exact h.elim

variable {start : Vector α n}

theorem makes_iterate {remaining k : Nat} {norm : Option α} {s : Iterate α n}
    (hs : Reaches C lower upper start settings k norm s) {c : (merit α n).Call}
    (h : (iterate lower upper settings remaining k norm s).Makes C c) :
    ∃ k' norm' s', Reaches C lower upper start settings k' norm' s' ∧
      (iterateOnce lower upper settings k' s').Makes C c := by
  -- on the iterations that are left: the call is made in this one or in a later one
  induction remaining generalizing k norm s with
  | zero => exact h.elim
  | succ remaining ih =>
    rw [iterate] at h
    rcases Program.makes_bind.mp h with h | ⟨next, hnext, h⟩
    · exact ⟨k, norm, s, hs, h⟩
    cases next with
    | ended outcome => exact h.elim
    | goesOn norm' next => exact ih (hs.step hnext) h

/-- A minimisation asks for the merit at the start, and then only in its iterations. -/
theorem makes_minimize {y : Vector α n}
    (h : (minimize lower upper start settings).Makes C (.value y)) :
    y = clampTo lower upper start ∨ ∃ k norm s, Reaches C lower upper start settings k norm s ∧
      (iterateOnce lower upper settings k s).Makes C (.value y) := by
  rw [minimize] at h
  rcases h with h | ⟨value, hvalue, h⟩
  · exact .inl (MeritCall.value.inj h)
  dsimp only [Program.bind] at h
  split at h
  · next hfinite =>
    rcases h with h | ⟨g, hg, h⟩
    · cases h
    · exact .inr (makes_iterate (.start hvalue hfinite hg) h)
  · exact h.elim

/-- Where the trials from every state that is reached are within the cap, the minimisation keeps to
it: an iteration leads to one of its trials, or stays where it is. -/
theorem Minimize.capped_of_tries
    (hnear : ∀ {k norm s}, Reaches C lower upper start settings k norm s →
      Near settings s.point s.point ∧
        ((s.gradient.any fun g => !Scalar.isFinite g) = false →
          ∀ y, Tries lower upper settings s y → Near settings s.point y)) :
    Capped C lower upper start settings where
  asked _ h := makes_minimize h
  tried hs y h := by
    obtain ⟨hnumbers, htries⟩ := tries_of_makes h
    exact (hnear hs).2 hnumbers y htries
  accepted hs _ _ h := by
    cases iterateOnce_yields h with
    | goesOn _ ht _ hnumbers => exact (hnear hs).2 hnumbers _ ht.tries
  last hs _ h := by
    cases iterateOnce_yields h with
    | nonFinite | converged | lineSearchFailed => exact (hnear hs).1
    | smallStep _ ht _ hnumbers => exact (hnear hs).2 hnumbers _ ht.tries

end

namespace Minimize

variable {n : Nat}

/-! ## Real numbers -/

/-- Halving keeps a length between zero and its first value. -/
theorem halvings_mem_Icc {length : ℝ} (hlength : 0 ≤ length) (halvings : Nat) :
    (· * 0.5)^[halvings] length ∈ Set.Icc 0 length := by
  have hhalf : (0 : ℝ) ≤ 0.5 := by norm_num
  have hhalf' : (0.5 : ℝ) ≤ 1 := by norm_num
  rw [mul_right_iterate]
  exact ⟨mul_nonneg hlength (pow_nonneg hhalf _),
    mul_le_of_le_one_right hlength (pow_le_one₀ hhalf hhalf')⟩

/-- The entries of a step are bounded by the first step length and the norm of the direction. -/
theorem abs_entry_le {length : ℝ} (hlength : 0 ≤ length) (halvings : Nat) (d : Vector ℝ n)
    (i : Fin n) : |d.get i * (· * 0.5)^[halvings] length| ≤ length * infNorm d := by
  obtain ⟨hnonneg, hle⟩ := halvings_mem_Icc hlength halvings
  have hentry : |d.get i| ≤ infNorm d := (Exact.infNorm_le_iff.mp le_rfl).2 i
  calc |d.get i * (· * 0.5)^[halvings] length|
      = (· * 0.5)^[halvings] length * |d.get i| := by rw [abs_mul, abs_of_nonneg hnonneg, mul_comm]
    _ ≤ length * infNorm d := mul_le_mul hle hentry (abs_nonneg _) hlength

/-- The first step is within the cap. -/
theorem firstLength_mul_le {ratio : ℝ} (hratio : 0 ≤ ratio) (x d : Vector ℝ n) :
    firstLength ratio x d * infNorm d ≤ ratio * Scalar.max (infNorm x) 1 := by
  have hcap : 0 ≤ ratio * max (infNorm x) 1 :=
    mul_nonneg hratio (zero_le_one.trans (le_max_right _ _))
  unfold firstLength
  dsimp only
  split
  · next hlong =>
    have hlength : 0 < infNorm d := hcap.trans_lt hlong
    rw [div_mul_cancel₀ _ hlength.ne']
  · next hshort =>
    rw [one_mul]
    exact not_lt.mp hshort

section

variable {lower upper : Vector ℝ n} {settings : Settings ℝ}

/-- The trials from a point of the box are within the cap. -/
theorem near_of_tries (hratio : 0 ≤ settings.maxStepRatio) {s : Iterate ℝ n}
    (hbox : ∀ i : Fin n, s.point.get i ∈ Set.Icc (lower.get i) (upper.get i)) {y : Vector ℝ n}
    (hy : Tries lower upper settings s y) : Near settings s.point y := by
  obtain ⟨halvings, rfl⟩ := hy
  set d := (heading lower upper s).1
  set first := firstLength settings.maxStepRatio s.point d
  have hfirst : 0 ≤ first := firstLength_nonneg hratio _ _
  have hcap : first * infNorm d ≤ settings.maxStepRatio * Scalar.max (infNorm s.point) 1 :=
    firstLength_mul_le hratio s.point d
  refine Exact.infNorm_le_iff.mpr ⟨(mul_nonneg hfirst (Exact.infNorm_nonneg d)).trans hcap, ?_⟩
  intro i
  set length := (· * 0.5)^[halvings] first
  have hentry : (s.point + scale d length).get i = s.point.get i + d.get i * length := by
    rw [Exact.get_add, Exact.get_scale, Pi.add_apply, Pi.smul_apply, smul_eq_mul, mul_comm]
  rw [Exact.get_sub, Pi.sub_apply, trialPoint, clampTo, entry_ofFn, hentry]
  calc |Scalar.clamp (lower.get i) (upper.get i) (s.point.get i + d.get i * length) - s.point.get i|
      ≤ |s.point.get i + d.get i * length - s.point.get i| := Exact.abs_clamp_sub_le (hbox i) _
    _ = |d.get i * length| := by rw [add_sub_cancel_left]
    _ ≤ first * infNorm d := abs_entry_le hfirst halvings d i
    _ ≤ settings.maxStepRatio * Scalar.max (infNorm s.point) 1 := hcap

theorem near_self (hratio : 0 ≤ settings.maxStepRatio) (x : Vector ℝ n) : Near settings x x := by
  have hzero : infNorm (x - x) = 0 := by
    rw [Exact.infNorm_eq_zero_iff, ← Exact.get_inj, Exact.get_sub, sub_self, Exact.get_zero]
  rw [Near, hzero]
  exact mul_nonneg hratio (zero_le_one.trans (le_max_right _ _))

end

/-! ## Real numbers and infinities -/

section

open Extended

variable {lower upper : Vector Extended n} {settings : Settings Extended}

theorem iterate_halving_real (length : ℝ) (halvings : Nat) :
    (· * 0.5)^[halvings] (real length) = real ((· * 0.5)^[halvings] length) := by
  induction halvings generalizing length with
  | zero => rfl
  | succ halvings ih => exact ih (length * 0.5)

/-- The states that are reached are sane, whatever the merit answers. -/
theorem Reaches.sane {C : Contract (merit Extended n)} {start : Vector Extended n}
    (hbounds : ∀ i : Fin n, lower.get i ≤ upper.get i) (hstart : ∀ i : Fin n, start.get i ≠ nan)
    (hpos : 0 < settings.maxStepRatio) (hfinite : Scalar.isFinite settings.maxStepRatio)
    {k : Nat} {norm : Option Extended} {s : Iterate Extended n}
    (hs : Reaches C lower upper start settings k norm s) : Sane lower upper s := by
  induction hs with
  | start => exact ⟨between_clampTo hbounds hstart, fun _ _ => ⟨_, identity_reals⟩⟩
  | step _ hnext ih =>
    exact (iterateOnce_between hbounds hpos hfinite ih).of_yields
      (hnext.mono fun _ _ _ => trivial)

/-- The cap is a number, and not negative. -/
theorem cap_nonneg {ratio : Extended} (hpos : 0 < ratio) (hfinite : Scalar.isFinite ratio)
    (x : Vector Extended n) : 0 ≤ ratio * Scalar.max (infNorm x) 1 := by
  obtain ⟨length, -, hlength, hcap⟩ := firstLength_reals_capped hpos hfinite x (0 : Vector ℝ n)
  exact Extended.le_trans (mul_nonneg hlength (Exact.infNorm_nonneg _)) hcap

/-- A point is near the iterate if its entries are the same or at most so far away. -/
theorem near_of_entries {x y : Vector Extended n}
    (hcap : 0 ≤ settings.maxStepRatio * Scalar.max (infNorm x) 1)
    (h : ∀ i : Fin n, y.get i = x.get i ∨ ∃ a b, x.get i = real a ∧ y.get i = real b ∧
      real |b - a| ≤ settings.maxStepRatio * Scalar.max (infNorm x) 1) : Near settings x y := by
  refine infNorm_le hcap fun i => ?_
  have hentry : (y - x).get i = y.get i - x.get i := entry_zipWith _ _ _ i
  rw [hentry]
  rcases h i with heq | ⟨a, b, ha, hb, hle⟩
  · rw [heq]
    cases x.get i with
    | real a =>
      rw [real_sub, sub_self, abs_real, abs_zero]
      exact .inr hcap
    | infinite up => exact .inl (infinite_sub_self up)
    | nan => exact .inl rfl
  · rw [ha, hb, real_sub, abs_real]
    exact .inr hle

/-- The trials from a sane state are within the cap. -/
theorem near_of_tries_of_sane (hpos : 0 < settings.maxStepRatio)
    (hfinite : Scalar.isFinite settings.maxStepRatio) {s : Iterate Extended n}
    (hs : Sane lower upper s) (hnumbers : (s.gradient.any fun g => !Scalar.isFinite g) = false)
    {y : Vector Extended n} (hy : Tries lower upper settings s y) : Near settings s.point y := by
  -- a gradient of numbers has a direction of numbers, even where the iterate is infinite
  obtain ⟨g, hg⟩ := exists_eq_reals_of_isFinite (ne_true_of_eq_false hnumbers)
  obtain ⟨h, hh⟩ := hs.inverse g hg
  obtain ⟨d, -, hd, -⟩ := heading_reals lower upper hg hh
  obtain ⟨first, hlength, hfirst, hcap⟩ := firstLength_reals_capped hpos hfinite s.point d
  obtain ⟨halvings, rfl⟩ := hy
  rw [hd, hlength, iterate_halving_real]
  refine near_of_entries (cap_nonneg hpos hfinite _) fun i => ?_
  obtain ⟨hlower, hupper⟩ := hs.point i
  rw [trialPoint, clampTo, entry_ofFn, get_add_scale]
  set move := d.get i * (· * 0.5)^[halvings] first
  cases hx : s.point.get i with
  | real a =>
    rw [hx] at hlower hupper
    obtain ⟨b, hb, hnear⟩ := clamp_real_near hlower hupper (a + move)
    refine .inr ⟨a, b, rfl, hb, Extended.le_trans ?_ hcap⟩
    calc |b - a| ≤ |a + move - a| := hnear
      _ = |move| := by rw [add_sub_cancel_left]
      _ ≤ first * infNorm d := abs_entry_le hfirst halvings d i
  | infinite up =>
    rw [hx] at hlower hupper
    exact .inl (clamp_eq_self hlower hupper)
  | nan =>
    rw [hx] at hlower
    exact absurd hlower (not_le_nan _)

end

/-! ## Minimisations -/

/-- In exact arithmetic every point at which a minimisation asks for its merit from an iterate, and
so every next iterate, is within the step cap of the iterate in the maximum norm.  So it is over the
real numbers, and where bounds can be missing and merits can answer with no number. -/
theorem steps_capped (n : Nat) :
    (∀ (C : Contract (merit ℝ n)) (lower upper start : Vector ℝ n) (settings : Settings ℝ),
      (∀ i : Fin n, lower.get i ≤ upper.get i) → 0 ≤ settings.maxStepRatio →
      Capped C lower upper start settings) ∧
    ∀ (C : Contract (merit Extended n)) (lower upper start : Vector Extended n)
      (settings : Settings Extended), (∀ i : Fin n, lower.get i ≤ upper.get i) →
      (∀ i : Fin n, start.get i ≠ .nan) → 0 < settings.maxStepRatio →
      Scalar.isFinite settings.maxStepRatio → Capped C lower upper start settings := by
  constructor
  · intro C lower upper start settings hbounds hratio
    refine capped_of_tries fun hs => ⟨near_self hratio _, fun _ y hy => ?_⟩
    -- the iterate is in the box, so that clamping a trial brings it no farther
    obtain ⟨z, hz⟩ := hs.standing.inBox
    refine near_of_tries hratio (fun i => ?_) hy
    rw [hz]
    exact Exact.clampTo_mem_Icc hbounds z i
  · intro C lower upper start settings hbounds hstart hpos hfinite
    refine capped_of_tries fun hs => ⟨?_, fun hnumbers y hy => ?_⟩
    · exact near_of_entries (cap_nonneg hpos hfinite _) fun i => .inl rfl
    · exact near_of_tries_of_sane hpos hfinite (hs.sane hbounds hstart hpos hfinite) hnumbers hy

/-- In the valley, where the second iterate is reached, and on a half line. -/
theorem steps_capped_valley :
    ((∀ i : Fin 2, #v[(0 : ℝ), 0].get i ≤ #v[21 / 20, 2].get i) ∧
      Reaches valley #v[0, 0] #v[21 / 20, 2] #v[0, 0] ⟨2, 1 / 1000000, 2, false⟩ 1 (some 1)
        valleyNext ∧
      Capped valley #v[0, 0] #v[21 / 20, 2] #v[0, 0] ⟨2, 1 / 1000000, 2, false⟩) ∧
    Capped (.anything _) #v[Extended.real 0] #v[Extended.infinite true] #v[Extended.real 1]
      ⟨2, .real 1, .real 2, false⟩ := by
  have hratio : (0 : ℝ) ≤ 2 := zero_le_two
  have hpos : Extended.real 0 < Extended.real 2 := Extended.real_lt.mpr zero_lt_two
  refine ⟨⟨ProjectedBfgs.valley_box, valley_wellPosed.1, ?_⟩, ?_⟩
  · exact (steps_capped 2).1 valley _ _ _ ⟨2, 1 / 1000000, 2, false⟩ ProjectedBfgs.valley_box hratio
  · refine (steps_capped 1).2 (.anything _) _ _ _ ⟨2, .real 1, .real 2, false⟩ ?_ ?_ hpos rfl
    · intro i
      obtain rfl : i = 0 := Subsingleton.elim i 0
      exact rfl
    · intro i
      rw [Exact.single_get]
      exact nofun

end Minimize

end Nlp
