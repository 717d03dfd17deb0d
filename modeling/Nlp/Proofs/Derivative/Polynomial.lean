import Nlp.Derivative.Kernel
import Nlp.Formula.Model
import Nlp.Proofs.Exact
import Nlp.Proofs.Run
import Mathlib

/-!
# Columns of polynomials

A formula of variables, numbers, sums, differences, products and negations is a polynomial.  Where
one variable is perturbed by a real step, or by an imaginary one, its value is that at the point,
and the step times its slope there, and a remainder of second order, which is a polynomial in the
point and the step, too.  The remainders are computed along the formula.  An imaginary step has no
second-order term in the imaginary part, so that its remainder is of third order there.

So in exact arithmetic a forward difference has an error of first order, and a complex step one of
second order.

## Main definitions

* `Formula.IsPolynomial`: these formulas; `FormulaModel.IsPolynomial`, the models of them.
* `Expansion`: a value with its slope and its remainders, as polynomials in the point and the step.
* `Expansion.Describes`: what an expansion says of a formula.
* `Formula.expansion`: the expansion of a formula.

## Main results

* `Formula.describes_expansion`: polynomials are as their expansions say.
* `FormulaModel.columns_of_polynomials`: the columns of both kernels.
-/

namespace Nlp

open MvPolynomial (C X)

/-- A polynomial in the variables of a point, and in a step, which is the variable `none`. -/
abbrev StepPolynomial : Type :=
  MvPolynomial (Option ℕ) ℝ

noncomputable section

/-- The value of a polynomial at a point with a step. -/
def valueAt (x : List ℝ) (h : ℝ) : StepPolynomial →+* ℝ :=
  MvPolynomial.eval fun o => o.elim h fun i => x.getD i 0

/-- The expansion of a value in a step in one of its variables. -/
structure Expansion where
  /-- The value without the step. -/
  value : StepPolynomial
  /-- Its slope in the variable. -/
  slope : StepPolynomial
  /-- The remainder after a real step, of second order. -/
  forward : StepPolynomial
  /-- The remainder of the real part after an imaginary step, of second order. -/
  real : StepPolynomial
  /-- The remainder of the imaginary part after an imaginary step, of third order. -/
  imaginary : StepPolynomial

namespace Expansion

/-- The step. -/
def step : StepPolynomial :=
  X none

/-- A number. -/
def const (a : ℝ) : Expansion :=
  ⟨C a, 0, 0, 0, 0⟩

/-- The variable in place `i`, where the step is in place `j`. -/
def var (j i : ℕ) : Expansion :=
  ⟨X (some i), if i = j then 1 else 0, 0, 0, 0⟩

/-- A sum. -/
def add (a b : Expansion) : Expansion :=
  ⟨a.value + b.value, a.slope + b.slope, a.forward + b.forward, a.real + b.real,
    a.imaginary + b.imaginary⟩

/-- A negated value. -/
def neg (a : Expansion) : Expansion :=
  ⟨-a.value, -a.slope, -a.forward, -a.real, -a.imaginary⟩

/-- A product. -/
def mul (a b : Expansion) : Expansion where
  value := a.value * b.value
  slope := a.slope * b.value + a.value * b.slope
  forward := a.value * b.forward + a.slope * b.slope + a.forward * b.value +
    step * (a.slope * b.forward + a.forward * b.slope) + step ^ 2 * (a.forward * b.forward)
  -- the imaginary parts are odd in the step; their product is what a real part loses
  real := a.value * b.real + a.real * b.value + step ^ 2 * (a.real * b.real) -
    (a.slope + step ^ 2 * a.imaginary) * (b.slope + step ^ 2 * b.imaginary)
  imaginary := a.value * b.imaginary + a.real * b.slope + a.imaginary * b.value + a.slope * b.real +
    step ^ 2 * (a.real * b.imaginary + a.imaginary * b.real)

end Expansion

namespace Formula

/-- The formula has variables, numbers, sums, differences, products and negations only. -/
def IsPolynomial {α : Type} : Formula α → Prop
  | const _ | var _ => True
  | add a b | sub a b | mul a b => a.IsPolynomial ∧ b.IsPolynomial
  | neg a | square a => a.IsPolynomial
  | div _ _ | sqrt _ | abs _ | cond _ _ _ => False

/-- The expansion of a polynomial in a step in place `j`. -/
def expansion (j : ℕ) : Formula ℝ → Expansion
  | const a => .const a
  | var i => .var j i
  | add a b => (a.expansion j).add (b.expansion j)
  | sub a b => (a.expansion j).add (b.expansion j).neg
  | mul a b => (a.expansion j).mul (b.expansion j)
  | neg a => (a.expansion j).neg
  | square a => (a.expansion j).mul (a.expansion j)
  | div _ _ | sqrt _ | abs _ | cond _ _ _ => .const 0

end Formula

/-! ## What an expansion says -/

/-- The point with an imaginary step in place `j`. -/
def imaginaryStep (x : List ℝ) (j : ℕ) (hj : j < x.length) (h : ℝ) : List (Complex ℝ) :=
  (x.map Complex.ofReal).set j ⟨x[j], h⟩

/-- The value, the slope and the remainders are those of a step in place `j`. -/
structure Expansion.Describes (e : Expansion) (j : ℕ) (f : Formula ℝ) : Prop where
  value : ∀ x h, valueAt x h e.value = f.value x
  slope : ∀ x (hj : j < x.length) h,
    HasDerivAt (fun t => f.value (x.set j t)) (valueAt x h e.slope) x[j]
  forward : ∀ x (hj : j < x.length) h,
    f.value (x.set j (x[j] + h)) =
      f.value x + h * valueAt x h e.slope + h ^ 2 * valueAt x h e.forward
  complex : ∀ x (hj : j < x.length) h, f.complexValue? (imaginaryStep x j hj h) =
    some ⟨f.value x + h ^ 2 * valueAt x h e.real,
      h * valueAt x h e.slope + h ^ 3 * valueAt x h e.imaginary⟩

@[simp] theorem valueAt_step (x : List ℝ) (h : ℝ) : valueAt x h Expansion.step = h := by
  simp [valueAt, Expansion.step]

@[simp] theorem valueAt_C (x : List ℝ) (h a : ℝ) : valueAt x h (C a) = a := by
  simp [valueAt]

@[simp] theorem valueAt_X (x : List ℝ) (h : ℝ) (i : ℕ) : valueAt x h (X (some i)) = x.getD i 0 := by
  simp [valueAt]

/-- The entries of a point with another number in one place. -/
theorem getD_set {β : Type} (x : List β) {j : ℕ} (hj : j < x.length) (b d : β) (i : ℕ) :
    (x.set j b).getD i d = if i = j then b else x.getD i d := by
  simp only [List.getD_eq_getElem?_getD, List.getElem?_set, if_pos hj, eq_comm (a := j)]
  split
  · rfl
  · rfl

theorem Complex.mk_add_mk (a b c d : ℝ) : (⟨a, b⟩ + ⟨c, d⟩ : Complex ℝ) = ⟨a + c, b + d⟩ := rfl

theorem Complex.neg_mk (a b : ℝ) : (-⟨a, b⟩ : Complex ℝ) = ⟨-a, -b⟩ := rfl

theorem Complex.mk_mul_mk (a b c d : ℝ) :
    (⟨a, b⟩ * ⟨c, d⟩ : Complex ℝ) = ⟨a * c - b * d, a * d + b * c⟩ := rfl

namespace Expansion

variable {a b : Expansion} {j : ℕ} {f g : Formula ℝ}

theorem describes_const (a : ℝ) : (const a).Describes j (.const a) where
  value x h := valueAt_C x h a
  slope x hj h := by
    rw [const, map_zero]
    exact hasDerivAt_const _ _
  forward x hj h := by simp [const, Formula.value]
  complex x hj h := by simp [const, Formula.value, Formula.complexValue?, Complex.ofReal]

theorem describes_var (j i : ℕ) : (var j i).Describes j (.var i) where
  value x h := valueAt_X x h i
  slope x hj h := by
    simp only [Formula.value, getD_set x hj, var]
    split
    · rw [map_one]
      exact hasDerivAt_id _
    · rw [map_zero]
      exact hasDerivAt_const _ _
  forward x hj h := by
    simp only [Formula.value, getD_set x hj, var, map_zero]
    split
    · next hi => simp [hi, hj]
    · simp
  complex x hj h := by
    have hreal : (x.map Complex.ofReal).getD i (.ofReal 0) = Complex.ofReal (x.getD i 0) :=
      List.getD_map x 0 Complex.ofReal
    rw [Formula.complexValue?, imaginaryStep, getD_set _ (by rwa [List.length_map]), hreal]
    simp only [Formula.value, var, map_zero]
    split
    · next hi => simp [hi, hj]
    · simp [Complex.ofReal]

theorem Describes.add (ha : a.Describes j f) (hb : b.Describes j g) :
    (a.add b).Describes j (.add f g) where
  value x h := by rw [Expansion.add, map_add, ha.value, hb.value, Formula.value]
  slope x hj h := by
    rw [Expansion.add, map_add]
    exact (ha.slope x hj h).add (hb.slope x hj h)
  forward x hj h := by
    simp only [Formula.value, ha.forward, hb.forward, Expansion.add, map_add]
    ring
  complex x hj h := by
    rw [Formula.complexValue?, ha.complex, hb.complex]
    refine congrArg some ?_
    rw [Complex.mk_add_mk, Complex.mk.injEq]
    simp only [Formula.value, Expansion.add, map_add]
    constructor <;> ring

theorem Describes.neg (ha : a.Describes j f) : a.neg.Describes j (.neg f) where
  value x h := by rw [Expansion.neg, map_neg, ha.value, Formula.value]
  slope x hj h := by
    rw [Expansion.neg, map_neg]
    exact (ha.slope x hj h).neg
  forward x hj h := by
    simp only [Formula.value, ha.forward, Expansion.neg, map_neg]
    ring
  complex x hj h := by
    rw [Formula.complexValue?, ha.complex]
    refine congrArg some ?_
    rw [Complex.neg_mk, Complex.mk.injEq]
    simp only [Formula.value, Expansion.neg, map_neg]
    constructor <;> ring

/-- An expansion is one of every formula that has the same values. -/
theorem Describes.congr (ha : a.Describes j f) (hvalue : ∀ x, g.value x = f.value x)
    (hcomplex : ∀ z, g.complexValue? z = f.complexValue? z) : a.Describes j g where
  value x h := (ha.value x h).trans (hvalue x).symm
  slope x hj h := by
    simp only [hvalue]
    exact ha.slope x hj h
  forward x hj h := by
    rw [hvalue, hvalue, ha.forward]
  complex x hj h := by
    rw [hcomplex, hvalue, ha.complex]

theorem Describes.mul (ha : a.Describes j f) (hb : b.Describes j g) :
    (a.mul b).Describes j (.mul f g) where
  value x h := by rw [Expansion.mul, map_mul, ha.value, hb.value, Formula.value]
  slope x hj h := by
    -- the factors are taken at the point itself, where their values are those of the expansions
    have hmul := (ha.slope x hj h).mul (hb.slope x hj h)
    rw [List.set_getElem_self, ← ha.value x h, ← hb.value x h] at hmul
    rwa [Expansion.mul, map_add, map_mul, map_mul]
  forward x hj h := by
    simp only [Formula.value, ha.forward, hb.forward, Expansion.mul, map_add, map_mul, map_pow,
      ha.value, hb.value, valueAt_step]
    ring
  complex x hj h := by
    rw [Formula.complexValue?, ha.complex, hb.complex]
    refine congrArg some ?_
    rw [Complex.mk_mul_mk, Complex.mk.injEq]
    simp only [Formula.value, Expansion.mul, map_add, map_sub, map_mul, map_pow, ha.value, hb.value,
      valueAt_step]
    constructor <;> ring

end Expansion

/-! ## Formulas -/

namespace Formula

theorem value_sub (a b : Formula ℝ) (x : List ℝ) :
    (sub a b).value x = (add a (neg b)).value x :=
  sub_eq_add_neg _ _

theorem complexValue?_sub (a b : Formula ℝ) (z : List (Complex ℝ)) :
    (sub a b).complexValue? z = (add a (neg b)).complexValue? z := by
  simp only [complexValue?]
  cases a.complexValue? z with
  | none => rfl
  | some v =>
    cases b.complexValue? z with
    | none => rfl
    | some w =>
      refine congrArg some (Complex.mk.injEq .. ▸ ?_)
      exact ⟨sub_eq_add_neg _ _, sub_eq_add_neg _ _⟩

theorem complexValue?_square (a : Formula ℝ) (z : List (Complex ℝ)) :
    (square a).complexValue? z = (mul a a).complexValue? z := by
  simp only [complexValue?]
  cases a.complexValue? z with
  | none => rfl
  | some v => rfl

/-- A polynomial is as its expansion says: by induction on the formula, in which a difference counts
as a sum with a negated value, and a square as a product. -/
theorem describes_expansion {f : Formula ℝ} (hf : f.IsPolynomial) (j : ℕ) :
    (f.expansion j).Describes j f := by
  -- on the formula: differences and squares are expanded as sums and products
  induction f with
  | const a => exact Expansion.describes_const a
  | var i => exact Expansion.describes_var j i
  | add a b iha ihb => exact (iha hf.1).add (ihb hf.2)
  | sub a b iha ihb =>
    exact ((iha hf.1).add (ihb hf.2).neg).congr (value_sub a b) (complexValue?_sub a b)
  | mul a b iha ihb => exact (iha hf.1).mul (ihb hf.2)
  | neg a ih => exact (ih hf).neg
  | square a ih => exact ((ih hf).mul (ih hf)).congr (fun _ => rfl) (complexValue?_square a)
  | div | sqrt | abs | cond => exact hf.elim

end Formula

end

/-! ## Columns -/

namespace FormulaModel

/-- The values of a model: the objective, and then the constraint rows. -/
def rows {α : Type} (M : FormulaModel α) : List (Formula α) :=
  M.objective :: M.constraints

/-- The model has polynomials for values, at real and at complex points, and it never fails. -/
structure IsPolynomial (M : FormulaModel ℝ) : Prop where
  holomorphic : M.isHolomorphic = true
  rows : ∀ f ∈ M.rows, f.IsPolynomial
  failures : M.failures = []
  ends : M.ends = .const 0

/-- A rank with this model makes `b` of the program. -/
def Gives {β : Type} (M : FormulaModel ℝ) (q : Local ℝ β) (b : β) : Prop :=
  q.run.run (fun c (_ : Unit) => (M.answer c, ())) () = .finished (.ok b) ()

variable {M : FormulaModel ℝ} {p : Problem ℝ}

theorem gives_bind {β γ : Type} {q : Local ℝ β} {f : β → Local ℝ γ} {b : β} {c : γ}
    (hq : M.Gives q b) (hf : M.Gives (f b) c) : M.Gives (q >>= f) c := by
  rw [Gives, Program.run_except_bind, hq]
  exact hf

theorem gives_pure {β : Type} (b : β) : M.Gives (pure b) b := rfl

/-- The problem has one objective, and as many constraints as the model. -/
structure Suits (M : FormulaModel ℝ) (p : Problem ℝ) : Prop where
  objectives : p.objectives.length = 1
  constraints : p.constraints.length = M.constraints.length

theorem Suits.checkEvaluation_eq {β : Type} (hp : M.Suits p) (v : Formula ℝ → β) :
    p.checkEvaluation ⟨v M.objective, M.constraints.map v, 0⟩ = .ok () := by
  simp [Problem.checkEvaluation, hp.objectives, hp.constraints]

theorem gives_ask {c : ModelCall ℝ} {r : (modelAccess ℝ).Reply c} (h : M.answer c = some r) :
    M.Gives (Local.ask c) r := by
  have hask : (Local.ask c).run =
      Program.call (I := modelAccess ℝ) c fun reply => .done (.ok reply) := rfl
  rw [Gives, hask, Program.run, h]
  rfl

theorem gives_evaluate (hM : M.IsPolynomial) (hp : M.Suits p) {x : List ℝ}
    (hx : x.length = p.vars.length) :
    M.Gives (p.evaluate x) ⟨M.objective.value x, M.constraints.map (Formula.value x), 0⟩ := by
  have hpoint : p.checkPoint x.length = .ok () := if_pos hx
  have hends : ¬ (0 : ℝ) < M.ends.value x := by
    rw [hM.ends, Formula.value]
    exact lt_irrefl 0
  have hanswer : M.answer (.evaluate x) =
      some ⟨M.objective.value x, M.constraints.map (Formula.value x), 0⟩ := by
    rw [answer, evaluate, if_neg hends, hM.failures]
    rfl
  rw [Problem.evaluate, hpoint]
  refine gives_bind rfl ?_
  refine gives_bind rfl ?_
  refine gives_bind (gives_ask hanswer) ?_
  rw [hp.checkEvaluation_eq]
  exact gives_bind rfl (gives_pure _)

theorem mapM_eq_some {β γ : Type} {f : β → Option γ} {g : β → γ} {l : List β}
    (h : ∀ b ∈ l, f b = some (g b)) : l.mapM f = some (l.map g) := by
  induction l with
  | nil => rfl
  | cons b l ih =>
    obtain ⟨hb, hl⟩ := List.forall_mem_cons.mp h
    rw [List.mapM_cons, hb, ih hl]
    rfl

theorem gives_evaluateComplex (hM : M.IsPolynomial) (hp : M.Suits p) {z : List (Complex ℝ)}
    (hz : z.length = p.vars.length) {v : Formula ℝ → Complex ℝ}
    (hv : ∀ f ∈ M.rows, f.complexValue? z = some (v f)) :
    M.Gives (p.evaluateComplex z) (some ⟨v M.objective, M.constraints.map v, 0⟩) := by
  have hpoint : p.checkPoint z.length = .ok () := if_pos hz
  have hends : ¬ (0 : ℝ) < realPart z M.ends := by
    rw [hM.ends]
    exact lt_irrefl 0
  obtain ⟨hobjective, hconstraints⟩ := List.forall_mem_cons.mp hv
  have hanswer : M.answer (.evaluateComplex z) =
      some (some ⟨v M.objective, M.constraints.map v, 0⟩) := by
    rw [answer, evaluateComplex, if_neg (not_not.mpr hM.holomorphic), if_neg hends, hM.failures,
      hobjective, mapM_eq_some hconstraints]
    rfl
  rw [Problem.evaluateComplex, hpoint]
  refine gives_bind rfl ?_
  refine gives_bind rfl ?_
  refine gives_bind (gives_ask hanswer) ?_
  dsimp only
  rw [hp.checkEvaluation_eq]
  exact gives_bind rfl (gives_pure _)

theorem differences_rows (h : ℝ) (v v₀ : Formula ℝ → ℝ) :
    Kernel.differences h (.ofEvaluation ⟨v₀ M.objective, M.constraints.map v₀, 0⟩)
        ⟨v M.objective, M.constraints.map v, 0⟩ =
      M.rows.map fun f => (v f - v₀ f) / h := by
  rw [Kernel.differences, Baseline.ofEvaluation, List.zipWith_map, List.zipWith_self, rows,
    List.map_cons]

theorem imaginaryParts_rows (h : ℝ) (v : Formula ℝ → Complex ℝ) :
    Kernel.imaginaryParts h ⟨v M.objective, M.constraints.map v, 0⟩ =
      M.rows.map fun f => (v f).im / h := by
  rw [Kernel.imaginaryParts, List.map_map, rows, List.map_cons]
  rfl

/-- The columns of a model of polynomials, in exact arithmetic: every entry of a forward difference
is the partial derivative of its row, and the step times a polynomial in the point and the step;
every entry of a complex step is the partial derivative, and the square of the step times such a
polynomial.  The polynomials depend on the row and on the variable only. -/
theorem columns_of_polynomials (j : ℕ) :
    ∃ R S : Formula ℝ → StepPolynomial, ∀ (M : FormulaModel ℝ) (p : Problem ℝ),
      M.IsPolynomial → M.Suits p → ∀ (x : List ℝ) (hj : j < x.length) (h : ℝ),
      x.length = p.vars.length → h ≠ 0 →
      ∃ (e : Evaluation ℝ) (slope : Formula ℝ → ℝ),
        (∀ f ∈ M.rows, HasDerivAt (fun t => f.value (x.set j t)) (slope f) x[j]) ∧
        M.Gives (p.evaluate x) e ∧
        M.Gives ((Kernel.forward h (.ofEvaluation e)).column p x j)
          (M.rows.map fun f => slope f + h * valueAt x h (R f)) ∧
        M.Gives ((Kernel.complex h).column p x j)
          (M.rows.map fun f => slope f + h ^ 2 * valueAt x h (S f)) := by
  refine ⟨fun f => (f.expansion j).forward, fun f => (f.expansion j).imaginary, ?_⟩
  intro M p hM hp x hj h hx hh
  have hdescribes (f : Formula ℝ) (hf : f ∈ M.rows) : (f.expansion j).Describes j f :=
    Formula.describes_expansion (hM.rows f hf) j
  refine ⟨_, fun f => valueAt x h (f.expansion j).slope,
    fun f hf => (hdescribes f hf).slope x hj h, gives_evaluate hM hp hx, ?forward, ?complex⟩
  case forward =>
    rw [Kernel.column, List.getElem?_eq_getElem hj]
    refine gives_bind (gives_evaluate hM hp ((List.length_set ..).trans hx)) ?_
    rw [differences_rows]
    refine congrArg (fun column => Program.Ending.finished (Except.ok column) ()) ?_
    refine List.map_congr_left fun f hf => ?_
    -- the value at the point cancels, and a factor of the step does
    rw [(hdescribes f hf).forward x hj h]
    field_simp
    ring
  case complex =>
    rw [Kernel.column, List.getElem?_eq_getElem hj]
    have hlength : (imaginaryStep x j hj h).length = p.vars.length := by
      rw [imaginaryStep, List.length_set, List.length_map, hx]
    -- the real parts, and with them their remainders, do not enter a column
    obtain ⟨v, hv⟩ : ∃ v : Formula ℝ → Complex ℝ,
        ∀ f ∈ M.rows, f.complexValue? (imaginaryStep x j hj h) = some (v f) ∧
          (v f).im = h * valueAt x h (f.expansion j).slope +
            h ^ 3 * valueAt x h (f.expansion j).imaginary :=
      ⟨_, fun f hf => ⟨(hdescribes f hf).complex x hj h, rfl⟩⟩
    refine gives_bind (gives_evaluateComplex hM hp hlength fun f hf => (hv f hf).1) ?_
    dsimp only
    rw [imaginaryParts_rows]
    refine congrArg (fun column => Program.Ending.finished (Except.ok column) ()) ?_
    refine List.map_congr_left fun f hf => ?_
    rw [(hv f hf).2]
    field_simp

/-- `u³ - v` below `u v = 1`. -/
noncomputable def cubic : FormulaModel ℝ where
  isHolomorphic := true
  objective := .sub (.mul (.square (.var 0)) (.var 0)) (.var 1)
  constraints := [.add (.mul (.var 0) (.var 1)) (.neg (.const 1))]
  failures := []
  ends := .const 0
  gradient := none

/-- The problem of this model. -/
noncomputable def cubicProblem : Problem ℝ :=
  ⟨"cubic", [⟨"u", .continuous, 0, 1, 1⟩, ⟨"v", .continuous, 0, 1, 0⟩], ["f"],
    [⟨"uv", .inequality, 0⟩]⟩

theorem cubic_isPolynomial : cubic.IsPolynomial where
  holomorphic := rfl
  rows := by simp [rows, cubic, Formula.IsPolynomial]
  failures := rfl
  ends := rfl

/-- The columns of `u³ - v` and `u v - 1` by `u`, at `(1, 0)` with the step `1`. -/
theorem columns_of_cubic :
    cubic.IsPolynomial ∧ cubic.Suits cubicProblem ∧
      ∃ R S : Formula ℝ → StepPolynomial, ∃ (e : Evaluation ℝ) (slope : Formula ℝ → ℝ),
        (∀ f ∈ cubic.rows, HasDerivAt (fun t => f.value ([1, 0].set 0 t)) (slope f) 1) ∧
        cubic.Gives (cubicProblem.evaluate [1, 0]) e ∧
        cubic.Gives ((Kernel.forward 1 (.ofEvaluation e)).column cubicProblem [1, 0] 0)
          (cubic.rows.map fun f => slope f + 1 * valueAt [1, 0] 1 (R f)) ∧
        cubic.Gives ((Kernel.complex 1).column cubicProblem [1, 0] 0)
          (cubic.rows.map fun f => slope f + 1 ^ 2 * valueAt [1, 0] 1 (S f)) := by
  have hsuits : cubic.Suits cubicProblem := ⟨rfl, rfl⟩
  obtain ⟨R, S, hcolumns⟩ := columns_of_polynomials 0
  exact ⟨cubic_isPolynomial, hsuits, R, S,
    hcolumns cubic cubicProblem cubic_isPolynomial hsuits [1, 0] Nat.zero_lt_two 1 rfl one_ne_zero⟩

end FormulaModel

end Nlp
