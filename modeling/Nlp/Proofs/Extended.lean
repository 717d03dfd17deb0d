import Nlp.Proofs.Linear

/-!
# Exact arithmetic with infinities

The real numbers together with two infinities and a not-a-number, as scalars that do not round.
Real numbers are added, multiplied and compared exactly.  An operation on an infinity has the limit
as its result where there is one; `∞ - ∞`, `0 · ∞` and `∞ / ∞` are no number.  What is no number is
comparable with nothing.

So a bound can be absent, and a callback can answer with no number, without any rounding.  On
vectors of real numbers everything is as it is over the real numbers.

## Main definitions

* `Extended`: these numbers; `Extended.reals`, the vectors of real numbers among theirs.

## Main results

* `Extended.not_lt_of_le`, `Extended.le_of_not_lt`: the order is total, but for what is no number.
* `Extended.dot_reals`, `Extended.mulVec_reals`: products of real vectors are those over the reals.
* `Extended.dot_of_nan`: what is no number spoils an inner product.
-/

namespace Nlp

/-- A real number, an infinity, or no number. -/
inductive Extended where
  /-- A real number. -/
  | real (x : ℝ)
  /-- An infinity, above all real numbers or below them. -/
  | infinite (up : Bool)
  /-- No number. -/
  | nan

namespace Extended

/-! ## Operations -/

noncomputable section

open Classical

/-- A real number times an infinity. -/
def scaled (x : ℝ) (up : Bool) : Extended :=
  if x = 0 then nan else infinite (up == decide (0 < x))

/-- The sum. -/
def add : Extended → Extended → Extended
  | real x, real y => real (x + y)
  | real _, infinite up | infinite up, real _ => infinite up
  | infinite a, infinite b => if a = b then infinite a else nan
  | nan, _ | _, nan => nan

/-- The negative. -/
def neg : Extended → Extended
  | real x => real (-x)
  | infinite up => infinite !up
  | nan => nan

/-- The product. -/
def mul : Extended → Extended → Extended
  | real x, real y => real (x * y)
  | real x, infinite up | infinite up, real x => scaled x up
  | infinite a, infinite b => infinite (a == b)
  | nan, _ | _, nan => nan

/-- The quotient.  Zero has no sign, and counts as the limit of positive numbers. -/
def div : Extended → Extended → Extended
  | real x, real y => if y = 0 then scaled x true else real (x / y)
  | real _, infinite _ => real 0
  | infinite up, real y => infinite (up == decide (0 ≤ y))
  | infinite _, infinite _ => nan
  | nan, _ | _, nan => nan

/-- At most, among numbers. -/
def le : Extended → Extended → Prop
  | real x, real y => x ≤ y
  | real _, infinite up => up = true
  | infinite up, real _ => up = false
  | infinite a, infinite b => a ≤ b
  | nan, _ | _, nan => False

/-- Less than, among numbers. -/
def lt : Extended → Extended → Prop
  | real x, real y => x < y
  | real _, infinite up => up = true
  | infinite up, real _ => up = false
  | infinite a, infinite b => a < b
  | nan, _ | _, nan => False

/-- The absolute value. -/
def abs : Extended → Extended
  | real x => real |x|
  | infinite _ => infinite true
  | nan => nan

/-- The square root, which a negative number has none of. -/
def sqrt : Extended → Extended
  | real x => if x < 0 then nan else real (Real.sqrt x)
  | infinite up => if up then infinite true else nan
  | nan => nan

/-- The larger number; what is no number is passed over. -/
def max : Extended → Extended → Extended
  | nan, b => b
  | a, nan => a
  | a, b => if le a b then b else a

/-- The smaller number; what is no number is passed over. -/
def min : Extended → Extended → Extended
  | nan, b => b
  | a, nan => a
  | a, b => if le a b then a else b

/-- Real numbers are finite. -/
def isFinite : Extended → Bool
  | real _ => true
  | infinite _ | nan => false

instance : Scalar Extended where
  zero := real 0
  one := real 1
  add := add
  sub a b := add a (neg b)
  neg := neg
  mul := mul
  div := div
  ofScientific m negative e := real (OfScientific.ofScientific m negative e)
  le := le
  lt := lt
  beq a b := decide (le a b ∧ le b a)
  abs := abs
  sqrt := sqrt
  max := max
  min := min
  isFinite := isFinite
  decideLe a b := Classical.dec (le a b)
  decideLt a b := Classical.dec (lt a b)

end

/-! ## Real numbers -/

@[simp] theorem zero_eq : (0 : Extended) = real 0 := rfl

@[simp] theorem one_eq : (1 : Extended) = real 1 := rfl

@[simp] theorem real_add (x y : ℝ) : real x + real y = real (x + y) := rfl

@[simp] theorem real_sub (x y : ℝ) : real x - real y = real (x - y) :=
  congrArg real (sub_eq_add_neg x y).symm

@[simp] theorem real_neg (x : ℝ) : -real x = real (-x) := rfl

@[simp] theorem real_mul (x y : ℝ) : real x * real y = real (x * y) := rfl

/-- A positive number does not change an infinity. -/
theorem real_mul_infinite {x : ℝ} (hx : 0 < x) (up : Bool) :
    real x * infinite up = infinite up := by
  change scaled x up = _
  rw [scaled, if_neg hx.ne', decide_eq_true hx, beq_true]

theorem real_div (x : ℝ) {y : ℝ} (hy : y ≠ 0) : real x / real y = real (x / y) :=
  if_neg hy

@[simp] theorem real_le {x y : ℝ} : real x ≤ real y ↔ x ≤ y := Iff.rfl

@[simp] theorem real_lt {x y : ℝ} : real x < real y ↔ x < y := Iff.rfl

@[simp] theorem abs_real (x : ℝ) : Scalar.abs (real x) = real |x| := rfl

theorem sqrt_real {x : ℝ} (hx : 0 ≤ x) : Scalar.sqrt (real x) = real (Scalar.sqrt x) :=
  if_neg (not_lt.mpr hx)

theorem max_real (x y : ℝ) : Scalar.max (real x) (real y) = real (Scalar.max x y) := by
  change (if x ≤ y then real y else real x) = real (Max.max x y)
  rw [max_def]
  split <;> rfl

theorem isFinite_iff {a : Extended} : Scalar.isFinite a = true ↔ ∃ x, a = real x := by
  cases a with
  | real x => exact ⟨fun _ => ⟨x, rfl⟩, fun _ => rfl⟩
  | infinite up => exact ⟨nofun, nofun⟩
  | nan => exact ⟨nofun, nofun⟩

/-! ## No number -/

@[simp] theorem nan_add (a : Extended) : nan + a = nan := rfl

@[simp] theorem add_nan (a : Extended) : a + nan = nan := by
  cases a <;> rfl

@[simp] theorem mul_nan (a : Extended) : a * nan = nan := by
  cases a <;> rfl

theorem eq_add_of_nan {a b : Extended} (h : nan = a ∨ nan = b) : nan = a + b := by
  rcases h with rfl | rfl
  · exact (nan_add b).symm
  · exact (add_nan a).symm

theorem infinite_sub_self (up : Bool) : infinite up - infinite up = nan := by
  cases up <;> rfl

/-- A sum with a real number is a number where the other summand is. -/
theorem add_real_ne_nan {a : Extended} (ha : a ≠ nan) (x : ℝ) : a + real x ≠ nan := by
  cases a with
  | real y => exact nofun
  | infinite up => exact nofun
  | nan => exact absurd rfl ha

theorem not_le_nan (a : Extended) : ¬ a ≤ nan := by
  cases a <;> exact id

theorem not_nan_le (a : Extended) : ¬ nan ≤ a := id

/-! ## The order -/

theorem lt_irrefl (a : Extended) : ¬ a < a := by
  cases a with
  | real x => exact fun h : x < x => h.ne rfl
  | infinite up => exact fun h : up < up => h.ne rfl
  | nan => exact id

theorem not_lt_of_le {a b : Extended} (h : a ≤ b) : ¬ b < a := by
  change le a b at h
  change ¬ lt b a
  cases a <;> cases b <;> simp_all [le, lt]

theorem le_of_not_lt {a b : Extended} (ha : a ≠ nan) (hb : b ≠ nan) (h : ¬ b < a) : a ≤ b := by
  change ¬ lt b a at h
  change le a b
  cases a <;> cases b <;> simp_all [le, lt]

theorem le_refl {a : Extended} (ha : a ≠ nan) : a ≤ a :=
  le_of_not_lt ha ha (lt_irrefl a)

theorem le_trans {a b c : Extended} (hab : a ≤ b) (hbc : b ≤ c) : a ≤ c := by
  change le a b at hab
  change le b c at hbc
  change le a c
  cases a <;> cases b <;> cases c <;> simp_all [le]
  · exact hab.trans hbc
  · exact Bool.eq_true_of_true_le hbc
  · exact Bool.eq_false_of_le_false hab
  · exact hab.trans hbc

/-- What is comparable is a number. -/
theorem ne_nan_of_le {a b : Extended} (h : a ≤ b) : a ≠ nan ∧ b ≠ nan := by
  constructor
  · rintro rfl
    exact not_nan_le b h
  · rintro rfl
    exact not_le_nan a h

/-- A clamped number lies in the interval. -/
theorem clamp_mem {lower upper a : Extended} (hbounds : lower ≤ upper) (ha : a ≠ nan) :
    lower ≤ Scalar.clamp lower upper a ∧ Scalar.clamp lower upper a ≤ upper := by
  obtain ⟨hlower, hupper⟩ := ne_nan_of_le hbounds
  unfold Scalar.clamp
  split_ifs with hbelow habove
  · exact ⟨le_refl hlower, hbounds⟩
  · exact ⟨hbounds, le_refl hupper⟩
  · exact ⟨le_of_not_lt hlower ha hbelow, le_of_not_lt ha hupper habove⟩

/-- A number of the interval stays where it is. -/
theorem clamp_eq_self {lower upper a : Extended} (hlower : lower ≤ a) (hupper : a ≤ upper) :
    Scalar.clamp lower upper a = a := by
  rw [Scalar.clamp, if_neg (not_lt_of_le hlower), if_neg (not_lt_of_le hupper)]

/-- A real number is clamped to a real number, if the interval has one, and comes no farther from
it. -/
theorem clamp_real_near {lower upper : Extended} {x : ℝ} (hlower : lower ≤ real x)
    (hupper : real x ≤ upper) (y : ℝ) :
    ∃ z, Scalar.clamp lower upper (real y) = real z ∧ |z - x| ≤ |y - x| := by
  -- a bound that is passed lies between the number and `x`, and so is real
  unfold Scalar.clamp
  split_ifs with hbelow habove
  · cases lower with
    | real z =>
      have hy : y < z := hbelow
      have hz : z ≤ x := hlower
      refine ⟨z, rfl, ?_⟩
      rw [abs_of_nonpos (by linarith), abs_of_nonpos (by linarith)]
      linarith
    | infinite up => cases (show up = false from hlower).symm.trans (show up = true from hbelow)
    | nan => exact absurd hlower (not_nan_le _)
  · cases upper with
    | real z =>
      have hy : z < y := habove
      have hz : x ≤ z := hupper
      refine ⟨z, rfl, ?_⟩
      rw [abs_of_nonneg (by linarith), abs_of_nonneg (by linarith)]
      linarith
    | infinite up => cases (show up = true from hupper).symm.trans (show up = false from habove)
    | nan => exact absurd hupper (not_le_nan _)
  · exact ⟨y, rfl, le_rfl⟩

theorem clamp_real {lower upper : Extended} {x : ℝ} (hlower : lower ≤ real x)
    (hupper : real x ≤ upper) (y : ℝ) : ∃ z, Scalar.clamp lower upper (real y) = real z :=
  (clamp_real_near hlower hupper y).imp fun _ hz => hz.1

theorem abs_nan : Scalar.abs nan = nan := rfl

/-- What is no number is passed over. -/
theorem max_nan (a : Extended) : Scalar.max a nan = a := by
  cases a <;> rfl

theorem max_le {a b c : Extended} (ha : a ≤ c) (hb : b ≤ c) : Scalar.max a b ≤ c := by
  obtain ⟨hnumber, -⟩ := ne_nan_of_le ha
  obtain ⟨hnumber', -⟩ := ne_nan_of_le hb
  have hmax : Scalar.max a b = b ∨ Scalar.max a b = a := by
    classical
    cases a <;> cases b <;> first | contradiction | exact ite_eq_or_eq (le _ _) _ _
  rcases hmax with h | h
  · rwa [h]
  · rwa [h]

/-- The size of a point, at least one, is a real number or the infinity above. -/
theorem max_one (a : Extended) :
    Scalar.max a 1 = infinite true ∨ ∃ x, 1 ≤ x ∧ Scalar.max a 1 = real x := by
  cases a with
  | real x => exact .inr ⟨Max.max x 1, le_max_right x 1, max_real x 1⟩
  | infinite up =>
    cases up with
    | true => exact .inl (if_neg (show ¬ le (infinite true) (real 1) by simp [le]))
    | false => exact .inr ⟨1, le_rfl, if_pos (show le (infinite false) (real 1) by simp [le])⟩
  | nan => exact .inr ⟨1, le_rfl, rfl⟩

/-! ## Vectors of real numbers -/

variable {n : Nat}

/-- A vector of real numbers. -/
def reals (v : Vector ℝ n) : Vector Extended n :=
  v.map real

@[simp] theorem get_reals (v : Vector ℝ n) (i : Fin n) : (reals v).get i = real (v.get i) :=
  Vector.getElem_map _ i.isLt

theorem toList_reals (v : Vector ℝ n) : (reals v).toList = v.toList.map real :=
  Vector.toList_map

/-- Vectors are equal entry by entry. -/
theorem ext_get {β : Type} {v w : Vector β n} (h : ∀ i : Fin n, v.get i = w.get i) : v = w := by
  ext i hi
  exact h ⟨i, hi⟩

/-- The vectors of real numbers are those whose entries are real. -/
theorem exists_eq_reals {v : Vector Extended n} (h : ∀ i : Fin n, ∃ x, v.get i = real x) :
    ∃ w, v = reals w := by
  choose f hf using h
  refine ⟨Vector.ofFn f, ext_get fun i => ?_⟩
  rw [hf, get_reals, entry_ofFn]

theorem exists_eq_reals_of_isFinite {v : Vector Extended n}
    (h : ¬ (v.any fun a => !Scalar.isFinite a) = true) : ∃ w, v = reals w := by
  rw [Bool.not_eq_true, Vector.any_eq_false] at h
  refine exists_eq_reals fun i => isFinite_iff.mp ?_
  have hi := h i i.isLt
  rwa [Bool.not_eq_true, Bool.not_eq_false'] at hi

theorem foldl_add_real (l : List ℝ) (z : ℝ) :
    (l.map real).foldl (· + ·) (real z) = real (l.foldl (· + ·) z) := by
  induction l generalizing z with
  | nil => rfl
  | cons a l ih => rw [List.map_cons, List.foldl_cons, real_add, ih, List.foldl_cons]

theorem sumByEights_real (p₀ p₁ p₂ p₃ p₄ p₅ p₆ p₇ : ℝ) (l : List ℝ) :
    sumByEights (real p₀) (real p₁) (real p₂) (real p₃) (real p₄) (real p₅) (real p₆) (real p₇)
        (l.map real) =
      real (sumByEights p₀ p₁ p₂ p₃ p₄ p₅ p₆ p₇ l) := by
  fun_induction sumByEights p₀ p₁ p₂ p₃ p₄ p₅ p₆ p₇ l with
  | case1 p₀ p₁ p₂ p₃ p₄ p₅ p₆ p₇ x₀ x₁ x₂ x₃ x₄ x₅ x₆ x₇ rest ih => exact ih
  | case2 p₀ p₁ p₂ p₃ p₄ p₅ p₆ p₇ rest hrest =>
    rw [sumByEights.eq_2]
    · simp only [zero_eq, real_add, foldl_add_real]
    -- the rest is shorter than eight numbers on both sides
    · intro x₀ x₁ x₂ x₃ x₄ x₅ x₆ x₇ rest' h
      simp only [List.map_eq_cons_iff] at h
      obtain ⟨_, _, rfl, -, _, _, rfl, -, _, _, rfl, -, _, _, rfl, -, _, _, rfl, -, _, _, rfl, -,
        _, _, rfl, -, _, _, rfl, -, -⟩ := h
      exact hrest _ _ _ _ _ _ _ _ _ rfl

theorem dot_reals (v w : Vector ℝ n) : dot (reals v) (reals w) = real (dot v w) := by
  have hentries : List.zipWith (· * ·) (reals v).toList (reals w).toList =
      (List.zipWith (· * ·) v.toList w.toList).map real := by
    rw [toList_reals, toList_reals, List.zipWith_map, List.map_zipWith]
    rfl
  rw [dot, hentries]
  exact sumByEights_real 0 0 0 0 0 0 0 0 _

theorem infNorm_reals (v : Vector ℝ n) : infNorm (reals v) = real (infNorm v) := by
  have hfold (l : List ℝ) (z : ℝ) :
      (l.map real).foldl (fun m a => Scalar.max m (Scalar.abs a)) (real z) =
        real (l.foldl (fun m a => Scalar.max m (Scalar.abs a)) z) := by
    induction l generalizing z with
    | nil => rfl
    | cons a l ih =>
      rw [List.map_cons, List.foldl_cons, abs_real, max_real, ih, List.foldl_cons, Exact.abs_eq]
  rw [infNorm, toList_reals]
  exact hfold v.toList 0

/-- A norm is bounded as the entries are that are numbers. -/
theorem infNorm_le {v : Vector Extended n} {b : Extended} (hb : 0 ≤ b)
    (h : ∀ i : Fin n, v.get i = nan ∨ Scalar.abs (v.get i) ≤ b) : infNorm v ≤ b := by
  have hfold (l : List Extended) (hl : ∀ a ∈ l, a = nan ∨ Scalar.abs a ≤ b) (z : Extended)
      (hz : z ≤ b) : l.foldl (fun m a => Scalar.max m (Scalar.abs a)) z ≤ b := by
    -- on the entries: a maximum with no number is the other one
    induction l generalizing z with
    | nil => exact hz
    | cons a l ih =>
      obtain ⟨ha, hl⟩ := List.forall_mem_cons.mp hl
      refine ih hl _ ?_
      rcases ha with rfl | ha
      · dsimp only
        rwa [abs_nan, max_nan]
      · exact max_le hz ha
  refine hfold v.toList (fun a ha => ?_) 0 hb
  obtain ⟨i, hi, rfl⟩ := Vector.mem_iff_getElem.mp (Vector.mem_toList_iff.mp ha)
  exact h ⟨i, hi⟩

@[simp] theorem neg_reals (v : Vector ℝ n) : -reals v = reals (-v) := by
  refine ext_get fun i => ?_
  rw [get_reals, Exact.get_neg]
  refine (Vector.getElem_map _ i.isLt).trans ?_
  exact congrArg Neg.neg (get_reals v i)

@[simp] theorem sub_reals (v w : Vector ℝ n) : reals v - reals w = reals (v - w) := by
  refine ext_get fun i => ?_
  rw [get_reals, Exact.get_sub]
  refine (entry_zipWith _ _ _ i).trans ?_
  rw [get_reals, get_reals]
  exact real_sub _ _

theorem mulVec_reals (h : Square ℝ n) (v : Vector ℝ n) :
    mulVec (h.map reals) (reals v) = reals (mulVec h v) := by
  refine ext_get fun i => ?_
  have hrow : (h.map reals).get i = reals (h.get i) := Vector.getElem_map _ i.isLt
  have hleft : (mulVec (h.map reals) (reals v)).get i = dot ((h.map reals).get i) (reals v) :=
    Vector.getElem_map _ i.isLt
  have hright : (mulVec h v).get i = dot (h.get i) v := Vector.getElem_map _ i.isLt
  rw [hleft, hrow, dot_reals, get_reals, hright]

/-! ## Vectors with no number in them -/

theorem foldl_add_nan (l : List Extended) {z : Extended} (h : z = nan ∨ nan ∈ l) :
    l.foldl (· + ·) z = nan := by
  -- once a sum is no number, it remains none
  induction l generalizing z with
  | nil => simpa using h
  | cons a l ih =>
    refine ih ?_
    rcases h with rfl | h
    · exact .inl (nan_add a)
    · rcases List.mem_cons.mp h with rfl | h
      · exact .inl (add_nan z)
      · exact .inr h

theorem sumByEights_nan {p₀ p₁ p₂ p₃ p₄ p₅ p₆ p₇ : Extended} {l : List Extended}
    (h : nan ∈ [p₀, p₁, p₂, p₃, p₄, p₅, p₆, p₇] ++ l) :
    sumByEights p₀ p₁ p₂ p₃ p₄ p₅ p₆ p₇ l = nan := by
  fun_induction sumByEights p₀ p₁ p₂ p₃ p₄ p₅ p₆ p₇ l with
  | case1 p₀ p₁ p₂ p₃ p₄ p₅ p₆ p₇ x₀ x₁ x₂ x₃ x₄ x₅ x₆ x₇ rest ih =>
    -- what is no number stays in its running sum
    refine ih ?_
    simp only [List.cons_append, List.nil_append, List.mem_cons] at h ⊢
    grind [eq_add_of_nan]
  | case2 p₀ p₁ p₂ p₃ p₄ p₅ p₆ p₇ rest hrest =>
    refine foldl_add_nan _ ?_
    simp only [List.cons_append, List.nil_append, List.mem_cons] at h
    grind [eq_add_of_nan]

/-- What is no number spoils an inner product. -/
theorem dot_of_nan (v : Vector Extended n) {w : Vector Extended n} {i : Fin n}
    (h : w.get i = nan) : dot v w = nan := by
  refine sumByEights_nan (List.mem_append_right _ (List.mem_iff_getElem.mpr ⟨i, by simp, ?_⟩))
  simp only [List.getElem_zipWith, Vector.getElem_toList]
  exact (congrArg _ h).trans (mul_nan _)

end Extended

end Nlp
