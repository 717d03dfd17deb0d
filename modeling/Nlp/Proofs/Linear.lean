import Nlp.Proofs.Exact
import Mathlib.Algebra.Order.Star.Real
import Mathlib.LinearAlgebra.Matrix.DotProduct
import Mathlib.LinearAlgebra.Matrix.PosDef

/-!
# Vectors and matrices in exact arithmetic

Over the real numbers the order of a sum does not matter, so the inner product, the product of a
matrix and a vector and the square matrices are those of linear algebra.

## Main definitions

* `Exact.toMatrix`: a square matrix by its entries.

## Main results

* `Exact.dot_eq`, `Exact.mulVec_get`: the products.
* `Exact.infNorm_eq_zero_iff`: the norm vanishes at zero only.
-/

open scoped Matrix

namespace Nlp.Exact

variable {n : Nat}

/-! ## Vectors -/

theorem get_inj {v w : Vector ℝ n} : v.get = w.get ↔ v = w := by
  refine ⟨fun h => ?_, congrArg _⟩
  ext i hi
  exact congrFun h ⟨i, hi⟩

@[simp] theorem get_add (v w : Vector ℝ n) : (v + w).get = v.get + w.get :=
  funext fun i => entry_zipWith (· + ·) v w i

@[simp] theorem get_sub (v w : Vector ℝ n) : (v - w).get = v.get - w.get :=
  funext fun i => entry_zipWith (· - ·) v w i

@[simp] theorem get_neg (v : Vector ℝ n) : (-v).get = -v.get := by
  funext i
  exact Vector.getElem_map _ i.isLt

@[simp] theorem get_zero : (0 : Vector ℝ n).get = 0 := by
  funext i
  exact Vector.getElem_replicate i.isLt

@[simp] theorem get_scale (v : Vector ℝ n) (a : ℝ) : (scale v a).get = a • v.get := by
  funext i
  refine (Vector.getElem_map _ i.isLt).trans ?_
  exact mul_comm _ _

theorem any_not_isFinite (v : Vector ℝ n) : (v.any fun a => !Scalar.isFinite a) = false := by
  rw [Vector.any_eq_false]
  exact fun _ _ => Bool.false_ne_true

theorem infNorm_nonneg (v : Vector ℝ n) : 0 ≤ infNorm v :=
  (infNorm_le_iff.mp le_rfl).1

theorem infNorm_eq_zero_iff {v : Vector ℝ n} : infNorm v = 0 ↔ v = 0 := by
  rw [← get_inj, get_zero, ← (infNorm_nonneg v).ge_iff_eq', infNorm_le_iff]
  refine ⟨fun h => funext fun i => abs_nonpos_iff.mp (h.2 i), fun h => ⟨le_rfl, fun i => ?_⟩⟩
  rw [h, Pi.zero_apply, abs_zero]

/-! ## Products -/

theorem foldl_add_eq (l : List ℝ) (z : ℝ) : l.foldl (· + ·) z = z + l.sum := by
  induction l generalizing z with
  | nil => simp
  | cons a l ih => rw [List.foldl_cons, ih, List.sum_cons, add_assoc]

theorem sumByEights_eq (p₀ p₁ p₂ p₃ p₄ p₅ p₆ p₇ : ℝ) (l : List ℝ) :
    sumByEights p₀ p₁ p₂ p₃ p₄ p₅ p₆ p₇ l =
      p₀ + p₁ + p₂ + p₃ + p₄ + p₅ + p₆ + p₇ + l.sum := by
  fun_induction sumByEights p₀ p₁ p₂ p₃ p₄ p₅ p₆ p₇ l with
  | case1 p₀ p₁ p₂ p₃ p₄ p₅ p₆ p₇ x₀ x₁ x₂ x₃ x₄ x₅ x₆ x₇ rest ih =>
    rw [ih]
    simp only [List.sum_cons]
    ring
  | case2 p₀ p₁ p₂ p₃ p₄ p₅ p₆ p₇ rest =>
    rw [foldl_add_eq]
    ring

theorem dot_eq (a b : Vector ℝ n) : dot a b = a.get ⬝ᵥ b.get := by
  have hentries : List.zipWith (· * ·) a.toList b.toList =
      List.ofFn fun i : Fin n => a.get i * b.get i :=
    List.ext_getElem (by simp) fun k hk hk' => by simp
  rw [dot, sumByEights_eq, hentries, List.sum_ofFn]
  simp [dotProduct]

theorem dot_self_pos_iff {v : Vector ℝ n} : 0 < dot v v ↔ v.get ≠ 0 := by
  have hstar := Matrix.dotProduct_star_self_pos_iff (v := v.get)
  rwa [star_trivial, ← dot_eq] at hstar

/-! ## Matrices -/

/-- A square matrix, by its entries. -/
def toMatrix (h : Square ℝ n) :=
  Matrix.of fun i j : Fin n => (h.get i).get j

theorem toMatrix_apply (h : Square ℝ n) (i j : Fin n) : toMatrix h i j = (h.get i).get j := rfl

theorem mulVec_get (h : Square ℝ n) (v : Vector ℝ n) : (mulVec h v).get = toMatrix h *ᵥ v.get := by
  funext i
  refine (Vector.getElem_map _ i.isLt).trans ?_
  exact dot_eq _ _

theorem toMatrix_identity : toMatrix (identity : Square ℝ n) = 1 := by
  ext i j
  simp [toMatrix_apply, identity, Matrix.one_apply]

theorem mulVec_identity (v : Vector ℝ n) : mulVec identity v = v := by
  rw [← get_inj, mulVec_get, toMatrix_identity, Matrix.one_mulVec]

theorem toMatrix_scaleAll (h : Square ℝ n) (a : ℝ) : toMatrix (scaleAll h a) = a • toMatrix h := by
  ext i j
  have hrow : (scaleAll h a).get i = scale (h.get i) a := Vector.getElem_map _ i.isLt
  rw [toMatrix_apply, hrow, get_scale]
  rfl

/-! ## Vectors of one entry -/

theorem eq_single {α : Type} {v : Vector α 1} {a : α} (h : v.get 0 = a) : v = #v[a] := by
  ext i hi
  match i, hi with
  | 0, _ => exact h

theorem neg_single (a : ℝ) : -#v[a] = #v[-a] :=
  eq_single (by rw [get_neg]; rfl)

theorem sub_single (a b : ℝ) : #v[a] - #v[b] = #v[a - b] :=
  eq_single (by rw [get_sub]; rfl)

theorem dot_single (a b : ℝ) : dot #v[a] #v[b] = a * b := by
  simp [dot, sumByEights]

theorem infNorm_single (a : ℝ) : infNorm #v[a] = |a| := by
  simp [infNorm]

/-! ## Pairs -/

section

variable {α : Type}

theorem pair_get_zero (a b : α) : #v[a, b].get 0 = a := rfl

theorem pair_get_one (a b : α) : #v[a, b].get 1 = b := rfl

theorem eq_pair {v : Vector α 2} {a b : α} (ha : v.get 0 = a) (hb : v.get 1 = b) :
    v = #v[a, b] := by
  ext i hi
  match i, hi with
  | 0, _ => exact ha
  | 1, _ => exact hb

end

theorem sub_pair (a b c d : ℝ) : #v[a, b] - #v[c, d] = #v[a - c, b - d] :=
  eq_pair (by rw [get_sub]; rfl) (by rw [get_sub]; rfl)

theorem dot_pair (a b c d : ℝ) : dot #v[a, b] #v[c, d] = a * c + b * d := by
  simp [dot, sumByEights]

theorem infNorm_pair (a b : ℝ) : infNorm #v[a, b] = max |a| |b| := by
  simp [infNorm]

theorem mulVec_pair (a b c d x y : ℝ) :
    mulVec #v[#v[a, b], #v[c, d]] #v[x, y] = #v[a * x + b * y, c * x + d * y] := by
  simp [mulVec, dot_pair]

end Nlp.Exact
