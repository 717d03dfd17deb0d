import Nlp.Scalar

/-!
# Vectors and matrices

The dense linear algebra of the solvers, on `Vector α n` from core.  Componentwise sums,
differences and negation are core's.  Sums are not associative on doubles, so the order of each
sum is part of its definition.

## Main definitions

* `sumByEights`, `dot`: the inner product, summed along eight interleaved running sums.
* `infNorm`, `scale`, `addScaled`, `clampTo`, `samePoint`.
* `Square`, `identity`, `mulVec`: square matrices by rows.
* `vectorOf?`: a list read as a vector of an expected length.
* `Matrix`, `Matrix.shaped?`: a rectangular matrix that carries its shape, and its reading at an
  expected shape.
-/

namespace Nlp

section

variable {α β γ : Type} {n : Nat}

/-- An entry at a place that is known. -/
@[simp] theorem entry_mk (v : Vector α n) {k : Nat} (h : k < n) : v.get ⟨k, h⟩ = v[k] :=
  rfl

/-- An entry of a vector that is given entry by entry. -/
@[simp] theorem entry_ofFn (f : Fin n → α) (i : Fin n) : (Vector.ofFn f).get i = f i :=
  Vector.getElem_ofFn i.isLt

/-- An entry of two vectors joined entry by entry. -/
@[simp] theorem entry_zipWith (f : α → β → γ) (v : Vector α n) (w : Vector β n) (i : Fin n) :
    (v.zipWith f w).get i = f (v.get i) (w.get i) :=
  Vector.getElem_zipWith i.isLt

/-- An entry of a vector of which one entry has been set. -/
@[simp] theorem entry_set (v : Vector α n) (k : Fin n) (a : α) (i : Fin n) :
    (v.set k a).get i = if k = i then a else v.get i :=
  (Vector.getElem_set k.isLt i.isLt).trans <|
    ite_congr (propext Fin.ext_iff.symm) (fun _ => rfl) fun _ => rfl

end

/-- A list of the expected length as a vector. -/
def vectorOf? {α : Type} (n : Nat) (l : List α) : Option (Vector α n) :=
  if h : l.length = n then some ⟨l.toArray, by simpa using h⟩ else none

section

variable {α : Type} [Scalar α] {n : Nat}

/-- The sum of a list along eight running sums: item `8 i + k` joins sum `k`, the eight sums are
joined pairwise at a distance of four, and the items past the last full block follow one by
one. -/
def sumByEights (p₀ p₁ p₂ p₃ p₄ p₅ p₆ p₇ : α) : List α → α
  | x₀ :: x₁ :: x₂ :: x₃ :: x₄ :: x₅ :: x₆ :: x₇ :: rest =>
    sumByEights (p₀ + x₀) (p₁ + x₁) (p₂ + x₂) (p₃ + x₃) (p₄ + x₄) (p₅ + x₅) (p₆ + x₆) (p₇ + x₇)
      rest
  | rest =>
    rest.foldl (· + ·) (0 + (p₀ + p₄) + (p₁ + p₅) + (p₂ + p₆) + (p₃ + p₇))

/-- The inner product. -/
def dot (a b : Vector α n) : α :=
  sumByEights 0 0 0 0 0 0 0 0 (List.zipWith (· * ·) a.toList b.toList)

/-- The largest absolute value of an entry, and zero for no entries. -/
def infNorm (v : Vector α n) : α :=
  v.toList.foldl (fun m a => Scalar.max m (Scalar.abs a)) 0

/-- Every entry times `s`. -/
def scale (v : Vector α n) (s : α) : Vector α n :=
  v.map (· * s)

/-- The vector `v + w r`. -/
def addScaled (v : Vector α n) (w : α) (r : Vector α n) : Vector α n :=
  v.zipWith (fun g a => g + w * a) r

/-- The nearest point of the box `[lower, upper]`. -/
def clampTo (lower upper x : Vector α n) : Vector α n :=
  Vector.ofFn fun i => Scalar.clamp (lower.get i) (upper.get i) (x.get i)

/-- The points are equal number by number, which the two zeros are and a not-a-number is not even
to itself. -/
def samePoint (x y : List α) : Bool :=
  x.length == y.length && (x.zip y).all fun (a, b) => a == b

/-! ## Square matrices -/

/-- A square matrix, by rows. -/
abbrev Square (α : Type) (n : Nat) : Type := Vector (Vector α n) n

/-- The identity matrix. -/
def identity : Square α n :=
  Vector.ofFn fun i => Vector.ofFn fun j => if i = j then 1 else 0

/-- The product of a matrix and a vector: one inner product per row. -/
def mulVec (h : Square α n) (v : Vector α n) : Vector α n :=
  h.map fun row => dot row v

/-- Every entry of a matrix times `s`. -/
def scaleAll (h : Square α n) (s : α) : Square α n :=
  h.map fun row => scale row s

end

/-! ## Matrices of any shape -/

/-- A matrix and its shape. -/
structure Matrix (α : Type) where
  /-- Number of rows. -/
  rows : Nat
  /-- Number of columns. -/
  cols : Nat
  /-- The entries, by rows. -/
  entries : Vector (Vector α cols) rows

namespace Matrix

variable {α : Type}

/-- The entries of a matrix that has the expected shape. -/
def shaped? (a : Matrix α) (rows cols : Nat) : Option (Vector (Vector α cols) rows) :=
  if hr : a.rows = rows then
    if hc : a.cols = cols then
      some ((a.entries.map fun row => row.cast hc).cast hr)
    else none
  else none

/-- The rows as lists. -/
def toLists (a : Matrix α) : List (List α) :=
  a.entries.toList.map Vector.toList

end Matrix

end Nlp
