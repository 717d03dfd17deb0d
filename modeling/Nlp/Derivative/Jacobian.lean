import Nlp.Derivative.Kernel
import Nlp.Linear

/-!
# Jacobians

A Jacobian has one row for the objective and one per constraint, and one column per variable.  It
is assembled from columns that carry their index, in any order, each exactly once, or from rows.

## Main definitions

* `Jacobian`, `Jacobian.ofColumns`, `Jacobian.ofRows?`.
-/

namespace Nlp

/-- A Jacobian and what it cost. -/
structure Jacobian (α : Type) where
  /-- The derivatives; row 0 is the objective's. -/
  matrix : Matrix α
  /-- Model calls spent on it, over all ranks. -/
  evaluations : Nat

namespace Jacobian

variable {α : Type}

/-- The columns that have been placed; a place without one is open. -/
abbrev Places (α : Type) (rows n : Nat) : Type := Vector (Option (Vector α rows)) n

/-- One more column put into its place, which has to be open, in a matrix of `rows` rows. -/
def place {rows n : Nat} (places : Places α rows n) (c : Column α) :
    Except (Error α) (Places α rows n) :=
  if h : c.1 < n then
    if places[c.1].isSome then .error (.communication (.columnRepeated c.1))
    else
      match vectorOf? rows c.2 with
      | none => .error (.shapeMismatch "jacobian column" rows c.2.length)
      | some column => .ok (places.set c.1 (some column))
  else .error (.communication (.columnRepeated c.1))

/-- The Jacobian with `rows` rows and `n` columns made of these columns.  Every column is there
once, and nothing else. -/
def ofColumns (rows n : Nat) (columns : List (Column α)) (evaluations : Nat) :
    Except (Error α) (Jacobian α) := do
  let places ← columns.foldlM place (Vector.replicate n none : Places α rows n)
  if h : ∀ j : Fin n, (places.get j).isSome then
    return {
      matrix := {
        rows, cols := n
        entries := Vector.ofFn fun i => Vector.ofFn fun j => ((places.get j).get (h j)).get i }
      evaluations }
  else
    throw (.communication (.columnMissing ((places.toList.findIdx? Option.isNone).getD n)))

/-- The matrix of some rows, if they have the expected shape. -/
def ofRows? (rows n : Nat) (lists : List (List α)) : Option (Matrix α) := do
  let vectors ← lists.mapM (vectorOf? n)
  let entries ← vectorOf? rows vectors
  return ⟨rows, n, entries⟩

end Jacobian

end Nlp
