/-!
# Scalars

The numbers an algorithm of this library computes with.  Every solver, kernel and vector
operation is written over a `Scalar`, so that the same definition runs on machine doubles and
can be read over an ordered field.

## Main definitions

* `Scalar α`: arithmetic, decimal literals, a decidable order, and the few functions
  (`abs`, `sqrt`, `max`, `min`, `isFinite`) the algorithms use.
* `Scalar.clamp`: the nearest point of an interval.
-/

namespace Nlp

/-- A number type with the operations a nonlinear solver needs.  No law is part of the class:
doubles round, and the theorems say which laws they use. -/
class Scalar (α : Type) extends
    Zero α, One α, Add α, Sub α, Neg α, Mul α, Div α, OfScientific α, LE α, LT α, BEq α where
  /-- Absolute value. -/
  abs : α → α
  /-- Square root. -/
  sqrt : α → α
  /-- The larger of two numbers. -/
  max : α → α → α
  /-- The smaller of two numbers. -/
  min : α → α → α
  /-- False exactly for the values that are no number: infinities and the not-a-numbers. -/
  isFinite : α → Bool
  /-- The order `≤` can be tested. -/
  decideLe : DecidableRel (fun a b : α => a ≤ b)
  /-- The order `<` can be tested. -/
  decideLt : DecidableRel (fun a b : α => a < b)

namespace Scalar

variable {α : Type} [Scalar α]

-- a type that has these operations already keeps its own
attribute [instance (low)] toZero toOne toAdd toSub toNeg toMul toDiv toOfScientific toLE toLT toBEq

instance : DecidableRel (fun a b : α => a ≤ b) := decideLe

instance : DecidableRel (fun a b : α => a < b) := decideLt

instance (a b : α) : Decidable (a ≤ b) := decideLe a b

instance (a b : α) : Decidable (a < b) := decideLt a b

/-- A number below the interval goes to its lower end, one above it to its upper end, and every
other one stays. -/
def clamp (lower upper x : α) : α :=
  if x < lower then lower else if upper < x then upper else x

end Scalar

end Nlp
