import Nlp.Complex

/-!
# Formulas

Expressions in the variables of a point, with their values at real and complex points.

## Main definitions

* `Formula`.
* `Formula.value`, `Formula.complexValue?`.
-/

namespace Nlp

/-- An expression in the variables of a point. -/
inductive Formula (α : Type) where
  /-- A number. -/
  | const (a : α)
  /-- The variable in this place; zero beyond the last. -/
  | var (i : Nat)
  /-- A sum. -/
  | add (a b : Formula α)
  /-- A difference. -/
  | sub (a b : Formula α)
  /-- A product. -/
  | mul (a b : Formula α)
  /-- A quotient. -/
  | div (a b : Formula α)
  /-- A negated value. -/
  | neg (a : Formula α)
  /-- The product of a value with itself. -/
  | square (a : Formula α)
  /-- A square root, of real values only. -/
  | sqrt (a : Formula α)
  /-- An absolute value, of real values only. -/
  | abs (a : Formula α)
  /-- The value of `a` where the real part of `c` is positive, and that of `b` elsewhere. -/
  | cond (c a b : Formula α)
deriving Inhabited

namespace Formula

variable {α : Type} [Scalar α]

/-- The value at a real point. -/
def value (x : List α) : Formula α → α
  | const a => a
  | var i => x.getD i 0
  | add a b => a.value x + b.value x
  | sub a b => a.value x - b.value x
  | mul a b => a.value x * b.value x
  | div a b => a.value x / b.value x
  | neg a => -a.value x
  | square a =>
    let v := a.value x
    v * v
  | sqrt a => Scalar.sqrt (a.value x)
  | abs a => Scalar.abs (a.value x)
  | cond c a b => if 0 < c.value x then a.value x else b.value x

/-- The value at a complex point; none where a root or an absolute value is needed. -/
def complexValue? (z : List (Complex α)) : Formula α → Option (Complex α)
  | const a => some (.ofReal a)
  | var i => some (z.getD i (.ofReal 0))
  | add a b => do return (← a.complexValue? z) + (← b.complexValue? z)
  | sub a b => do return (← a.complexValue? z) - (← b.complexValue? z)
  | mul a b => do return (← a.complexValue? z) * (← b.complexValue? z)
  | div a b => do return (← a.complexValue? z) / (← b.complexValue? z)
  | neg a => do return -(← a.complexValue? z)
  | square a => do
    let v ← a.complexValue? z
    return v * v
  | sqrt _ | abs _ => none
  | cond c a b => do
    let v ← c.complexValue? z
    if 0 < v.re then a.complexValue? z else b.complexValue? z

end Formula

end Nlp
