import Nlp.Scalar

/-!
# Complex numbers over a scalar

Pairs of scalars with the arithmetic a complex-step derivative runs on.  Products and quotients
are the textbook formulas, evaluated in the order written here.
-/

namespace Nlp

/-- A number `re + im i`. -/
structure Complex (α : Type) where
  /-- Real part. -/
  re : α
  /-- Imaginary part. -/
  im : α
deriving DecidableEq, Inhabited

namespace Complex

variable {α : Type} [Scalar α]

/-- A real number, with imaginary part zero. -/
def ofReal (a : α) : Complex α := ⟨a, 0⟩

instance : Add (Complex α) := ⟨fun a b => ⟨a.re + b.re, a.im + b.im⟩⟩

instance : Sub (Complex α) := ⟨fun a b => ⟨a.re - b.re, a.im - b.im⟩⟩

instance : Neg (Complex α) := ⟨fun a => ⟨-a.re, -a.im⟩⟩

instance : Mul (Complex α) :=
  ⟨fun a b => ⟨a.re * b.re - a.im * b.im, a.re * b.im + a.im * b.re⟩⟩

instance : Div (Complex α) :=
  ⟨fun a b =>
    let s := b.re * b.re + b.im * b.im
    ⟨(a.re * b.re + a.im * b.im) / s, (a.im * b.re - a.re * b.im) / s⟩⟩

end Complex

end Nlp
