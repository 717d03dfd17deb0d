import Nlp.Scalar

/-!
# Doubles

A double is its 64 bits.  Arithmetic is that of the machine: correctly rounded on numbers, with
two rules for what is no number.  An operation with a not-a-number operand answers with that
operand (the first, if both are), made quiet; an operation that has no answer makes the negative
quiet not-a-number.  Keeping the bits keeps the sign and payload of a not-a-number, which the
wire format shows.

## Main definitions

* `Double`: the word, with the constants `nan`, `infinity` and the classification `isNaN`,
  `isFinite`, `isNegative`.
* `instance : Scalar Double`.
-/

namespace Nlp

/-- A binary64 number, by its bits. -/
structure Double where
  /-- Sign, exponent and fraction, from the top. -/
  bits : UInt64
deriving DecidableEq, Inhabited

namespace Double

/-! ## Classification -/

/-- The sign bit. -/
def signMask : UInt64 := 0x8000000000000000

/-- The exponent field. -/
def exponentMask : UInt64 := 0x7ff0000000000000

/-- The fraction field. -/
def fractionMask : UInt64 := 0x000fffffffffffff

/-- The top bit of the fraction, which marks a quiet not-a-number. -/
def quietMask : UInt64 := 0x0008000000000000

/-- The not-a-number that stands for a missing value. -/
def nan : Double := ⟨0x7ff8000000000000⟩

/-- The not-a-number an operation without an answer makes. -/
def invalid : Double := ⟨0xfff8000000000000⟩

/-- Positive infinity. -/
def infinity : Double := ⟨exponentMask⟩

/-- Negative infinity. -/
def negativeInfinity : Double := ⟨0xfff0000000000000⟩

/-- The sign bit is set. -/
def isNegative (a : Double) : Bool := a.bits &&& signMask != 0

/-- The exponent field is not the reserved one. -/
def isFinite (a : Double) : Bool := a.bits &&& exponentMask != exponentMask

/-- The reserved exponent with a fraction. -/
def isNaN (a : Double) : Bool := !a.isFinite && a.bits &&& fractionMask != 0

/-- The same not-a-number with its quiet bit set. -/
def quiet (a : Double) : Double := ⟨a.bits ||| quietMask⟩

/-! ## Arithmetic -/

/-- The machine number with these bits. -/
def toFloat (a : Double) : Float := Float.ofBits a.bits

/-- The bits of a result. -/
def ofFloat (r : Float) : Double := if r.isNaN then invalid else ⟨r.toBits⟩

/-- One rounded operation of two operands. -/
@[inline] def lift (op : Float → Float → Float) (a b : Double) : Double :=
  if a.isNaN then a.quiet else if b.isNaN then b.quiet else ofFloat (op a.toFloat b.toFloat)

instance : Add Double := ⟨lift (· + ·)⟩

instance : Sub Double := ⟨lift (· - ·)⟩

instance : Mul Double := ⟨lift (· * ·)⟩

instance : Div Double := ⟨lift (· / ·)⟩

instance : Neg Double := ⟨fun a => ⟨a.bits ^^^ signMask⟩⟩

/-- The correctly rounded square root. -/
def sqrt (a : Double) : Double := if a.isNaN then a.quiet else ofFloat a.toFloat.sqrt

/-- The same number without its sign. -/
def abs (a : Double) : Double := ⟨a.bits &&& ~~~signMask⟩

instance : Zero Double := ⟨⟨0⟩⟩

instance : One Double := ⟨⟨0x3ff0000000000000⟩⟩

/-- The double nearest to `m * 10 ^ e` (`m / 10 ^ e` if `below`), ties to the even fraction. -/
def ofScientific (m : Nat) (below : Bool) (e : Nat) : Double :=
  ⟨(Float.ofScientific m below e).toBits⟩

instance : OfScientific Double := ⟨ofScientific⟩

/-- The double nearest to a natural number. -/
def ofNat (n : Nat) : Double := ofScientific n false 0

/-- The double nearest to an integer. -/
def ofInt (i : Int) : Double := if i < 0 then -ofNat i.natAbs else ofNat i.natAbs

/-! ## Order -/

instance : LE Double := ⟨fun a b => a.toFloat ≤ b.toFloat⟩

instance : LT Double := ⟨fun a b => a.toFloat < b.toFloat⟩

instance (a b : Double) : Decidable (a ≤ b) := inferInstanceAs (Decidable (a.toFloat ≤ b.toFloat))

instance (a b : Double) : Decidable (a < b) := inferInstanceAs (Decidable (a.toFloat < b.toFloat))

/-- Numerical equality: the two zeros are equal, and a not-a-number equals nothing. -/
instance : BEq Double := ⟨fun a b => a.toFloat == b.toFloat⟩

/-- The larger operand, or the other one if one is not a number; of two equal operands the
second. -/
def max (a b : Double) : Double :=
  if b.isNaN then a else if b < a then a else b

/-- The smaller operand, or the other one if one is not a number; of two equal operands the
second. -/
def min (a b : Double) : Double :=
  if b.isNaN then a else if a < b then a else b

instance : Scalar Double where
  abs := abs
  sqrt := sqrt
  max := max
  min := min
  isFinite := isFinite
  decideLe := fun a b => inferInstanceAs (Decidable (a ≤ b))
  decideLt := fun a b => inferInstanceAs (Decidable (a < b))

end Double

end Nlp
