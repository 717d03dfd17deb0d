import Nlp.Double

/-!
# Decimal numerals

A numeral is a number as it is written: digits, a point and a power of ten.  It is read in machine
numbers alone: the digits that fit one word, as a double, times or divided by a double power of ten.
The roundings on the way may leave the result some steps of the last bit away from the double
nearest to the numeral.

## Main definitions

* `Numeral`, `Numeral.integer?`.
* `Numeral.wordAndPower`, `Numeral.toDouble`: the reading as a double.

## Main statement

* `Numeral.absorb_lt`: the digits taken into a word never exceed it.
-/

namespace Nlp

namespace Double

/-- The double nearest to `10 ^ k`. -/
def powerOfTen (k : Nat) : Double := ofScientific 1 false k

/-- A double times `10 ^ e`, by one rounded multiplication or by rounded divisions.  The largest
power of ten among the doubles is `10 ^ 308`: beyond it a product is infinite, and a quotient is
taken in several steps, until it is zero or the rest of the power is a double. -/
def timesPowerOfTen (a : Double) (e : Int) : Double :=
  if e.natAbs ≤ 308 then
    if 0 ≤ e then a * powerOfTen e.natAbs else a / powerOfTen e.natAbs
  else if a == 0 then a
  else if 0 ≤ e then infinity
  else timesPowerOfTen (a / powerOfTen 308) (e + 308)
termination_by (-e).toNat

end Double

/-- A decimal number as it is written. -/
structure Numeral where
  /-- A minus sign is in front. -/
  negative : Bool
  /-- The digits before the point. -/
  whole : List Nat
  /-- The digits after the point, if there is a point. -/
  places : Option (List Nat)
  /-- The power of ten after the digits, if there is one. -/
  exponent : Option Int
deriving DecidableEq

namespace Numeral

/-- The number some digits write. -/
def ofDigits (ds : List Nat) : Nat :=
  ds.foldl (fun n d => 10 * n + d) 0

/-! ## Words -/

/-- The digits taken into a word one after the other, up to the first that does not fit, and the
digits from there on. -/
def absorb (word : Nat) : List Nat → Nat × List Nat
  | d :: ds => if 10 * word + d < UInt64.size then absorb (10 * word + d) ds else (word, d :: ds)
  | [] => (word, [])

/-- What has been taken into a word fits it. -/
theorem absorb_lt {word : Nat} (h : word < UInt64.size) (ds : List Nat) :
    (absorb word ds).1 < UInt64.size := by
  induction ds generalizing word with
  | nil => exact h
  | cons d ds ih =>
    rw [absorb]
    split
    · exact ih ‹_›
    · exact h

/-! ## Readings -/

/-- The integer from `-2^63` up to, not including, `2^64` that is written without point and power
of ten.  The negative zero is none. -/
def integer? (n : Numeral) : Option Int :=
  match n.places, n.exponent, absorb 0 n.whole with
  | none, none, (size, []) =>
    if n.negative then
      if 0 < size ∧ size ≤ UInt64.size / 2 then some (-size) else none
    else some size
  | _, _, _ => none

/-- The word of a numeral and the power of ten that goes with it.  A digit before the point that is
left out still counts as a place; one after the point does not.  The digits after the point are
tried even where one before it was left out. -/
def wordAndPower (n : Numeral) : Nat × Int :=
  let (word, skipped) := absorb 0 n.whole
  let places := n.places.getD []
  let (word, ignored) := absorb word places
  (word, skipped.length - (places.length - ignored.length : Nat) + n.exponent.getD 0)

/-- The word of a numeral scaled by its power of ten in double arithmetic, infinite beyond all
doubles. -/
def toDouble (n : Numeral) : Double :=
  let size := (Double.ofNat n.wordAndPower.1).timesPowerOfTen n.wordAndPower.2
  if n.negative then -size else size

end Numeral

end Nlp
