import Nlp.Double

/-!
# Decimal digits of a double

A finite double is `m * 2 ^ q` exactly, so its decimal digits are a matter of natural numbers.

## Main definitions

* `Binary`, `Double.binary`: the exact value of a finite double, without its sign.
* `Decimal`: a natural number times a power of ten.
* `Binary.shortest`: the fewest digits whose nearest double is the given one, and of those the
  nearest to it.
* `Binary.rounded`, `Binary.fixed`: a given number of significant digits, or of places, rounded
  from the exact value with ties to the even digit.
-/

namespace Nlp

/-- The number `mantissa * 2 ^ exponent`. -/
structure Binary where
  /-- The whole factor. -/
  mantissa : Nat
  /-- The power of two. -/
  exponent : Int
deriving DecidableEq

/-- The size of a finite double, exactly. -/
def Double.binary (a : Double) : Binary :=
  let field := ((a.bits &&& Double.exponentMask) >>> 52).toNat
  let fraction := (a.bits &&& Double.fractionMask).toNat
  if field = 0 then ⟨fraction, -1074⟩ else ⟨Nat.pow 2 52 + fraction, (field : Int) - 1075⟩

/-- The number `digits * 10 ^ exponent`. -/
structure Decimal where
  /-- The whole factor. -/
  digits : Nat
  /-- The power of ten. -/
  exponent : Int
deriving DecidableEq

/-- What becomes of a value halfway between two candidates. -/
inductive Tie where
  /-- The candidate with the even last digit. -/
  | toEven
  /-- The larger candidate. -/
  | up
deriving DecidableEq

/-- Whether `num / den` is at least `10 ^ k`. -/
def reachesPower (num den : Nat) (k : Int) : Bool :=
  decide (Nat.pow 10 k.toNat * den ≤ num * Nat.pow 10 (-k).toNat)

/-- The largest `k` with `10 ^ k ≤ num / den`, for positive `num` and `den`.  The binary
logarithms give it up to one on either side. -/
def floorLog10 (num den : Nat) : Int :=
  let guess := ((num.log2 : Int) - (den.log2 : Int)) * 30103 / 100000
  if reachesPower num den (guess + 1) then guess + 1
  else if reachesPower num den guess then guess
  else guess - 1

/-- The natural number nearest to `num / den`, ties to even. -/
def roundHalfEven (num den : Nat) : Nat :=
  let d := num / den
  let rest := 2 * (num % den)
  if rest < den ∨ rest = den ∧ d % 2 = 0 then d else d + 1

namespace Binary

/-- The number as a quotient of naturals. -/
def fraction (b : Binary) : Nat × Nat :=
  (b.mantissa * Nat.pow 2 b.exponent.toNat, Nat.pow 2 (-b.exponent).toNat)

/-- The decimal exponent of the leading digit. -/
def leading (b : Binary) : Int :=
  floorLog10 b.fraction.1 b.fraction.2

/-- The grid `10 ^ k` against the quarter steps of a double: the value `u * 2 ^ (q - 2)` is
`u * steps / cells` times `10 ^ k`. -/
def gridRatio (b : Binary) (k : Int) : Nat × Nat :=
  (Nat.pow 2 (b.exponent - 2).toNat * Nat.pow 10 (-k).toNat,
    Nat.pow 2 (2 - b.exponent).toNat * Nat.pow 10 k.toNat)

/-- The point of the grid `10 ^ k` that reads back as the double, if there is one: of the two
grid points around it, the nearer that lies in the interval of numbers rounding to it.  The ends
belong to the interval of an even mantissa. -/
def onGrid? (tie : Tie) (b : Binary) (k : Int) : Option Nat :=
  let (steps, cells) := b.gridRatio k
  let value := 4 * b.mantissa * steps
  let below := if b.mantissa = Nat.pow 2 52 ∧ -1074 < b.exponent then 1 else 2
  let low := (4 * b.mantissa - below) * steps
  let high := (4 * b.mantissa + 2) * steps
  let closed := b.mantissa % 2 = 0
  let d := value / cells
  let rest := 2 * (value % cells)
  let downOk := low < d * cells ∨ closed ∧ low = d * cells
  let upOk := (d + 1) * cells < high ∨ closed ∧ (d + 1) * cells = high
  let preferDown := rest < cells ∨ rest = cells ∧ tie = .toEven ∧ d % 2 = 0
  if downOk ∧ (preferDown ∨ ¬ upOk) then some d
  else if upOk then some (d + 1)
  else none

/-- The first grid, from `k` downwards, that holds a point reading back as the double. -/
def firstGrid (tie : Tie) (b : Binary) : (grids : Nat) → (k : Int) → Decimal
  | 0, k => ⟨(b.onGrid? tie k).getD 0, k⟩
  | grids + 1, k =>
    match b.onGrid? tie k with
    | some d => ⟨d, k⟩
    | none => firstGrid tie b grids (k - 1)

/-- The shortest digits of a positive double.  Seventeen always suffice. -/
def shortest (tie : Tie) (b : Binary) : Decimal :=
  firstGrid tie b 17 b.leading

/-- The number to `places + 1` significant digits. -/
def rounded (b : Binary) (places : Nat) : Decimal :=
  let k := b.leading - places
  let (num, den) := b.fraction
  let d := roundHalfEven (num * Nat.pow 10 (-k).toNat) (den * Nat.pow 10 k.toNat)
  if d = Nat.pow 10 (places + 1) then ⟨Nat.pow 10 places, k + 1⟩ else ⟨d, k⟩

/-- The number to `places` places, as a multiple of the last place. -/
def fixed (b : Binary) (places : Nat) : Nat :=
  let (num, den) := b.fraction
  roundHalfEven (num * Nat.pow 10 places) den

end Binary

end Nlp
