import Nlp.Decimal.Shortest

/-!
# Decimal texts of a double

Where the digits of a double are put.  A `Style` holds the decisions of a shortest text; the
library uses four of them.  Texts with a given number of places are written by
`Double.withPlaces` and `Double.inScientific`.
-/

namespace Nlp

/-- The decisions of a shortest decimal text. -/
structure Style where
  /-- Which of two equally near candidates is written. -/
  tie : Tie
  /-- The decimal exponents written positionally; none stands for all of them. -/
  positional : Option (Int × Int)
  /-- A positional text without places ends in `.0`. -/
  keepsPoint : Bool
  /-- What stands before a positive exponent. -/
  positiveMark : String
deriving DecidableEq

/-- Shortest digits, never an exponent. -/
def Style.plain : Style := ⟨.up, none, false, "e"⟩

/-- Shortest digits, always an exponent. -/
def Style.scientific : Style := ⟨.up, some (1, 0), false, "e"⟩

/-- The text of a record field: positional from `1e-4` up to `1e16`, always with a point there. -/
def Style.field : Style := ⟨.up, some (-4, 15), true, "e"⟩

/-- The text of a JSON number: positional from `1e-5` up to `1e16`, always with a point there,
and a sign on every exponent. -/
def Style.json : Style := ⟨.toEven, some (-5, 15), true, "e+"⟩

/-- A number without the zeros at its end, and how many there were; zero has none.  The first
argument bounds the zeros taken off. -/
def stripZeros : (most : Nat) → Nat → Nat × Nat
  | 0, d => (d, 0)
  | most + 1, d =>
    if d ≠ 0 ∧ d % 10 = 0 then
      let (core, zeros) := stripZeros most (d / 10)
      (core, zeros + 1)
    else (d, 0)

/-- A text of `count` zeros. -/
def zeros (count : Nat) : String :=
  String.ofList (List.replicate count '0')

/-- The digits of a number, with a point `places` digits before the end. -/
def insertPoint (digits : String) (places : Nat) : String :=
  let padded := zeros (places + 1 - digits.length) ++ digits
  let whole := padded.length - places
  String.ofList (padded.toList.take whole) ++ "." ++ String.ofList (padded.toList.drop whole)

namespace Decimal

/-- The digits and the exponent of the last one, with no zero at the end. -/
def normalize (d : Decimal) : Decimal :=
  let (core, count) := stripZeros 400 d.digits
  ⟨core, d.exponent + count⟩

/-- The digits in positional writing. -/
def positional (d : Decimal) (keepsPoint : Bool) : String :=
  let digits := toString d.digits
  if 0 ≤ d.exponent then
    digits ++ zeros d.exponent.toNat ++ (if keepsPoint then ".0" else "")
  else insertPoint digits (-d.exponent).toNat

/-- One digit, a point if there are more, the other digits and the exponent. -/
def scientific (d : Decimal) (positiveMark : String) : String :=
  let digits := toString d.digits
  let exponent := d.exponent + (digits.length - 1 : Nat)
  let body := if digits.length = 1 then digits else insertPoint digits (digits.length - 1)
  if 0 ≤ exponent then body ++ positiveMark ++ toString exponent
  else body ++ "e" ++ toString exponent

end Decimal

namespace Double

/-- The text of a size that is no finite number. -/
def specialText (a : Double) : String :=
  if a.isNaN then "NaN" else if a.isNegative then "-inf" else "inf"

/-- The sign of a number, before its digits. -/
def signText (a : Double) (plus : Bool) : String :=
  if a.isNegative then "-" else if plus then "+" else ""

/-- The shortest text of a double in a style. -/
def text (style : Style) (a : Double) : String :=
  if ¬ a.isFinite then a.specialText
  else
    let b := a.binary
    let d := if b.mantissa = 0 then ⟨0, 0⟩ else (b.shortest style.tie).normalize
    let leading := d.exponent + ((toString d.digits).length - 1 : Nat)
    let inRange :=
      match style.positional with
      | none => true
      | some (low, high) => decide (low ≤ leading ∧ leading ≤ high)
    a.signText false ++
      if inRange then d.positional style.keepsPoint else d.scientific style.positiveMark

/-- Shortest digits, never an exponent. -/
def plain (a : Double) : String := a.text .plain

/-- Shortest digits, always an exponent. -/
def scientific (a : Double) : String := a.text .scientific

/-- Scientific writing with a given number of places, and a plus sign if `plus`. -/
def inSignedScientific (plus : Bool) (places : Nat) (a : Double) : String :=
  if a.isNaN then "NaN"
  else if ¬ a.isFinite then if a.isNegative then "-inf" else if plus then "+inf" else "inf"
  else
    let b := a.binary
    let d := if b.mantissa = 0 then ⟨0, -places⟩ else b.rounded places
    let exponent := d.exponent + places
    let digits := toString d.digits
    let body := if places = 0 then digits else insertPoint digits places
    a.signText plus ++ body ++ "e" ++ toString exponent

/-- Scientific writing with a given number of places. -/
def inScientific (places : Nat) (a : Double) : String :=
  a.inSignedScientific false places

/-- Positional writing with a given number of places. -/
def withPlaces (places : Nat) (a : Double) : String :=
  if ¬ a.isFinite then a.specialText
  else
    let digits := toString (a.binary.fixed places)
    a.signText false ++ if places = 0 then digits else insertPoint digits places

end Double

end Nlp
