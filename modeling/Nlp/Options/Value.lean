import Nlp.Error
import Nlp.Json.Basic

/-!
# Option values

A value given for an option, with the tests an option makes of it.

## Main definitions

* `OptionValue`: a truth value, a 64-bit integer, a number or a text.
* `OptionValue.positive`, `OptionValue.intIn`, `OptionValue.count`: the value as what an option
  needs, or the reason it is refused.
* `OptionValue.toJson`, `OptionValue.ofJson?`: the value without a tag.
-/

namespace Nlp

/-- A value given for an option. -/
inductive OptionValue where
  /-- A truth value. -/
  | bool (b : Bool)
  /-- An integer of 64 bits. -/
  | int (i : Int64)
  /-- A number. -/
  | float (d : Double)
  /-- A text. -/
  | text (s : String)
deriving DecidableEq, Inhabited

namespace OptionValue

/-- The natural number, or the largest integer of 64 bits if it is smaller. -/
def ofNat (n : Nat) : OptionValue :=
  .int (Int64.ofNat (min n Int64.maxValue.toNatClampNeg))

/-- The value in words. -/
def display : OptionValue → String
  | bool b => if b then "true" else "false"
  | int i => toString i.toInt
  | float d => d.scientific
  | text s => s

/-- The name of the value's type. -/
def typeName : OptionValue → String
  | bool _ => "bool"
  | int _ => "integer"
  | float _ => "float"
  | text _ => "text"

/-- A number has to be positive and finite. -/
def requirePositive (key : String) (d : Double) : Except (Error Double) Double :=
  if 0 < d ∧ d.isFinite then .ok d else .error (.invalidOption key (.notPositive d))

/-- The value as a positive finite number; an integer is one too. -/
def positive (v : OptionValue) (key : String) : Except (Error Double) Double :=
  match v with
  | float d => requirePositive key d
  | int i => requirePositive key (Double.ofInt i.toInt)
  | other => .error (.invalidOption key (.notNumber other.typeName))

/-- The value as an integer from `low` to `high`. -/
def intIn (v : OptionValue) (key : String) (low high : Int) : Except (Error Double) Int :=
  match v with
  | int i =>
    if low ≤ i.toInt ∧ i.toInt ≤ high then .ok i.toInt
    else .error (.invalidOption key (.outOfRange low high i.toInt))
  | other => .error (.invalidOption key (.notInteger other.typeName))

/-- The value as a positive number of things. -/
def count (v : OptionValue) (key : String) : Except (Error Double) Nat :=
  Int.toNat <$> v.intIn key 1 Int64.maxValue.toInt

/-- The value without a tag. -/
def toJson : OptionValue → Json
  | bool b => .bool b
  | int i => .int i.toInt
  | float d => Json.ofDouble d
  | text s => .text s

/-- A value without a tag: an integer of 64 bits is one, and every other number is a double. -/
def ofJson? : Json → Option OptionValue
  | .bool b => some (bool b)
  | .int i =>
    if Int64.minValue.toInt ≤ i ∧ i ≤ Int64.maxValue.toInt then some (int (Int64.ofInt i))
    else some (float (Double.ofInt i))
  | .real d => some (float d)
  | .text s => some (text s)
  | _ => none

end OptionValue

end Nlp
