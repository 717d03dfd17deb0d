import Nlp.Double

/-!
# JSON values

A JSON value with its objects as they were written, in order and with repeated keys, and with
integers apart from other numbers.

## Main definitions

* `Json`: the value, with a decidable equality.
* `Json.record?`, `Json.variant?`: an object read as a record of known fields, and a text read as
  one of some names.
* `Json.double?`, `Json.natural?` and the other readers of single values.
-/

namespace Nlp

/-- A JSON value. -/
inductive Json where
  /-- The value `null`. -/
  | null
  /-- A truth value. -/
  | bool (b : Bool)
  /-- An integer from `-2^63` up to, not including, `2^64`. -/
  | int (i : Int)
  /-- Any other number that is a double. -/
  | real (d : Double)
  /-- A text. -/
  | text (s : String)
  /-- A list. -/
  | array (items : List Json)
  /-- An object. -/
  | object (fields : List (String × Json))
  /-- Well-formed writing that denotes no value: a number beyond all doubles, or a text with half
  a surrogate pair.  It may stand where nobody reads it. -/
  | unreadable
deriving Inhabited

namespace Json

/-! ## Equality -/

mutual

/-- Two values are the same, item by item and field by field. -/
def same : Json → Json → Bool
  | .null, .null => true
  | .bool a, .bool b => a = b
  | .int a, .int b => a = b
  | .real a, .real b => a = b
  | .text a, .text b => a = b
  | .array a, .array b => sameItems a b
  | .object a, .object b => sameFields a b
  | .unreadable, .unreadable => true
  | _, _ => false

/-- Two lists of values are the same. -/
def sameItems : List Json → List Json → Bool
  | [], [] => true
  | a :: as, b :: bs => same a b && sameItems as bs
  | _, _ => false

/-- Two lists of fields are the same. -/
def sameFields : List (String × Json) → List (String × Json) → Bool
  | [], [] => true
  | (k, a) :: as, (l, b) :: bs => k = l && same a b && sameFields as bs
  | _, _ => false

end

mutual

theorem same_iff (a b : Json) : same a b = true ↔ a = b := by
  cases a <;> cases b <;> simp [same, sameItems_iff, sameFields_iff]

theorem sameItems_iff (as bs : List Json) : sameItems as bs = true ↔ as = bs := by
  cases as <;> cases bs <;> simp [sameItems, same_iff, sameItems_iff]

theorem sameFields_iff (as bs : List (String × Json)) : sameFields as bs = true ↔ as = bs := by
  match as, bs with
  | [], [] | [], _ :: _ | _ :: _, [] => simp [sameFields]
  | (k, a) :: as, (l, b) :: bs => simp [sameFields, same_iff, sameFields_iff]

end

instance : DecidableEq Json :=
  fun a b => decidable_of_iff (same a b = true) (same_iff a b)

/-! ## Numbers -/

/-- The doubles as numbers; what is no number becomes `null`. -/
def ofDouble (d : Double) : Json :=
  if d.isFinite then .real d else .null

/-- A natural number. -/
def ofNat (n : Nat) : Json := .int n

/-! ## Readers -/

/-- A text. -/
def text? : Json → Option String
  | .text s => some s
  | _ => none

/-- A truth value. -/
def bool? : Json → Option Bool
  | .bool b => some b
  | _ => none

/-- A natural number below `2 ^ bits`. -/
def natural? (bits : Nat) : Json → Option Nat
  | .int i => if 0 ≤ i ∧ i.toNat < Nat.pow 2 bits then some i.toNat else none
  | _ => none

/-- A number, integers included. -/
def double? : Json → Option Double
  | .int i => some (Double.ofInt i)
  | .real d => some d
  | _ => none

/-- A list whose items all read. -/
def list? {α : Type} (item? : Json → Option α) : Json → Option (List α)
  | .array items => items.mapM item?
  | _ => none

/-- The value of a field that is there exactly once. -/
def single? (fields : List (String × Json)) (name : String) : Option Json :=
  match fields.filter fun field => field.1 == name with
  | [field] => some field.2
  | _ => none

/-- The values of a record's fields, in the order of their names: an object has each of them
exactly once, whatever else it has, and a list gives them in order and nothing else. -/
def record? (names : List String) : Json → Option (List Json)
  | .object fields => names.mapM (single? fields)
  | .array items => if items.length = names.length then some items else none
  | _ => none

/-- One of some names: as a text, or as the only key of an object with value `null`. -/
def variant? {α : Type} (table : List (String × α)) : Json → Option α
  | .text s => table.lookup s
  | .object [(s, .null)] => table.lookup s
  | _ => none

/-- The first value of a field of an object. -/
def field? (j : Json) (name : String) : Option Json :=
  match j with
  | .object fields => fields.lookup name
  | _ => none

end Json

end Nlp
