import Nlp.Decimal.Numeral
import Nlp.Json.Basic
import Nlp.Text.Hex

/-!
# Reading JSON

Strict JSON: no trailing commas, no leading zeros, no control characters in texts, blanks around
values.  Every reader takes the characters ahead and gives a value and the characters after it.
-/

namespace Nlp.Json

/-- The characters after the blanks ahead. -/
def skipBlanks : List Char → List Char
  | c :: rest => if c = ' ' ∨ c = '\t' ∨ c = '\n' ∨ c = '\r' then skipBlanks rest else c :: rest
  | [] => []

/-! ## Numbers -/

/-- The digits ahead, and the characters after them. -/
def digits : List Char → List Nat × List Char
  | c :: rest =>
    if c.isDigit then
      let (ds, rest) := digits rest
      ((c.toNat - '0'.toNat) :: ds, rest)
    else ([], c :: rest)
  | [] => ([], [])

/-- The digits of a whole part: one zero, or digits that do not start with one. -/
def wholeDigits? (input : List Char) : Option (List Nat × List Char) :=
  match input with
  | '0' :: rest => if rest.head?.any Char.isDigit then none else some ([0], rest)
  | _ =>
    match digits input with
    | ([], _) => none
    | out => some out

/-- The digits after a point, if there is one. -/
def places? (input : List Char) : Option (Option (List Nat) × List Char) :=
  match input with
  | '.' :: rest =>
    match digits rest with
    | ([], _) => none
    | (ds, rest) => some (some ds, rest)
  | _ => some (none, input)

/-- A decimal exponent, if there is one. -/
def exponent? (input : List Char) : Option (Option Int × List Char) :=
  match input with
  | c :: rest =>
    if c = 'e' ∨ c = 'E' then
      let (negative, rest) :=
        match rest with
        | '-' :: rest => (true, rest)
        | '+' :: rest => (false, rest)
        | rest => (false, rest)
      match digits rest with
      | ([], _) => none
      | (ds, rest) =>
        let n : Int := Numeral.ofDigits ds
        some (some (if negative then -n else n), rest)
    else some (none, input)
  | [] => some (none, [])

/-- A numeral. -/
def numeral? (input : List Char) : Option (Numeral × List Char) := do
  let (negative, input) :=
    match input with
    | '-' :: rest => (true, rest)
    | _ => (false, input)
  let (whole, input) ← wholeDigits? input
  let (places, input) ← places? input
  let (exponent, input) ← exponent? input
  return (⟨negative, whole, places, exponent⟩, input)

/-- The value of a numeral: an integer if it is written as one and fits, otherwise a double. -/
def ofNumeral (n : Numeral) : Json :=
  match n.integer? with
  | some i => .int i
  | none => if n.toDouble.isFinite then .real n.toDouble else .unreadable

/-! ## Texts -/

/-- The value of four hexadecimal digits. -/
def hexUnit? (a b c d : Char) : Option Nat := do
  return (((← Hex.digit? a) * 16 + (← Hex.digit? b)) * 16 + (← Hex.digit? c)) * 16 +
    (← Hex.digit? d)

/-- The character an escape of one letter stands for. -/
def escaped? : Char → Option Char
  | '"' => some '"'
  | '\\' => some '\\'
  | '/' => some '/'
  | 'b' => some '\x08'
  | 'f' => some '\x0c'
  | 'n' => some '\n'
  | 'r' => some '\r'
  | 't' => some '\t'
  | _ => none

/-- One unit of a text: a character, or half of a pair that has no other half. -/
abbrev Unit16 : Type := Option Char

/-- The character of two halves of a pair. -/
def pairChar (high low : Nat) : Char :=
  Char.ofNat (0x10000 + (high - 0xD800) * 0x400 + (low - 0xDC00))

/-- The units of a text up to its closing quote, last unit first, and the characters after it.
The halves of a pair are joined; a half alone is no character. -/
def units? (units : List Unit16) : List Char → Option (List Unit16 × List Char)
  | '"' :: rest => some (units, rest)
  | '\\' :: 'u' :: a :: b :: c :: d :: '\\' :: 'u' :: a' :: b' :: c' :: d' :: rest => do
    let unit ← hexUnit? a b c d
    if 0xD800 ≤ unit ∧ unit < 0xDC00 then
      let next ← hexUnit? a' b' c' d'
      if 0xDC00 ≤ next ∧ next < 0xE000 then
        units? (some (pairChar unit next) :: units) rest
      else
        units? (none :: units) ('\\' :: 'u' :: a' :: b' :: c' :: d' :: rest)
    else
      let item := if 0xDC00 ≤ unit ∧ unit < 0xE000 then none else some (Char.ofNat unit)
      units? (item :: units) ('\\' :: 'u' :: a' :: b' :: c' :: d' :: rest)
  | '\\' :: 'u' :: a :: b :: c :: d :: rest => do
    let unit ← hexUnit? a b c d
    units? ((if 0xD800 ≤ unit ∧ unit < 0xE000 then none else some (Char.ofNat unit)) :: units) rest
  | '\\' :: c :: rest => do
    units? (some (← escaped? c) :: units) rest
  | c :: rest => if c.toNat < 0x20 then none else units? (some c :: units) rest
  | [] => none

/-- A text after its opening quote: its characters if each unit is one. -/
def string? (input : List Char) : Option (Option String × List Char) := do
  let (units, rest) ← units? [] input
  return ((units.reverse.mapM id).map String.ofList, rest)

/-! ## Values -/

/-- The characters after a word that is ahead. -/
def word? : List Char → List Char → Option (List Char)
  | [], input => some input
  | w :: ws, c :: rest => if w = c then word? ws rest else none
  | _ :: _, [] => none

/-- An object of these fields; a key that is no text makes it unreadable. -/
def objectOf (fields : List (Option String × Json)) : Json :=
  match fields.mapM fun field => field.1.map fun name => (name, field.2) with
  | some fields => .object fields
  | none => .unreadable

mutual

/-- A value nested at most `depth` deep. -/
def value? : (depth : Nat) → List Char → Option (Json × List Char)
  | 0, _ => none
  | depth + 1, input =>
    match skipBlanks input with
    | '[' :: rest =>
      match skipBlanks rest with
      | ']' :: rest => some (.array [], rest)
      | rest => (items? depth rest).map fun (items, rest) => (.array items, rest)
    | '{' :: rest =>
      match skipBlanks rest with
      | '}' :: rest => some (.object [], rest)
      | rest => (fields? depth rest).map fun (fields, rest) => (objectOf fields, rest)
    | '"' :: rest =>
      (string? rest).map fun (s, rest) => ((s.map Json.text).getD .unreadable, rest)
    | 'n' :: rest => (word? ['u', 'l', 'l'] rest).map fun rest => (.null, rest)
    | 't' :: rest => (word? ['r', 'u', 'e'] rest).map fun rest => (.bool true, rest)
    | 'f' :: rest => (word? ['a', 'l', 's', 'e'] rest).map fun rest => (.bool false, rest)
    | rest => (numeral? rest).map fun (n, rest) => (ofNumeral n, rest)

/-- The items of a list up to its closing bracket, of which there are at most `depth`. -/
def items? : (depth : Nat) → List Char → Option (List Json × List Char)
  | 0, _ => none
  | depth + 1, input => do
    let (item, rest) ← value? depth input
    match skipBlanks rest with
    | ',' :: rest =>
      let (items, rest) ← items? depth rest
      return (item :: items, rest)
    | ']' :: rest => return ([item], rest)
    | _ => none

/-- The fields of an object up to its closing brace, of which there are at most `depth`. -/
def fields? : (depth : Nat) → List Char → Option (List (Option String × Json) × List Char)
  | 0, _ => none
  | depth + 1, input =>
    match skipBlanks input with
    | '"' :: rest => do
      let (name, rest) ← string? rest
      match skipBlanks rest with
      | ':' :: rest =>
        let (value, rest) ← value? depth rest
        match skipBlanks rest with
        | ',' :: rest =>
          let (fields, rest) ← fields? depth rest
          return ((name, value) :: fields, rest)
        | '}' :: rest => return ([(name, value)], rest)
        | _ => none
      | _ => none
    | _ => none

end

/-- The value a text writes.  Nesting, items and fields together are bounded by its length. -/
def parse? (s : String) : Option Json := do
  let input := s.toList
  let (value, rest) ← value? (input.length + 1) input
  match skipBlanks rest with
  | [] => return value
  | _ => none

end Nlp.Json
