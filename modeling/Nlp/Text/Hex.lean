/-!
# Hexadecimal text

Bytes as text, two digits each.

## Main results

* `decode_encode`: what is written reads back.
-/

namespace Nlp.Hex

/-- A digit below 16. -/
def digit (n : Nat) : Char :=
  if n < 10 then Char.ofNat ('0'.toNat + n) else Char.ofNat ('a'.toNat + n - 10)

/-- The value of a digit, in either case. -/
def digit? (c : Char) : Option Nat :=
  if '0' ≤ c ∧ c ≤ '9' then some (c.toNat - '0'.toNat)
  else if 'a' ≤ c ∧ c ≤ 'f' then some (c.toNat - 'a'.toNat + 10)
  else if 'A' ≤ c ∧ c ≤ 'F' then some (c.toNat - 'A'.toNat + 10)
  else none

/-- The digits of some bytes. -/
def encode : List UInt8 → List Char
  | [] => []
  | b :: bytes => digit (b.toNat / 16) :: digit (b.toNat % 16) :: encode bytes

/-- The bytes of some digits. -/
def decode : List Char → Option (List UInt8)
  | [] => some []
  | [_] => none
  | high :: low :: rest => do
    let b := UInt8.ofNat (16 * (← digit? high) + (← digit? low))
    return b :: (← decode rest)

theorem digit?_digit {n : Nat} (h : n < 16) : digit? (digit n) = some n := by
  have all : ∀ k : Fin 16, digit? (digit k) = some k.val := by decide
  exact all ⟨n, h⟩

/-- What is written reads back. -/
theorem decode_encode (bytes : List UInt8) : decode (encode bytes) = some bytes := by
  induction bytes with
  | nil => rfl
  | cons b bytes ih =>
    have hb : b.toNat < 256 := b.toNat_lt
    have high := digit?_digit (n := b.toNat / 16) (by omega)
    have low := digit?_digit (n := b.toNat % 16) (by omega)
    have join : UInt8.ofNat (16 * (b.toNat / 16) + b.toNat % 16) = b := by
      rw [Nat.div_add_mod, UInt8.ofNat_toNat]
    simp only [encode, decode, high, low, ih, Option.bind_eq_bind, Option.bind_some, join]
    rfl

end Nlp.Hex
