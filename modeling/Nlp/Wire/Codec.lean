import Nlp.Double
import Nlp.Text.Utf8
import Nlp.Wire.Fault

/-!
# The wire format

Values as bytes: fixed-width little-endian words, a word of 64 bits in front of every text and
list, one byte in front of an optional value, and a word of 32 bits in front of the fields of a
variant.  Reading takes a value from the front of some bytes and leaves the others.

## Main definitions

* `Wire τ`: the format of the type `τ`, with `toBytes` and `ofBytes` for whole messages.
* `Wire.word`, `Wire.readWord`, and the formats of the basic types.
* `Wire.readVariant`: the index in front of a variant.
-/

namespace Nlp

/-- Some bytes. -/
abbrev Bytes : Type := List UInt8

/-- A value read from the front of some bytes. -/
abbrev Wire.Reader (τ : Type) : Type := StateT Bytes (Except Wire.Fault) τ

/-- The wire format of a type. -/
class Wire (τ : Type) where
  /-- The bytes of a value. -/
  encode : τ → Bytes
  /-- The value at the front of some bytes. -/
  decode : Wire.Reader τ
  /-- The largest count or index that the bytes of a value have to write. -/
  extent : τ → Nat := fun _ => 0

namespace Wire

/-! ## Words -/

/-- The lowest `width` bytes of a number, lowest first. -/
def word : (width n : Nat) → Bytes
  | 0, _ => []
  | width + 1, n => UInt8.ofNat n :: word width (n / 256)

/-- The number some bytes write, lowest byte first. -/
def wordValue : Bytes → Nat
  | [] => 0
  | b :: rest => b.toNat + 256 * wordValue rest

/-- A fault. -/
def fail {τ : Type} (fault : Fault) : Reader τ :=
  StateT.lift (.error fault)

/-- The next `count` bytes, or `fault` if there are fewer. -/
def takeBytes (fault : Fault) (count : Nat) : Reader Bytes := do
  let bytes ← get
  if bytes.length < count then fail fault
  else
    set (bytes.drop count)
    return bytes.take count

/-- A word of `width` bytes. -/
def readWord (width : Nat) : Reader Nat :=
  wordValue <$> takeBytes .endOfInput width

/-! ## Basic types -/

instance : Wire UInt8 where
  encode n := word 1 n.toNat
  decode := UInt8.ofNat <$> readWord 1

instance : Wire UInt32 where
  encode n := word 4 n.toNat
  decode := UInt32.ofNat <$> readWord 4

instance : Wire UInt64 where
  encode n := word 8 n.toNat
  decode := UInt64.ofNat <$> readWord 8

/-- Counts and indices take 64 bits. -/
instance : Wire Nat where
  encode n := word 8 n
  decode := readWord 8
  extent n := n

instance : Wire Int64 where
  encode n := word 8 n.toUInt64.toNat
  decode := (fun n => (UInt64.ofNat n).toInt64) <$> readWord 8

/-- A double is its bits. -/
instance : Wire Double where
  encode d := word 8 d.bits.toNat
  decode := (fun n => ⟨UInt64.ofNat n⟩) <$> readWord 8

instance : Wire Bool where
  encode b := word 1 b.toNat
  decode := do
    match ← readWord 1 with
    | 0 => return false
    | 1 => return true
    | byte => fail (.notBool byte)

/-- A character is its UTF-8 bytes. -/
instance : Wire Char where
  encode c := String.utf8EncodeChar c
  decode := do
    let bytes ← get
    match bytes with
    | [] => fail .endOfInput
    | _ =>
      match Utf8.next bytes with
      | .ok (c, rest) =>
        set rest
        return c
      | .error _ => fail .notChar

instance : Wire String where
  encode s :=
    let bytes := Utf8.encode s
    word 8 bytes.length ++ bytes
  decode := do
    let bytes ← takeBytes .shortText (← readWord 8)
    match Utf8.decode bytes with
    | .ok s => return s
    | .error (index, bad) => fail (.notUtf8 index bad)
  extent s := (Utf8.encode s).length

/-! ## Type formers -/

variable {σ τ : Type}

instance [Wire τ] : Wire (Option τ) where
  encode
    | none => word 1 0
    | some v => word 1 1 ++ encode v
  decode := do
    match ← readWord 1 with
    | 0 => return none
    | 1 => return some (← decode)
    | byte => fail (.notTag byte)
  extent
    | none => 0
    | some v => extent v

instance [Wire σ] [Wire τ] : Wire (σ × τ) where
  encode v := encode v.1 ++ encode v.2
  decode := return (← decode, ← decode)
  extent v := max (extent v.1) (extent v.2)

/-- `count` values, one after another. -/
def readMany [Wire τ] : (count : Nat) → Reader (List τ)
  | 0 => return []
  | count + 1 => do
    let v ← decode
    let vs ← readMany count
    return v :: vs

instance [Wire τ] : Wire (List τ) where
  encode vs := word 8 vs.length ++ vs.flatMap encode
  decode := do readMany (← readWord 8)
  extent vs := vs.foldr (fun v most => max (extent v) most) vs.length

/-- The index in front of a variant of a type with `count` of them. -/
def readVariant (count : Nat) : Reader Nat := do
  let index ← readWord 4
  if index < count then return index else fail (.notVariant index count)

/-! ## Messages -/

/-- Counts and indices are below this. -/
def wordLimit : Nat := UInt64.size

/-- The message of a value. -/
def toBytes [Wire τ] (v : τ) : Bytes :=
  encode v

/-- The value of a message; bytes after it are ignored. -/
def ofBytes [Wire τ] (bytes : Bytes) : Except Fault τ :=
  Prod.fst <$> (decode : Reader τ).run bytes

end Wire

end Nlp
