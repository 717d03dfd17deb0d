/-!
# Faults of wire messages

Why some bytes are no message, with the wording of each fault.
-/

namespace Nlp.Wire

/-- Why some bytes cannot be read. -/
inductive Fault where
  /-- The bytes end inside a word. -/
  | endOfInput
  /-- A text is longer than the bytes left. -/
  | shortText
  /-- A text is not UTF-8: it is valid up to `index`, and `bad` bytes there are wrong, or the text
  ends inside a character. -/
  | notUtf8 (index : Nat) (bad : Option Nat)
  /-- The byte of a truth value is neither zero nor one. -/
  | notBool (byte : Nat)
  /-- The bytes of a character are none. -/
  | notChar
  /-- The tag of an optional value is neither zero nor one. -/
  | notTag (byte : Nat)
  /-- The index of a variant is not below their number. -/
  | notVariant (index count : Nat)
  /-- The index of a result is neither that of a value nor that of an error. -/
  | notResult (index : Nat)
deriving DecidableEq, Repr

/-- The wording of a fault. -/
def Fault.message : Fault → String
  | endOfInput => "io error: unexpected end of file"
  | shortText => "io error: "
  | notUtf8 index (some bad) =>
    "string is not valid utf8: invalid utf-8 sequence of " ++ toString bad ++
      " bytes from index " ++ toString index
  | notUtf8 index none =>
    "string is not valid utf8: incomplete utf-8 byte sequence from index " ++ toString index
  | notBool byte =>
    "invalid u8 while decoding bool, expected 0 or 1, found " ++ toString byte
  | notChar => "char is not valid"
  | notTag byte => "tag for enum is not valid, found " ++ toString byte
  | notVariant index count =>
    "invalid value: integer `" ++ toString index ++ "`, expected variant index 0 <= i < " ++
      toString count
  | notResult index =>
    "invalid value: integer `" ++ toString index ++ "`, expected `Ok` or `Err`"

end Nlp.Wire
