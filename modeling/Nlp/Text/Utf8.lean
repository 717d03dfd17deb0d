/-!
# UTF-8

Texts as bytes.  Reading accepts exactly the well-formed sequences and says where and how others
fail: at the first byte that starts no character, with the number of bytes that are wrong there,
or with none if the bytes end inside a character that may still become one.

## Main definitions

* `Utf8.encode`, `Utf8.decode`.
* `Utf8.width`: the length a first byte announces.
-/

namespace Nlp.Utf8

/-- The bytes of a text. -/
def encode (s : String) : List UInt8 :=
  s.toList.flatMap String.utf8EncodeChar

/-- The number of bytes of the character a first byte begins, and zero if it begins none. -/
def width (b : UInt8) : Nat :=
  if b < 0x80 then 1
  else if b < 0xC2 then 0
  else if b < 0xE0 then 2
  else if b < 0xF0 then 3
  else if b < 0xF5 then 4
  else 0

/-- The byte goes on with a character. -/
def isContinuation (b : UInt8) : Bool :=
  0x80 ≤ b && b < 0xC0

/-- The second byte may follow the first: it goes on, the two write no shorter character, no half
of a surrogate pair and nothing beyond the last code point. -/
def mayFollow (first second : UInt8) : Bool :=
  isContinuation second &&
    !(first == 0xE0 && second < 0xA0) && !(first == 0xED && 0xA0 ≤ second) &&
    !(first == 0xF0 && second < 0x90) && !(first == 0xF4 && 0x90 ≤ second)

/-- The six payload bits of a continuation byte. -/
def payload (b : UInt8) : Nat :=
  b.toNat % 0x40

/-- The first character of some bytes and the bytes after it, or the number of bytes that are
wrong, if more bytes could not make them right. -/
def next : List UInt8 → Except (Option Nat) (Char × List UInt8)
  | [] => .error none
  | b :: rest =>
    if width b = 1 then .ok (Char.ofNat b.toNat, rest)
    else if width b = 0 then .error (some 1)
    else
      match rest with
      | [] => .error none
      | c :: rest =>
        if !mayFollow b c then .error (some 1)
        else if width b = 2 then .ok (Char.ofNat (b.toNat % 0x20 * 0x40 + payload c), rest)
        else
          match rest with
          | [] => .error none
          | d :: rest =>
            if !isContinuation d then .error (some 2)
            else if width b = 3 then
              .ok (Char.ofNat ((b.toNat % 0x10 * 0x40 + payload c) * 0x40 + payload d), rest)
            else
              match rest with
              | [] => .error none
              | e :: rest =>
                if !isContinuation e then .error (some 3)
                else
                  .ok (Char.ofNat
                    (((b.toNat % 8 * 0x40 + payload c) * 0x40 + payload d) * 0x40 + payload e),
                    rest)

/-- The characters of some bytes, or the index of the first byte that starts none and the number
of bytes wrong there.  Every character takes a byte, so `most` of them are enough when that many
bytes are ahead. -/
def characters : (most index : Nat) → List UInt8 → Except (Nat × Option Nat) (List Char)
  | 0, _, _ => .ok []
  | most + 1, index, bytes =>
    if bytes.isEmpty then .ok []
    else
      match next bytes with
      | .error bad => .error (index, bad)
      | .ok (c, rest) => (c :: ·) <$> characters most (index + (bytes.length - rest.length)) rest

/-- The text some bytes write. -/
def decode (bytes : List UInt8) : Except (Nat × Option Nat) String :=
  String.ofList <$> characters bytes.length 0 bytes

end Nlp.Utf8
