import Nlp.Text.Utf8
import Mathlib.Tactic.Common

/-!
# UTF-8 texts are read back

The bytes of a character are read as that character, whatever comes after them, and so the bytes of
a text as that text.

## Main results

* `Utf8.next_utf8EncodeChar`, `Utf8.decode_encode`.
-/

namespace Nlp.Utf8

theorem width_ofNat {k : Nat} (hk : k < 256) :
    width (UInt8.ofNat k) =
      if k < 0x80 then 1
      else if k < 0xC2 then 0
      else if k < 0xE0 then 2
      else if k < 0xF0 then 3
      else if k < 0xF5 then 4
      else 0 := by
  simp only [width, UInt8.lt_iff_toNat_lt, UInt8.toNat_ofNat', Nat.mod_eq_of_lt hk]
  rfl

theorem isContinuation_ofNat {k : Nat} (hk : k < 0x40) :
    isContinuation (UInt8.ofNat (k + 0x80)) = true := by
  have hbound : k + 0x80 < 256 := by omega
  simp only [isContinuation, UInt8.lt_iff_toNat_lt, UInt8.le_iff_toNat_le, UInt8.toNat_ofNat',
    Nat.mod_eq_of_lt hbound, Bool.and_eq_true, decide_eq_true_eq]
  exact ⟨Nat.le_add_left _ _, show k + 0x80 < 0xC0 by omega⟩

theorem payload_ofNat {k : Nat} (hk : k < 0x40) : payload (UInt8.ofNat (k + 0x80)) = k := by
  have hbound : k + 0x80 < 256 := by omega
  rw [payload, UInt8.toNat_ofNat', Nat.mod_eq_of_lt hbound]
  omega

theorem mayFollow_ofNat {a k : Nat} (ha : a < 256) (hk : k < 0x40) (hE0 : a = 0xE0 → 0x20 ≤ k)
    (hED : a = 0xED → k < 0x20) (hF0 : a = 0xF0 → 0x10 ≤ k) (hF4 : a = 0xF4 → k < 0x10) :
    mayFollow (UInt8.ofNat a) (UInt8.ofNat (k + 0x80)) = true := by
  have hbound : k + 0x80 < 256 := by omega
  have hfirst : ∀ b : UInt8, (UInt8.ofNat a == b) = decide (a = b.toNat) := by
    intro b
    rw [Bool.eq_iff_iff, beq_iff_eq, decide_eq_true_iff, ← UInt8.toNat_inj, UInt8.toNat_ofNat',
      Nat.mod_eq_of_lt ha]
  simp only [mayFollow, isContinuation_ofNat hk, hfirst, UInt8.lt_iff_toNat_lt,
    UInt8.le_iff_toNat_le, UInt8.toNat_ofNat', Nat.mod_eq_of_lt hbound, UInt8.reduceToNat,
    Bool.true_and, Bool.and_eq_true, Bool.not_eq_true', Bool.and_eq_false_iff,
    decide_eq_false_iff_not]
  omega

section

variable {a b d e : UInt8} {rest : List UInt8}

theorem next_one (hwidth : width a = 1) : next (a :: rest) = .ok (Char.ofNat a.toNat, rest) := by
  simp [next, hwidth]

theorem next_two (hwidth : width a = 2) (hfollow : mayFollow a b = true) :
    next (a :: b :: rest) = .ok (Char.ofNat (a.toNat % 0x20 * 0x40 + payload b), rest) := by
  simp [next, hwidth, hfollow]

theorem next_three (hwidth : width a = 3) (hfollow : mayFollow a b = true)
    (hd : isContinuation d = true) :
    next (a :: b :: d :: rest) =
      .ok (Char.ofNat ((a.toNat % 0x10 * 0x40 + payload b) * 0x40 + payload d), rest) := by
  simp [next, hwidth, hfollow, hd]

theorem next_four (hwidth : width a = 4) (hfollow : mayFollow a b = true)
    (hd : isContinuation d = true) (he : isContinuation e = true) :
    next (a :: b :: d :: e :: rest) =
      .ok (Char.ofNat
        (((a.toNat % 8 * 0x40 + payload b) * 0x40 + payload d) * 0x40 + payload e), rest) := by
  simp [next, hwidth, hfollow, hd, he]

end

/-- The bytes of a character are read as the character. -/
theorem next_utf8EncodeChar (c : Char) (rest : List UInt8) :
    next (String.utf8EncodeChar c ++ rest) = .ok (c, rest) := by
  have hvalid := c.valid
  have hchar : Char.ofNat c.val.toNat = c := Char.ofNat_toNat c
  unfold String.utf8EncodeChar
  generalize hv : c.val.toNat = v at hchar
  have hrange : v < 0xD800 ∨ 0xDFFF < v ∧ v < 0x110000 := hv ▸ hvalid
  have hlow : ∀ k, k % 0x40 < 0x40 := fun k => Nat.mod_lt k (by decide)
  dsimp only
  -- one case for each number of bytes
  by_cases h1 : v ≤ 0x7f
  · have hwidth : width (UInt8.ofNat v) = 1 := by
      rw [width_ofNat (by omega), if_pos (by omega)]
    rw [if_pos h1, List.singleton_append, next_one hwidth, UInt8.toNat_ofNat',
      Nat.mod_eq_of_lt (by omega), hchar]
  rw [if_neg h1]
  by_cases h2 : v ≤ 0x7ff
  · have hwidth : width (UInt8.ofNat (v / 64 % 0x20 + 0xc0)) = 2 := by
      rw [width_ofNat (by omega), if_neg (by omega), if_neg (by omega), if_pos (by omega)]
    have hfollow := @mayFollow_ofNat (v / 64 % 0x20 + 0xc0) (v % 0x40) (by omega) (hlow v)
      (by omega) (by omega) (by omega) (by omega)
    have hvalue : (v / 64 % 0x20 + 0xc0) % 256 % 0x20 * 0x40 + v % 0x40 = v := by omega
    rw [if_pos h2, List.cons_append, List.singleton_append, next_two hwidth hfollow,
      UInt8.toNat_ofNat', payload_ofNat (hlow v), hvalue, hchar]
  rw [if_neg h2]
  by_cases h3 : v ≤ 0xffff
  · have hwidth : width (UInt8.ofNat (v / 4096 % 0x10 + 0xe0)) = 3 := by
      rw [width_ofNat (by omega), if_neg (by omega), if_neg (by omega), if_neg (by omega),
        if_pos (by omega)]
    have hfollow := @mayFollow_ofNat (v / 4096 % 0x10 + 0xe0) (v / 64 % 0x40) (by omega)
      (hlow _) (by omega) (by omega) (by omega) (by omega)
    have hvalue : ((v / 4096 % 0x10 + 0xe0) % 256 % 0x10 * 0x40 + v / 64 % 0x40) * 0x40 + v % 0x40 =
        v := by omega
    rw [if_pos h3, List.cons_append, List.cons_append, List.singleton_append,
      next_three hwidth hfollow (isContinuation_ofNat (hlow v)), UInt8.toNat_ofNat',
      payload_ofNat (hlow _), payload_ofNat (hlow v), hvalue, hchar]
  · have hwidth : width (UInt8.ofNat (v / 262144 % 0x08 + 0xf0)) = 4 := by
      rw [width_ofNat (by omega), if_neg (by omega), if_neg (by omega), if_neg (by omega),
        if_neg (by omega), if_pos (by omega)]
    have hfollow := @mayFollow_ofNat (v / 262144 % 0x08 + 0xf0) (v / 4096 % 0x40) (by omega)
      (hlow _) (by omega) (by omega) (by omega) (by omega)
    have hvalue : (((v / 262144 % 0x08 + 0xf0) % 256 % 8 * 0x40 + v / 4096 % 0x40) * 0x40 +
        v / 64 % 0x40) * 0x40 + v % 0x40 = v := by omega
    rw [if_neg h3, List.cons_append, List.cons_append, List.cons_append, List.singleton_append,
      next_four hwidth hfollow (isContinuation_ofNat (hlow _)) (isContinuation_ofNat (hlow v)),
      UInt8.toNat_ofNat', payload_ofNat (hlow _), payload_ofNat (hlow _), payload_ofNat (hlow v),
      hvalue, hchar]

theorem length_utf8EncodeChar_pos (c : Char) : 0 < (String.utf8EncodeChar c).length := by
  rw [String.length_utf8EncodeChar]
  exact c.utf8Size_pos

theorem characters_encode (l : List Char) {most : Nat} (index : Nat)
    (hmost : (l.flatMap String.utf8EncodeChar).length ≤ most) :
    characters most index (l.flatMap String.utf8EncodeChar) = .ok l := by
  -- on the characters: each has at least one byte, so the steps suffice
  induction l generalizing most index with
  | nil => cases most <;> rfl
  | cons c l ih =>
    have hpos := length_utf8EncodeChar_pos c
    rw [List.flatMap_cons, List.length_append] at hmost
    obtain ⟨most, rfl⟩ : ∃ m, most = m + 1 := ⟨most - 1, by omega⟩
    have hsome : (String.utf8EncodeChar c ++ l.flatMap String.utf8EncodeChar).isEmpty = false := by
      rw [List.isEmpty_eq_false_iff, ← List.length_pos_iff, List.length_append]
      omega
    rw [List.flatMap_cons, characters, hsome, next_utf8EncodeChar]
    simp only [Bool.false_eq_true, if_false]
    rw [ih _ (by omega)]
    rfl

/-- The bytes of a text are read as the text. -/
theorem decode_encode (s : String) : decode (encode s) = .ok s := by
  rw [decode, encode, characters_encode _ _ (Nat.le_refl _)]
  exact congrArg Except.ok String.ofList_toList

end Nlp.Utf8
