import Nlp.Proofs.Group.Conclusion

/-!
# Messages are unambiguous

A message is read as the value it was made of, to its last byte and no further, so no message is
the start of another one.  A collective sends a value only if every count and index in it is a
word, which is what the types of a rank's memory allow; all lemmas are about such values.

## Main definitions

* `Wire.Unambiguous`: what sender and receiver of a type may rely on.

## Main results

* `Wire.eq_of_prefix`: no message is the start of the message of another value.
* `Wire.messages_unambiguous`: the types that travel between ranks.
-/

namespace Nlp

variable {τ : Type} [Wire τ]

namespace Task

/-- The bytes a collective sends for a value, if it sends any. -/
theorem encode_eq_pure_iff {v : τ} {bytes : Bytes} :
    encode v = pure bytes ↔ Wire.extent v < Wire.wordLimit ∧ Wire.toBytes v = bytes := by
  constructor
  · intro hsent
    by_cases h : Wire.extent v < Wire.wordLimit
    · rw [encode_of_lt h] at hsent
      injection hsent with hbytes
      injection hbytes with hbytes
      exact ⟨h, hbytes⟩
    · rw [encode, if_neg h] at hsent
      -- a rank that stops here calls its model, and does not go on
      cases hsent
  · rintro ⟨h, rfl⟩
    exact encode_of_lt h

end Task

namespace Wire

variable [Faithful τ] {v w : τ}

/-! ## The front of a message -/

theorem run_decode_toBytes (h : extent v < wordLimit) (rest : Bytes) :
    (decode : Reader τ).run (toBytes v ++ rest) = .ok (v, rest) :=
  Faithful.reads v h rest

/-- A collective ignores what comes after a message. -/
theorem decode_toBytes_append (h : extent v < wordLimit) (rest : Bytes) :
    (Task.decode (toBytes v ++ rest) : Task τ) = pure v := by
  rw [Task.decode, ofBytes, run_decode_toBytes h]
  rfl

/-- No message is the start of the message of another value. -/
theorem eq_of_prefix (hv : extent v < wordLimit) (hw : extent w < wordLimit)
    (h : toBytes v <+: toBytes w) : v = w := by
  obtain ⟨rest, hrest⟩ := h
  -- the longer message is read twice: as the shorter one with bytes after it, and as itself
  have hshort := run_decode_toBytes hv rest
  have hlong := run_decode_toBytes hw []
  rw [List.append_nil, ← hrest, hshort] at hlong
  simp only [Except.ok.injEq, Prod.mk.injEq] at hlong
  exact hlong.1

/-! ## Types -/

/-- Sender and receiver of values of this type understand each other. -/
structure Unambiguous (τ : Type) [Wire τ] : Prop where
  /-- A collective sends the message of a value, if its counts and indices are words. -/
  sent : ∀ (v : τ) (bytes : Bytes),
    Task.encode v = pure bytes ↔ extent v < wordLimit ∧ toBytes v = bytes
  /-- A reader takes exactly the bytes of the message, as this value. -/
  read : ∀ v : τ, extent v < wordLimit → Reads decode (toBytes v) v
  /-- A collective makes this value of the message, whatever comes after it. -/
  received : ∀ v : τ, extent v < wordLimit →
    ∀ rest, (Task.decode (toBytes v ++ rest) : Task τ) = pure v
  /-- Two values do not share a message. -/
  injective : ∀ v w : τ, extent v < wordLimit → extent w < wordLimit →
    toBytes v = toBytes w → v = w
  /-- The message of a value does not start the message of another one. -/
  prefixFree : ∀ v w : τ, extent v < wordLimit → extent w < wordLimit →
    toBytes v <+: toBytes w → v = w

theorem unambiguous (τ : Type) [Wire τ] [Faithful τ] : Unambiguous τ where
  sent _ _ := Task.encode_eq_pure_iff
  read v h := Faithful.reads v h
  received _ h rest := decode_toBytes_append h rest
  injective v w hv hw h := by
    apply eq_of_prefix hv hw
    rw [h]
  prefixFree _ _ hv hw h := eq_of_prefix hv hw h

/-- **What ranks tell each other is unambiguous**: commands, reports of columns, snapshots, and
the answers of a handshake. -/
theorem messages_unambiguous :
    Unambiguous Command ∧ Unambiguous ColumnReport ∧ Unambiguous (Snapshot Double) ∧
      Unambiguous (Option String) :=
  ⟨unambiguous Command, unambiguous ColumnReport, unambiguous (Snapshot Double),
    unambiguous (Option String)⟩

/-- A point with a NaN that has a payload, an infinity and a negative zero. -/
example :
    (decode : Reader Command).run (toBytes (Command.columns
      [⟨0x7FF0000000000001⟩, ⟨0xFFF0000000000000⟩, ⟨0x8000000000000000⟩]
      (.complex ⟨0x3FF0000000000000⟩) .roundRobin) ++ [7, 9]) =
    .ok (.columns [⟨0x7FF0000000000001⟩, ⟨0xFFF0000000000000⟩, ⟨0x8000000000000000⟩]
      (.complex ⟨0x3FF0000000000000⟩) .roundRobin, [7, 9]) := by
  rfl

end Wire

end Nlp
