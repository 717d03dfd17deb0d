import Nlp.Wire.Message
import Nlp.Proofs.Wire.Utf8
import Mathlib.Tactic.Ring

/-!
# Messages are read back

The bytes of a value are read as that value, whatever comes after them, as long as every count and
index it has to write is a word.

## Main definitions

* `Wire.Reads`: what a reader makes of some bytes.
* `Wire.Faithful`: the types whose values are read back; among them are all types that travel
  between ranks.

## Main results

* `Wire.reads_word`: words are read back.
* `Wire.ofBytes_toBytes`: so are messages.
-/

namespace Nlp.Wire

variable {σ τ : Type}

/-- Whatever comes after these bytes, the reader takes exactly them, as this value. -/
def Reads (x : Reader τ) (bytes : Bytes) (v : τ) : Prop :=
  ∀ rest, x.run (bytes ++ rest) = .ok (v, rest)

namespace Reads

variable {x : Reader σ} {bytes more : Bytes} {u : σ} {v : τ}

theorem pure (v : τ) : Reads (pure v) [] v := fun _ => rfl

/-- To read one thing after another is to go on where the first ended. -/
theorem bind {f : σ → Reader τ} (hx : Reads x bytes u) (hf : Reads (f u) more v) :
    Reads (x >>= f) (bytes ++ more) v := by
  intro rest
  rw [List.append_assoc, StateT.run_bind, hx]
  exact hf rest

theorem map (f : σ → τ) (hx : Reads x bytes u) : Reads (f <$> x) bytes (f u) := by
  intro rest
  rw [StateT.run_map, hx]
  rfl

theorem bind_pure (f : σ → τ) (hx : Reads x bytes u) :
    Reads (x >>= fun a => Pure.pure (f a)) bytes (f u) := by
  rw [← List.append_nil bytes]
  exact hx.bind (pure (f u))

end Reads

/-- The values of the type are read back. -/
class Faithful (τ : Type) [Wire τ] : Prop where
  reads : ∀ v : τ, Wire.extent v < wordLimit → Reads Wire.decode (Wire.encode v) v

/-! ## Words -/

@[simp] theorem length_word (width n : Nat) : (word width n).length = width := by
  induction width generalizing n with
  | zero => rfl
  | succ width ih => simp [word, ih]

theorem wordValue_word {width n : Nat} (h : n < 256 ^ width) : wordValue (word width n) = n := by
  -- on the bytes, of which the lowest comes first
  induction width generalizing n with
  | zero =>
    rw [Nat.pow_zero] at h
    exact (Nat.lt_one_iff.mp h).symm
  | succ width ih =>
    have hdiv : n / 256 < 256 ^ width :=
      Nat.div_lt_of_lt_mul (by rwa [Nat.pow_succ, Nat.mul_comm] at h)
    rw [word, wordValue, ih hdiv, UInt8.toNat_ofNat']
    exact Nat.mod_add_div n 256

theorem run_takeBytes (fault : Fault) (count : Nat) (bytes : Bytes) :
    (takeBytes fault count).run bytes =
      if bytes.length < count then .error fault else .ok (bytes.take count, bytes.drop count) := by
  have hrun : (takeBytes fault count).run bytes =
      (if bytes.length < count then fail fault
        else do set (bytes.drop count); return bytes.take count : Reader Bytes).run bytes := rfl
  rw [hrun]
  split <;> rfl

theorem reads_takeBytes (fault : Fault) {count : Nat} {bytes : Bytes} (h : bytes.length = count) :
    Reads (takeBytes fault count) bytes bytes := by
  intro rest
  rw [run_takeBytes, if_neg (by simp [h]), ← h, List.take_left, List.drop_left]

/-- A word is read back. -/
theorem reads_word {width n : Nat} (h : n < 256 ^ width) :
    Reads (readWord width) (word width n) n := by
  have hread := (reads_takeBytes .endOfInput (length_word width n)).map wordValue
  rwa [wordValue_word h] at hread

theorem reads_variant {index count : Nat} (hindex : index < count) (h : index < 256 ^ 4) :
    Reads (readVariant count) (word 4 index) index := by
  have hread : Reads (readWord 4 >>= fun index =>
      if index < count then Pure.pure index else fail (.notVariant index count))
      (word 4 index ++ []) index := by
    refine (reads_word h).bind ?_
    rw [if_pos hindex]
    exact .pure index
  rwa [List.append_nil] at hread

theorem wordLimit_eq : wordLimit = 256 ^ 8 := by
  decide

theorem wordLimit_pos : 0 < wordLimit := by
  decide

/-! ## Basic types -/

instance : Faithful Nat where
  reads _ h := reads_word (wordLimit_eq ▸ h)

instance : Faithful Double where
  reads d _ := by
    have hbits : d.bits.toNat < 256 ^ 8 := d.bits.toNat_lt
    have hread := (reads_word hbits).map fun n => (⟨UInt64.ofNat n⟩ : Double)
    rwa [UInt64.ofNat_toNat] at hread

instance : Faithful String where
  reads s h := by
    have hlength : (Utf8.encode s).length < 256 ^ 8 := wordLimit_eq ▸ h
    refine (reads_word hlength).bind ?_
    rw [← List.append_nil (Utf8.encode s)]
    refine (reads_takeBytes .shortText (by simp)).bind ?_
    rw [Utf8.decode_encode]
    exact .pure s

/-! ## Type formers -/

theorem reads_tag {n : Nat} (h : n < 256) : Reads (readWord 1) (word 1 n) n :=
  reads_word h

instance [Wire τ] [Faithful τ] : Faithful (Option τ) where
  reads v h := by
    cases v with
    | none => exact (reads_tag (by decide : 0 < 256)).bind (.pure none)
    | some v => exact (reads_tag (by decide : 1 < 256)).bind ((Faithful.reads v h).bind_pure some)

instance [Wire σ] [Wire τ] [Faithful σ] [Faithful τ] : Faithful (σ × τ) where
  reads v h := by
    obtain ⟨hfst, hsnd⟩ := Nat.max_lt.mp h
    exact (Faithful.reads v.1 hfst).bind ((Faithful.reads v.2 hsnd).bind_pure fun b => (v.1, b))

theorem extent_list_lt [Wire τ] {vs : List τ} {limit : Nat} :
    extent vs < limit ↔ vs.length < limit ∧ ∀ v ∈ vs, extent v < limit := by
  have hfold : ∀ base, vs.foldr (fun v most => max (extent v) most) base < limit ↔
      base < limit ∧ ∀ v ∈ vs, extent v < limit := by
    intro base
    induction vs with
    | nil => simp
    | cons v vs ih =>
      rw [List.foldr_cons, Nat.max_lt, ih, List.forall_mem_cons]
      exact and_left_comm
  exact hfold vs.length

theorem reads_many [Wire τ] [Faithful τ] {vs : List τ} (h : ∀ v ∈ vs, extent v < wordLimit) :
    Reads (readMany vs.length) (vs.flatMap encode) vs := by
  induction vs with
  | nil => exact .pure []
  | cons v vs ih =>
    obtain ⟨hv, hvs⟩ := List.forall_mem_cons.mp h
    exact (Faithful.reads v hv).bind ((ih hvs).bind_pure fun rest => v :: rest)

instance [Wire τ] [Faithful τ] : Faithful (List τ) where
  reads vs h := by
    obtain ⟨hlength, hvs⟩ := extent_list_lt.mp h
    exact (reads_word (wordLimit_eq ▸ hlength)).bind (reads_many hvs)

/-! ## What ranks tell each other -/

instance : Faithful VariableKind where
  reads kind _ := by
    cases kind with
    | continuous => exact (reads_variant (by decide : 0 < 3) (by decide)).bind (.pure _)
    | integer => exact (reads_variant (by decide : 1 < 3) (by decide)).bind (.pure _)
    | discrete => exact (reads_variant (by decide : 2 < 3) (by decide)).bind (.pure _)

instance : Faithful ConstraintKind where
  reads kind _ := by
    cases kind with
    | inequality => exact (reads_variant (by decide : 0 < 2) (by decide)).bind (.pure _)
    | equality => exact (reads_variant (by decide : 1 < 2) (by decide)).bind (.pure _)

instance : Faithful Partition where
  reads partition _ := by
    cases partition with
    | contiguous => exact (reads_variant (by decide : 0 < 2) (by decide)).bind (.pure _)
    | roundRobin => exact (reads_variant (by decide : 1 < 2) (by decide)).bind (.pure _)

instance : Faithful (Variable Double) where
  reads v h := by
    have hbytes : encode v = encode v.name ++ (encode v.kind ++ (encode v.lower ++
        (encode v.upper ++ encode v.value))) := by
      simp only [← List.append_assoc]
      rfl
    rw [hbytes]
    exact (Faithful.reads v.name h).bind <| (Faithful.reads v.kind wordLimit_pos).bind <|
      (Faithful.reads v.lower wordLimit_pos).bind <| (Faithful.reads v.upper wordLimit_pos).bind <|
      (Faithful.reads v.value wordLimit_pos).bind_pure
        fun value => Variable.mk v.name v.kind v.lower v.upper value

instance : Faithful (Constraint Double) where
  reads v h := by
    have hbytes : encode v = encode v.name ++ (encode v.kind ++ encode v.target) := by
      rw [← List.append_assoc]
      rfl
    rw [hbytes]
    exact (Faithful.reads v.name h).bind <| (Faithful.reads v.kind wordLimit_pos).bind <|
      (Faithful.reads v.target wordLimit_pos).bind_pure
        fun target => Constraint.mk v.name v.kind target

instance : Faithful (Snapshot Double) where
  reads s h := by
    obtain ⟨hname, h⟩ := Nat.max_lt.mp h
    obtain ⟨hvars, h⟩ := Nat.max_lt.mp h
    obtain ⟨hobjectives, hconstraints⟩ := Nat.max_lt.mp h
    have hbytes : encode s = encode s.name ++ (encode s.vars ++ (encode s.objectives ++
        encode s.constraints)) := by
      simp only [← List.append_assoc]
      rfl
    rw [hbytes]
    exact (Faithful.reads s.name hname).bind <| (Faithful.reads s.vars hvars).bind <|
      (Faithful.reads s.objectives hobjectives).bind <|
      (Faithful.reads s.constraints hconstraints).bind_pure
        fun constraints => Snapshot.mk s.name s.vars s.objectives constraints

instance : Faithful (Baseline Double) where
  reads b h := (Faithful.reads b.objective wordLimit_pos).bind <|
    (Faithful.reads b.constraints h).bind_pure fun constraints =>
      Baseline.mk b.objective constraints

instance : Faithful (Kernel Double) where
  reads kernel h := by
    cases kernel with
    | forward step baseline =>
      have hbytes : encode (Kernel.forward step baseline) =
          word 4 0 ++ (encode step ++ encode baseline) := by
        rw [← List.append_assoc]
        rfl
      rw [hbytes]
      exact (reads_variant (by decide : 0 < 2) (by decide)).bind <|
        (Faithful.reads step wordLimit_pos).bind <|
        (Faithful.reads baseline h).bind_pure fun baseline => Kernel.forward step baseline
    | complex step =>
      exact (reads_variant (by decide : 1 < 2) (by decide)).bind <|
        (Faithful.reads step wordLimit_pos).bind_pure fun step => Kernel.complex step

instance : Faithful RankFailure where
  reads f h := by
    obtain ⟨hrank, hreason⟩ := Nat.max_lt.mp h
    exact (Faithful.reads f.rank hrank).bind <|
      (Faithful.reads f.reason hreason).bind_pure fun reason => RankFailure.mk f.rank reason

instance : Faithful Command where
  reads command h := by
    cases command with
    | columns x kernel partition =>
      obtain ⟨hx, hkernel⟩ := Nat.max_lt.mp h
      have hbytes : encode (Command.columns x kernel partition) =
          word 4 0 ++ (encode x ++ (encode kernel ++ encode partition)) := by
        simp only [← List.append_assoc]
        rfl
      rw [hbytes]
      exact (reads_variant (by decide : 0 < 3) (by decide)).bind <|
        (Faithful.reads x hx).bind <| (Faithful.reads kernel hkernel).bind <|
        (Faithful.reads partition wordLimit_pos).bind_pure
          fun partition => Command.columns x kernel partition
    | shutdown => exact (reads_variant (by decide : 1 < 3) (by decide)).bind (.pure _)
    | abort failures =>
      exact (reads_variant (by decide : 2 < 3) (by decide)).bind <|
        (Faithful.reads failures h).bind_pure fun failures => Command.abort failures

instance : Faithful ColumnReport where
  reads report h := by
    cases report with
    | ok columns =>
      exact (reads_word (by decide : 0 < 256 ^ 4)).bind <|
        (Faithful.reads columns h).bind_pure fun columns => Except.ok columns
    | error reason =>
      exact (reads_word (by decide : 1 < 256 ^ 4)).bind <|
        (Faithful.reads reason h).bind_pure fun reason => Except.error reason

/-! ## Messages -/

/-- A message is read as the value it was made of. -/
theorem ofBytes_toBytes [Wire τ] [Faithful τ] {v : τ} (h : extent v < wordLimit) :
    ofBytes (toBytes v) = .ok v := by
  have hread := Faithful.reads v h []
  rw [List.append_nil] at hread
  rw [ofBytes, toBytes, hread]
  rfl

end Nlp.Wire
