import Nlp.Derivative.Partition
import Mathlib.Algebra.Order.Floor.Div
import Mathlib.Data.List.Nodup
import Mathlib.Tactic.Common
import Mathlib.Tactic.Ring

/-!
# Every column has one owner

The blocks of a partition share out the columns of a Jacobian: whatever their number and the number
of ranks, each column is in the block of exactly one rank, and no block is longer than it has to be.

## Main definitions

* `Partition.owner`: the rank that evaluates a column.
* `Partition.Fits`: the end of the last block is a word.
* `Partition.Even`: an exact cover by blocks of about the same length.

## Main results

* `Partition.mem_columns`: the block of a rank is what it owns.
* `Partition.columns_ascending`: a block is in ascending order.
* `Partition.perm_columns`: the blocks of all ranks together are all columns.
* `Partition.flatMap_contiguous`: contiguous blocks, one after another, are all columns in order.
* `Partition.columns_even`: both partitions cover the columns evenly.
-/

namespace Nlp.Partition

/-- The rank that evaluates a column out of `n`. -/
def owner (p : Partition) (n size j : Nat) : Nat :=
  match p with
  | contiguous => j / ((n + size - 1) / size)
  | roundRobin => j % size

variable {n size rank j : Nat}

theorem mem_strided (hrank : rank < size) :
    j ∈ strided n size rank ↔ j < n ∧ j % size = rank := by
  have hsize : 0 < size := Nat.zero_lt_of_lt hrank
  have hcount : ∀ i, i < (n - rank + size - 1) / size ↔ rank + i * size < n := by
    intro i
    rw [← Nat.succ_le_iff, Nat.le_div_iff_mul_le hsize, Nat.succ_mul]
    omega
  simp only [strided, List.mem_map, List.mem_range, hcount]
  constructor
  · rintro ⟨i, hi, rfl⟩
    exact ⟨hi, by rw [Nat.add_mul_mod_self_right, Nat.mod_eq_of_lt hrank]⟩
  · rintro ⟨hj, rfl⟩
    have hsum : j % size + j / size * size = j := Nat.mod_add_div' j size
    exact ⟨j / size, hsum.symm ▸ hj, hsum⟩

/-- The end of the last block is a word, so the ends of all blocks are; round robin counts none. -/
def Fits (p : Partition) (n size : Nat) : Prop :=
  p = contiguous → size * ((n + size - 1) / size) < UInt64.size

theorem Fits.of_add_le {p : Partition} (hwords : n + size ≤ 2 ^ 64) : p.Fits n size := by
  intro _
  have hblocks : size * ((n + size - 1) / size) ≤ n + size - 1 := Nat.mul_div_le _ _
  have hword : UInt64.size = 2 ^ 64 := rfl
  omega

/-- Within a group the ends of the blocks do not wrap. -/
theorem columns_contiguous (hrank : rank < size) (hfits : Fits contiguous n size) :
    columns contiguous n size rank =
      let block := (n + size - 1) / size
      (List.range (min ((rank + 1) * block) n - min (rank * block) n)).map
        (min (rank * block) n + ·) := by
  have hpast : (rank + 1) * ((n + size - 1) / size) < UInt64.size :=
    (Nat.mul_le_mul_right _ hrank).trans_lt (hfits rfl)
  have hfirst : rank * ((n + size - 1) / size) < UInt64.size :=
    (Nat.mul_le_mul_right _ rank.le_succ).trans_lt hpast
  simp only [columns, Nat.max_eq_left (Nat.zero_lt_of_lt hrank), Nat.mod_eq_of_lt hpast,
    Nat.mod_eq_of_lt hfirst]

theorem mem_interval {first past : Nat} :
    j ∈ (List.range (min past n - min first n)).map (min first n + ·) ↔
      j < n ∧ first ≤ j ∧ j < past := by
  simp only [List.mem_map, List.mem_range]
  constructor
  · rintro ⟨i, hi, rfl⟩
    omega
  · rintro ⟨hj, hfirst, hpast⟩
    exact ⟨j - first, by omega, by omega⟩

theorem mem_contiguous (hrank : rank < size) (hfits : Fits contiguous n size) :
    j ∈ columns contiguous n size rank ↔ j < n ∧ j / ((n + size - 1) / size) = rank := by
  rw [columns_contiguous hrank hfits, mem_interval]
  refine and_congr_right fun hj => ?_
  have hpos : 0 < (n + size - 1) / size := Nat.div_pos (by omega) (Nat.zero_lt_of_lt hrank)
  rw [Nat.div_eq_iff hpos, Nat.succ_mul]
  omega

theorem mem_roundRobin (hrank : rank < size) :
    j ∈ columns roundRobin n size rank ↔ j < n ∧ j % size = rank := by
  rw [columns, Nat.max_eq_left (Nat.zero_lt_of_lt hrank)]
  exact mem_strided hrank

/-- The block of a rank is what it owns, if no end of a block wraps. -/
theorem mem_columns_of_fits {p : Partition} (hrank : rank < size) (hfits : p.Fits n size) :
    j ∈ p.columns n size rank ↔ j < n ∧ p.owner n size j = rank := by
  cases p with
  | contiguous => exact mem_contiguous hrank hfits
  | roundRobin => exact mem_roundRobin hrank

theorem mem_columns (p : Partition) (hrank : rank < size) (hwords : n + size ≤ 2 ^ 64) :
    j ∈ p.columns n size rank ↔ j < n ∧ p.owner n size j = rank :=
  mem_columns_of_fits hrank (.of_add_le hwords)

/-- There are enough blocks for all columns. -/
theorem le_mul_block (hsize : 0 < size) : n ≤ size * ((n + size - 1) / size) := by
  have hdiv := Nat.div_add_mod (n + size - 1) size
  have hmod := Nat.mod_lt (n + size - 1) hsize
  omega

theorem owner_lt (p : Partition) (hsize : 0 < size) (hj : j < n) : p.owner n size j < size := by
  cases p with
  | contiguous =>
    exact Nat.div_lt_of_lt_mul ((hj.trans_le (le_mul_block hsize)).trans_eq (Nat.mul_comm _ _))
  | roundRobin => exact Nat.mod_lt j hsize

/-- A block has columns of the matrix only, also that of a rank outside its group. -/
theorem lt_of_mem_columns (p : Partition) {rank : Nat} (h : j ∈ p.columns n size rank) : j < n := by
  cases p with
  | contiguous =>
    obtain ⟨i, hi, rfl⟩ := List.mem_map.mp h
    rw [List.mem_range] at hi
    have hpast :=
      Nat.min_le_right ((rank + 1) * ((n + max size 1 - 1) / max size 1) % UInt64.size) n
    omega
  | roundRobin =>
    obtain ⟨i, hi, rfl⟩ := List.mem_map.mp h
    have hstep : 0 < max size 1 := Nat.le_max_right size 1
    have hlt := (Nat.lt_div_iff_mul_lt hstep).mp (List.mem_range.mp hi)
    omega

/-- A block is in ascending order. -/
theorem columns_ascending (p : Partition) (n size rank : Nat) :
    (p.columns n size rank).Pairwise (· < ·) := by
  cases p with
  | contiguous =>
    refine List.pairwise_map.mpr (List.pairwise_lt_range.imp fun h => ?_)
    exact Nat.add_lt_add_left h _
  | roundRobin =>
    refine List.pairwise_map.mpr (List.pairwise_lt_range.imp fun h => ?_)
    exact Nat.add_lt_add_left (Nat.mul_lt_mul_of_pos_right h (Nat.le_max_right size 1)) _

theorem nodup_columns (p : Partition) (n size rank : Nat) : (p.columns n size rank).Nodup :=
  (p.columns_ascending n size rank).imp Nat.ne_of_lt

/-- The blocks of all ranks together are all columns. -/
theorem perm_columns (p : Partition) (hsize : 0 < size) (hwords : n + size ≤ 2 ^ 64) :
    ((List.range size).flatMap fun rank => p.columns n size rank).Perm (List.range n) := by
  have hnodup : ((List.range size).flatMap fun rank => p.columns n size rank).Nodup := by
    refine List.nodup_flatMap.mpr ⟨fun rank _ => p.nodup_columns n size rank, ?_⟩
    -- a column in two blocks would have two owners
    refine List.nodup_range.imp_of_mem fun {a b} ha hb hne => ?_
    intro j hja hjb
    have hfirst := ((p.mem_columns (List.mem_range.mp ha) hwords).mp hja).2
    have hsecond := ((p.mem_columns (List.mem_range.mp hb) hwords).mp hjb).2
    exact hne (hfirst.symm.trans hsecond)
  refine (List.perm_ext_iff_of_nodup hnodup List.nodup_range).mpr fun j => ?_
  rw [List.mem_flatMap, List.mem_range]
  constructor
  · rintro ⟨rank, hrank, hj⟩
    exact ((p.mem_columns (List.mem_range.mp hrank) hwords).mp hj).1
  · intro hj
    have howner := p.owner_lt hsize hj
    exact ⟨_, List.mem_range.mpr howner, (p.mem_columns howner hwords).mpr ⟨hj, rfl⟩⟩

/-! ## Even covers -/

/-- Contiguous blocks, one after another, are all columns in order. -/
theorem flatMap_contiguous (hsize : 0 < size) (hfits : Fits contiguous n size) :
    ((List.range size).flatMap fun rank => columns contiguous n size rank) = List.range n := by
  -- the first `k` blocks are the columns below the end of the last of them
  have hfirst : ∀ k ≤ size, ((List.range k).flatMap fun rank => columns contiguous n size rank) =
      List.range (min (k * ((n + size - 1) / size)) n) := by
    intro k hk
    induction k with
    | zero => simp
    | succ k ih =>
      have hle : min (k * ((n + size - 1) / size)) n ≤ min ((k + 1) * ((n + size - 1) / size)) n :=
        min_le_min_right _ (Nat.mul_le_mul_right _ k.le_succ)
      rw [List.range_succ, List.flatMap_append, ih (Nat.le_of_succ_le hk), List.flatMap_singleton,
        columns_contiguous hk hfits, ← List.range_add, Nat.add_sub_cancel' hle]
  rw [hfirst size le_rfl, Nat.min_eq_right (le_mul_block hsize)]

theorem length_columns_le (p : Partition) (hrank : rank < size) (hfits : p.Fits n size) :
    (p.columns n size rank).length ≤ n ⌈/⌉ size := by
  rw [Nat.ceilDiv_eq_add_pred_div]
  cases p with
  | contiguous =>
    rw [columns_contiguous hrank hfits, List.length_map, List.length_range, Nat.succ_mul]
    generalize (n + size - 1) / size = block
    omega
  | roundRobin =>
    rw [columns, Nat.max_eq_left (Nat.zero_lt_of_lt hrank), strided, List.length_map,
      List.length_range]
    exact Nat.div_le_div_right (by omega)

/-- The blocks of the ranks of a group cover the columns below `n` evenly. -/
structure Even (p : Partition) (n size : Nat) : Prop where
  /-- Every column is in the block of exactly one rank, and there once. -/
  once : ∀ j < n, ∃ rank < size, (p.columns n size rank).count j = 1 ∧
    ∀ other < size, j ∈ p.columns n size other → other = rank
  /-- Nothing else is in a block. -/
  lt : ∀ rank < size, ∀ j ∈ p.columns n size rank, j < n
  /-- A block is in ascending order. -/
  ascending : ∀ rank < size, (p.columns n size rank).Pairwise (· < ·)
  /-- No block is longer than the columns shared out require. -/
  length_le : ∀ rank < size, (p.columns n size rank).length ≤ n ⌈/⌉ size

/-- Both partitions cover the columns evenly: contiguous blocks in their order, round robin by
remainders. -/
theorem columns_even (n : Nat) (hsize : 0 < size) :
    (size * (n ⌈/⌉ size) < 2 ^ 64 → contiguous.Even n size ∧
      ((List.range size).flatMap fun rank => contiguous.columns n size rank) = List.range n) ∧
    roundRobin.Even n size ∧
      ∀ rank < size, ∀ j, j ∈ roundRobin.columns n size rank ↔ j < n ∧ j % size = rank := by
  have heven : ∀ p : Partition, p.Fits n size → p.Even n size := by
    intro p hfits
    constructor
    · intro j hj
      refine ⟨p.owner n size j, p.owner_lt hsize hj, ?_, ?_⟩
      · refine List.count_eq_one_of_mem (p.nodup_columns n size _) ?_
        exact (mem_columns_of_fits (p.owner_lt hsize hj) hfits).mpr ⟨hj, rfl⟩
      · exact fun other hother hmem => ((mem_columns_of_fits hother hfits).mp hmem).2.symm
    · exact fun rank _ j hmem => p.lt_of_mem_columns hmem
    · exact fun rank _ => p.columns_ascending n size rank
    · exact fun rank hrank => p.length_columns_le hrank hfits
  refine ⟨fun hwords => ?_, heven roundRobin nofun, fun rank hrank j => mem_roundRobin hrank⟩
  rw [Nat.ceilDiv_eq_add_pred_div] at hwords
  have hfits : Fits contiguous n size := fun _ => hwords
  exact ⟨heven contiguous hfits, flatMap_contiguous hsize hfits⟩

/-- Three columns for four ranks, of which the last one has none. -/
theorem columns_even_four :
    contiguous.Even 3 4 ∧ roundRobin.Even 3 4 ∧
      ((List.range 4).flatMap fun rank => contiguous.columns 3 4 rank) = [0, 1, 2] := by
  obtain ⟨hcontiguous, hroundRobin, -⟩ := columns_even 3 (show 0 < 4 by decide)
  obtain ⟨heven, hall⟩ := hcontiguous (by decide)
  exact ⟨heven, hroundRobin, hall⟩

end Nlp.Partition
