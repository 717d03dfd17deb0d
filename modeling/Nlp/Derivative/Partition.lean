/-!
# Partitions of columns

Which columns of a Jacobian a rank of a group evaluates.
-/

namespace Nlp

/-- The assignment of columns to ranks. -/
inductive Partition where
  /-- Each rank has a block of `⌈n / size⌉` columns, in order of the ranks; the last blocks may
  be short or empty. -/
  | contiguous
  /-- Each rank has the columns congruent to it modulo the number of ranks. -/
  | roundRobin
deriving DecidableEq, Repr, Inhabited

namespace Partition

/-- The name of a partition. -/
def name : Partition → String
  | contiguous => "Contiguous"
  | roundRobin => "RoundRobin"

/-- Every `step`-th number from `first` on, below `n`. -/
def strided (n step first : Nat) : List Nat :=
  (List.range ((n - first + step - 1) / step)).map fun i => first + i * step

/-- The columns out of `n` that a rank of a group evaluates; a group has at least one rank.  The
ends of a block are counted modulo `2 ^ 64`, which only a rank outside its group can tell, or a
matrix with nearly that many columns. -/
def columns (p : Partition) (n size rank : Nat) : List Nat :=
  let size := max size 1
  match p with
  | contiguous =>
    let block := (n + size - 1) / size
    let first := min (rank * block % UInt64.size) n
    let past := min ((rank + 1) * block % UInt64.size) n
    (List.range (past - first)).map (first + ·)
  | roundRobin => strided n size rank

end Partition

end Nlp
