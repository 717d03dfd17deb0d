import Nlp.Derivative.Kernel
import Nlp.Derivative.Partition
import Nlp.Wire.Codec

/-!
# Messages between ranks

What the ranks of a parallel session tell each other, with its wire format: the root's snapshot
and commands, and a rank's report of its columns.
-/

namespace Nlp

/-- What the root tells the other ranks. -/
inductive Command where
  /-- Evaluate the columns the partition assigns you. -/
  | columns (x : List Double) (kernel : Kernel Double) (partition : Partition)
  /-- The session is over. -/
  | shutdown
  /-- The session is over because something failed. -/
  | abort (failures : List RankFailure)
deriving DecidableEq

/-- A rank's columns, or its error in words. -/
abbrev ColumnReport : Type := Except String (List (Column Double))

namespace Wire

instance : Wire VariableKind where
  encode
    | .continuous => word 4 0
    | .integer => word 4 1
    | .discrete => word 4 2
  decode := do
    match ← readVariant 3 with
    | 0 => return .continuous
    | 1 => return .integer
    | _ => return .discrete

instance : Wire ConstraintKind where
  encode
    | .inequality => word 4 0
    | .equality => word 4 1
  decode := do
    match ← readVariant 2 with
    | 0 => return .inequality
    | _ => return .equality

instance : Wire Partition where
  encode
    | .contiguous => word 4 0
    | .roundRobin => word 4 1
  decode := do
    match ← readVariant 2 with
    | 0 => return .contiguous
    | _ => return .roundRobin

instance : Wire (Variable Double) where
  encode v := encode v.name ++ encode v.kind ++ encode v.lower ++ encode v.upper ++ encode v.value
  decode := return ⟨← decode, ← decode, ← decode, ← decode, ← decode⟩
  extent v := extent v.name

instance : Wire (Constraint Double) where
  encode c := encode c.name ++ encode c.kind ++ encode c.target
  decode := return ⟨← decode, ← decode, ← decode⟩
  extent c := extent c.name

instance : Wire (Snapshot Double) where
  encode s := encode s.name ++ encode s.vars ++ encode s.objectives ++ encode s.constraints
  decode := return ⟨← decode, ← decode, ← decode, ← decode⟩
  extent s :=
    max (extent s.name) (max (extent s.vars) (max (extent s.objectives) (extent s.constraints)))

instance : Wire (Baseline Double) where
  encode b := encode b.objective ++ encode b.constraints
  decode := return ⟨← decode, ← decode⟩
  extent b := extent b.constraints

instance : Wire (Kernel Double) where
  encode
    | .forward step baseline => word 4 0 ++ encode step ++ encode baseline
    | .complex step => word 4 1 ++ encode step
  decode := do
    match ← readVariant 2 with
    | 0 => return .forward (← decode) (← decode)
    | _ => return .complex (← decode)
  extent
    | .forward _ baseline => extent baseline
    | .complex _ => 0

instance : Wire RankFailure where
  encode f := encode f.rank ++ encode f.reason
  decode := return ⟨← decode, ← decode⟩
  extent f := max (extent f.rank) (extent f.reason)

instance : Wire Command where
  encode
    | .columns x kernel partition => word 4 0 ++ encode x ++ encode kernel ++ encode partition
    | .shutdown => word 4 1
    | .abort failures => word 4 2 ++ encode failures
  decode := do
    match ← readVariant 3 with
    | 0 => return .columns (← decode) (← decode) (← decode)
    | 1 => return .shutdown
    | _ => return .abort (← decode)
  extent
    | .columns x kernel _ => max (extent x) (extent kernel)
    | .shutdown => 0
    | .abort failures => extent failures

instance : Wire ColumnReport where
  encode
    | .ok columns => word 4 0 ++ encode columns
    | .error reason => word 4 1 ++ encode reason
  decode := do
    match ← readWord 4 with
    | 0 => return .ok (← decode)
    | 1 => return .error (← decode)
    | index => fail (.notResult index)
  extent
    | .ok columns => extent columns
    | .error reason => extent reason

end Wire

end Nlp
