import Nlp.Ascending
import Nlp.Error
import Nlp.Wire.Codec

/-!
# Parts of a gather

What the root of a gather receives: the bytes of each rank, in ascending order of ranks.
-/

namespace Nlp

/-- The bytes of some ranks, in ascending order of ranks. -/
abbrev Parts : Type :=
  Ascending Rank Bytes

end Nlp
