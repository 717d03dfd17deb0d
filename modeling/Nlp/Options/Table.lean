import Nlp.Ascending
import Nlp.Options.Value

/-!
# Option tables

Option values by key, in ascending order of keys, each key once.
-/

namespace Nlp

/-- Option values by key, in ascending order of keys. -/
abbrev OptionTable : Type :=
  Ascending String OptionValue

namespace OptionTable

/-- A table as an object. -/
def toJson (t : OptionTable) : Json :=
  .object (t.map fun (key, value) => (key, value.toJson))

/-- A table from an object, all of whose values are option values. -/
def ofJson? : Json → Option OptionTable
  | .object fields => do
    let entries ← fields.mapM fun (key, value) => do return (key, ← OptionValue.ofJson? value)
    return Ascending.ofList entries
  | _ => none

end OptionTable

end Nlp
