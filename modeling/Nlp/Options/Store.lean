import Nlp.Event
import Nlp.Options.Schema

/-!
# Option stores

A configuration with a policy for keys it does not have.

## Main definitions

* `Policy`, `Store`.
* `Store.set`, `Store.setAll`.
-/

namespace Nlp

/-- What happens to keys that a configuration does not have. -/
inductive Policy where
  /-- They are refused. -/
  | strict
  /-- They are reported and passed over. -/
  | permissive
deriving DecidableEq, Repr, Inhabited

namespace Policy

/-- The name of a policy. -/
def name : Policy → String
  | strict => "Strict"
  | permissive => "Permissive"

/-- All policies by name. -/
def table : List (String × Policy) :=
  [strict, permissive].map fun p => (p.name, p)

end Policy

/-- A configuration that is set by keys. -/
structure Store (κ : Type) where
  /-- The configuration. -/
  config : κ
  /-- What happens to other keys. -/
  policy : Policy

namespace Store

variable {κ : Type} [Schema κ]

/-- A store with the default configuration. -/
def new (policy : Policy) : Store κ :=
  ⟨Schema.default, policy⟩

/-- The values of all options. -/
def snapshot (s : Store κ) : OptionTable :=
  Schema.snapshot s.config

/-- What came of setting options. -/
structure Outcome (κ : Type) where
  /-- The store afterwards. -/
  store : Store κ
  /-- What was reported. -/
  events : List (Event Double)
  /-- The error that ended it, if any. -/
  error : Option (Error Double)

/-- One option set.  A refused value leaves the store as it was. -/
def set (s : Store κ) (key : String) (value : OptionValue) : Outcome κ :=
  if (Schema.keys κ).contains key then
    match Schema.apply s.config key value with
    | .ok config => ⟨{ s with config }, [], none⟩
    | .error e => ⟨s, [], some e⟩
  else
    match s.policy with
    | .strict => ⟨s, [], some (.unknownOption key)⟩
    | .permissive => ⟨s, [.optionIgnored key value], none⟩

/-- Some options set one after another, up to the first that is refused. -/
def setAll (s : Store κ) : List (String × OptionValue) → Outcome κ
  | [] => ⟨s, [], none⟩
  | (key, value) :: rest =>
    let first := s.set key value
    match first.error with
    | some _ => first
    | none =>
      let others := setAll first.store rest
      { others with events := first.events ++ others.events }

end Store

end Nlp
