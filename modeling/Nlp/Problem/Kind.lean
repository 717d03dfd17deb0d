import Nlp.Error
import Nlp.Text.Lower

/-!
# Kinds of variables and constraints

Each kind has a name, under which it is stored, and a one-letter code, under which it is shown.
Both are read, in either case.
-/

namespace Nlp

/-- The kind of a variable. -/
inductive VariableKind where
  /-- Any number of its interval. -/
  | continuous
  /-- Whole numbers. -/
  | integer
  /-- Some of the numbers of its interval. -/
  | discrete
deriving DecidableEq, Repr, Inhabited

namespace VariableKind

/-- The one-letter code. -/
def code : VariableKind → Char
  | continuous => 'c'
  | integer => 'i'
  | discrete => 'd'

/-- The name. -/
def name : VariableKind → String
  | continuous => "Continuous"
  | integer => "Integer"
  | discrete => "Discrete"

/-- All kinds by name. -/
def table : List (String × VariableKind) :=
  [continuous, integer, discrete].map fun k => (k.name, k)

/-- The kind of a code or name. -/
def parse {α : Type} (text : String) : Except (Error α) VariableKind :=
  let text := lowerAscii text
  if text = "c" ∨ text = "continuous" then .ok continuous
  else if text = "i" ∨ text = "integer" then .ok integer
  else if text = "d" ∨ text = "discrete" then .ok discrete
  else .error (.invalidOption "variable kind" (.unknownKind text))

end VariableKind

/-- The kind of a constraint. -/
inductive ConstraintKind where
  /-- The row asks for `g(x) ≤ target`. -/
  | inequality
  /-- The row asks for `g(x) = target`. -/
  | equality
deriving DecidableEq, Repr, Inhabited

namespace ConstraintKind

/-- The one-letter code. -/
def code : ConstraintKind → Char
  | inequality => 'i'
  | equality => 'e'

/-- The name. -/
def name : ConstraintKind → String
  | inequality => "Inequality"
  | equality => "Equality"

/-- All kinds by name. -/
def table : List (String × ConstraintKind) :=
  [inequality, equality].map fun k => (k.name, k)

/-- The kind of a code or name. -/
def parse {α : Type} (text : String) : Except (Error α) ConstraintKind :=
  let text := lowerAscii text
  if text = "i" ∨ text = "inequality" then .ok inequality
  else if text = "e" ∨ text = "equality" then .ok equality
  else .error (.invalidOption "constraint kind" (.unknownKind text))

/-- The sense of the row `g(x) - target`. -/
def sense : ConstraintKind → Sense
  | inequality => .atMost
  | equality => .equal

end ConstraintKind

end Nlp
