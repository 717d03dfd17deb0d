import Nlp.Problem.Kind

/-!
# Problems

A problem is a name and three registries: variables, objectives and constraints, each in the
order of declaration, which is the order of the entries of `x`, `f` and `g`.  Within a registry
names are distinct, and a variable's lower bound is at most its upper bound; what breaks either
rule is refused.

## Main definitions

* `Variable`, `Constraint`, `Snapshot`, `Problem`.
* `Problem.addVariable`, `Problem.addObjective`, `Problem.addConstraint`.
* `Problem.ofSnapshot`: a problem declared from the entries of a snapshot.
* `Snapshot.mismatch?`: where the layout of one snapshot differs from another's.
-/

namespace Nlp

/-- A design variable. -/
structure Variable (α : Type) where
  /-- Its name. -/
  name : String
  /-- Its kind. -/
  kind : VariableKind
  /-- Its lower bound. -/
  lower : α
  /-- Its upper bound. -/
  upper : α
  /-- Where every solve starts. -/
  value : α
deriving DecidableEq, Inhabited

/-- The variable is continuous. -/
def Variable.isContinuous {α : Type} (v : Variable α) : Bool :=
  v.kind = .continuous

/-- One row of the constraint vector. -/
structure Constraint (α : Type) where
  /-- Its name. -/
  name : String
  /-- Its kind. -/
  kind : ConstraintKind
  /-- The number the row is compared with. -/
  target : α
deriving DecidableEq, Inhabited

namespace Constraint

variable {α : Type} [Scalar α]

/-- The signed distance of a value from the target. -/
def residual (c : Constraint α) (value : α) : α :=
  value - c.target

/-- By how much a value violates the constraint. -/
def violation (c : Constraint α) (value : α) : α :=
  match c.kind with
  | .inequality => Scalar.max (c.residual value) 0
  | .equality => Scalar.abs (c.residual value)

end Constraint

/-- What defines a problem except its model, as data that nothing has checked. -/
structure Snapshot (α : Type) where
  /-- The problem's name. -/
  name : String
  /-- The variables. -/
  vars : List (Variable α)
  /-- The names of the objectives. -/
  objectives : List String
  /-- The constraints. -/
  constraints : List (Constraint α)
deriving DecidableEq, Inhabited

/-- A problem: a snapshot whose entries were accepted one by one. -/
structure Problem (α : Type) extends Snapshot α
deriving DecidableEq, Inhabited

namespace Problem

variable {α : Type}

/-- A problem without entries. -/
def empty (name : String) : Problem α :=
  ⟨name, [], [], []⟩

/-- The problem with one more variable, and its position. -/
def addVariable [Scalar α] (p : Problem α) (v : Variable α) :
    Except (Error α) (Problem α × Nat) :=
  if p.vars.any fun w => w.name == v.name then
    .error (.duplicateName "variable" v.name)
  else if v.lower ≤ v.upper then
    .ok ({ p with vars := p.vars ++ [v] }, p.vars.length)
  else
    .error (.bounds v.name v.lower v.upper)

/-- The problem with one more objective, and its position. -/
def addObjective (p : Problem α) (name : String) : Except (Error α) (Problem α × Nat) :=
  if p.objectives.contains name then
    .error (.duplicateName "objective" name)
  else
    .ok ({ p with objectives := p.objectives ++ [name] }, p.objectives.length)

/-- The problem with one more constraint, and its position. -/
def addConstraint (p : Problem α) (c : Constraint α) : Except (Error α) (Problem α × Nat) :=
  if p.constraints.any fun d => d.name == c.name then
    .error (.duplicateName "constraint" c.name)
  else
    .ok ({ p with constraints := p.constraints ++ [c] }, p.constraints.length)

/-- The problem declared by the entries of a snapshot: variables, objectives, constraints. -/
def ofSnapshot [Scalar α] (s : Snapshot α) : Except (Error α) (Problem α) := do
  let p ← s.vars.foldlM (fun p v => Prod.fst <$> p.addVariable v) (empty s.name)
  let p ← s.objectives.foldlM (fun p o => Prod.fst <$> p.addObjective o) p
  s.constraints.foldlM (fun p c => Prod.fst <$> p.addConstraint c) p

/-- The variable of a name. -/
def variableNamed? (p : Problem α) (name : String) : Option (Variable α) :=
  p.vars.find? fun v => v.name == name

/-- The constraint of a name. -/
def constraintNamed? (p : Problem α) (name : String) : Option (Constraint α) :=
  p.constraints.find? fun c => c.name == name

/-- The declared values, where every solve starts. -/
def initialPoint (p : Problem α) : List α :=
  p.vars.map Variable.value

/-- What a solver sees of a problem: bounds, start, and rows with their targets moved to
zero. -/
def layout (p : Problem α) : Layout α where
  dimension := p.vars.length
  lower := p.vars.map Variable.lower
  upper := p.vars.map Variable.upper
  start := p.initialPoint
  rows := p.constraints.map fun c => c.kind.sense

end Problem

/-! ## Layouts of two snapshots -/

/-- How a layout differs from the one it should have. -/
inductive LayoutMismatch where
  /-- Another number of entries of a registry. -/
  | count (registry : String) (expected found : Nat)
  /-- Another name in some place. -/
  | name (expected found : String)
deriving DecidableEq

/-- A difference in words. -/
def LayoutMismatch.message : LayoutMismatch → String
  | .count registry expected found =>
    toString found ++ " " ++ registry ++ ", expected " ++ toString expected
  | .name expected found => "found '" ++ found ++ "' where '" ++ expected ++ "' was declared"

namespace Snapshot

variable {α : Type}

/-- The names of all entries: variables, constraints, objectives. -/
def names (s : Snapshot α) : List String :=
  s.vars.map Variable.name ++ (s.constraints.map Constraint.name ++ s.objectives)

/-- Where the layout of `other` first differs from that of `s`: the three counts are compared
before the names.  Kinds, bounds, values and targets may differ. -/
def mismatch? (s other : Snapshot α) : Option LayoutMismatch :=
  if s.vars.length ≠ other.vars.length then
    some (.count "variables" s.vars.length other.vars.length)
  else if s.constraints.length ≠ other.constraints.length then
    some (.count "constraints" s.constraints.length other.constraints.length)
  else if s.objectives.length ≠ other.objectives.length then
    some (.count "objectives" s.objectives.length other.objectives.length)
  else
    ((s.names.zip other.names).find? fun (a, b) => a != b).map fun (a, b) => .name a b

/-- Two lists agree item by item. -/
def agreesOn {β : Type} (agree : β → β → Bool) (a b : List β) : Bool :=
  a.length = b.length && (a.zip b).all fun (x, y) => agree x y

/-- Two snapshots have the same entries, with numbers compared as numbers. -/
def agrees [Scalar α] (s other : Snapshot α) : Bool :=
  s.name = other.name && s.objectives = other.objectives &&
    agreesOn (fun v w : Variable α => v.name = w.name && v.kind = w.kind &&
      v.lower == w.lower && v.upper == w.upper && v.value == w.value)
      s.vars other.vars &&
    agreesOn (fun c d : Constraint α => c.name = d.name && c.kind = d.kind &&
      c.target == d.target)
      s.constraints other.constraints

end Snapshot

end Nlp
