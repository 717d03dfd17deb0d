import Nlp.Problem.Basic
import Nlp.Proofs.Double
import Nlp.Solve.Workbench

/-!
# Registries

What the entries of a problem are after any declarations, of which some were refused.  A snapshot is
well formed if names are distinct within each registry and every lower bound is at most its upper
bound.  One more entry is taken exactly if it leaves the problem well formed, so a snapshot can be
declared entry by entry exactly if it is well formed, and then the problem has its entries.

## Main definitions

* `Snapshot.WellFormed`: the rules of a registry.
* `Declaration`, `Problem.declare`, `Snapshot.grow`: one more entry, and what it makes of a problem.
* `Work.declareAll`: declarations at a workbench, with the answer to each.

## Main results

* `Problem.declare_eq_ok_iff`: which declarations are taken, and what becomes of the problem.
* `Problem.ofSnapshot_eq_ok_iff`: which snapshots can be declared.
* `Work.registry_law`: the problem after any declarations.
-/

namespace Nlp

variable {α : Type}

/-! ## Well formed snapshots -/

/-- Names are distinct within each registry, and every lower bound is at most its upper bound. -/
@[mk_iff]
structure Snapshot.WellFormed [Scalar α] (s : Snapshot α) : Prop where
  variable_names : (s.vars.map Variable.name).Nodup
  bounds : ∀ v ∈ s.vars, v.lower ≤ v.upper
  objective_names : s.objectives.Nodup
  constraint_names : (s.constraints.map Constraint.name).Nodup

/-- An entry that a problem is asked to take. -/
inductive Declaration (α : Type) where
  /-- A variable. -/
  | ofVariable (v : Variable α)
  /-- An objective. -/
  | ofObjective (name : String)
  /-- A constraint with its target. -/
  | ofConstraint (c : Constraint α)
  /-- A constraint whose row is compared with zero. -/
  | ofRow (name : String) (kind : ConstraintKind)

namespace Declaration

/-- The variable, if it is one. -/
def asVariable : Declaration α → Option (Variable α)
  | ofVariable v => some v
  | _ => none

/-- The objective, if it is one. -/
def asObjective : Declaration α → Option String
  | ofObjective name => some name
  | _ => none

/-- The constraint, if it is one. -/
def asConstraint [Scalar α] : Declaration α → Option (Constraint α)
  | ofConstraint c => some c
  | ofRow name kind => some ⟨name, kind, 0⟩
  | _ => none

end Declaration

namespace Snapshot

variable [Scalar α] {s : Snapshot α}

/-- The snapshot with one more entry, at the end of its registry. -/
def grow (s : Snapshot α) (d : Declaration α) : Snapshot α where
  name := s.name
  vars := s.vars ++ d.asVariable.toList
  objectives := s.objectives ++ d.asObjective.toList
  constraints := s.constraints ++ d.asConstraint.toList

@[simp]
theorem grow_ofVariable (v : Variable α) :
    s.grow (.ofVariable v) = { s with vars := s.vars ++ [v] } := by
  simp [grow, Declaration.asVariable, Declaration.asObjective, Declaration.asConstraint]

@[simp]
theorem grow_ofObjective (name : String) :
    s.grow (.ofObjective name) = { s with objectives := s.objectives ++ [name] } := by
  simp [grow, Declaration.asVariable, Declaration.asObjective, Declaration.asConstraint]

@[simp]
theorem grow_ofConstraint (c : Constraint α) :
    s.grow (.ofConstraint c) = { s with constraints := s.constraints ++ [c] } := by
  simp [grow, Declaration.asVariable, Declaration.asObjective, Declaration.asConstraint]

@[simp]
theorem grow_ofRow (name : String) (kind : ConstraintKind) :
    s.grow (.ofRow name kind) = s.grow (.ofConstraint ⟨name, kind, 0⟩) :=
  rfl

/-- The number of entries in the registry of a declaration. -/
def sizeFor (s : Snapshot α) : Declaration α → Nat
  | .ofVariable _ => s.vars.length
  | .ofObjective _ => s.objectives.length
  | .ofConstraint _ | .ofRow _ _ => s.constraints.length

/-- A declaration breaks no rule: its name is new in its registry, and the bounds of a variable are
in order. -/
def Admits (s : Snapshot α) : Declaration α → Prop
  | .ofVariable v => v.name ∉ s.vars.map Variable.name ∧ v.lower ≤ v.upper
  | .ofObjective name => name ∉ s.objectives
  | .ofConstraint c => c.name ∉ s.constraints.map Constraint.name
  | .ofRow name _ => name ∉ s.constraints.map Constraint.name

/-- The entry of a declaration stands at a position of its registry. -/
def HasAt (s : Snapshot α) (k : Nat) (d : Declaration α) : Prop :=
  (∀ v ∈ d.asVariable, s.vars[k]? = some v) ∧ (∀ o ∈ d.asObjective, s.objectives[k]? = some o) ∧
    ∀ c ∈ d.asConstraint, s.constraints[k]? = some c

theorem WellFormed.empty (name : String) : (Problem.empty (α := α) name).WellFormed where
  variable_names := List.nodup_nil
  bounds := nofun
  objective_names := List.nodup_nil
  constraint_names := List.nodup_nil

/-- An entry less breaks no rule. -/
theorem WellFormed.of_grow {d : Declaration α} (h : (s.grow d).WellFormed) : s.WellFormed where
  variable_names := by
    have hnames := h.variable_names
    rw [grow, List.map_append] at hnames
    exact hnames.of_append_left
  bounds := fun v hv => h.bounds v (List.mem_append_left _ hv)
  objective_names := h.objective_names.of_append_left
  constraint_names := by
    have hnames := h.constraint_names
    rw [grow, List.map_append] at hnames
    exact hnames.of_append_left

theorem WellFormed.of_foldl_grow {ds : List (Declaration α)}
    (h : (ds.foldl grow s).WellFormed) : s.WellFormed := by
  induction ds generalizing s with
  | nil => exact h
  | cons d ds ih => exact (ih h).of_grow

/-- Of a well formed snapshot, the grown one is well formed if the new entry breaks no rule. -/
theorem WellFormed.grow_iff (hs : s.WellFormed) (d : Declaration α) :
    (s.grow d).WellFormed ↔ s.Admits d := by
  have hnew {β : Type} {l : List β} {b : β} (hl : l.Nodup) : (l ++ [b]).Nodup ↔ b ∉ l := by
    rw [← List.concat_eq_append, List.nodup_concat, and_iff_left hl]
  rw [wellFormed_iff]
  cases d with
  | ofVariable v =>
    simp only [grow_ofVariable, List.map_append, List.map_singleton, hnew hs.variable_names,
      List.forall_mem_append, List.forall_mem_singleton, hs.objective_names, hs.constraint_names,
      and_true]
    exact and_congr_right fun _ => and_iff_right hs.bounds
  | ofObjective name =>
    simp only [grow_ofObjective, hnew hs.objective_names, hs.variable_names, hs.constraint_names,
      true_and, and_true]
    exact and_iff_right hs.bounds
  | ofConstraint c | ofRow name kind =>
    simp only [grow_ofRow, grow_ofConstraint, List.map_append, List.map_singleton,
      hnew hs.constraint_names, hs.variable_names, hs.objective_names, true_and]
    exact and_iff_right hs.bounds

end Snapshot

/-! ## One more entry -/

theorem any_name_iff {β : Type} {name : β → String} {l : List β} {a : String} :
    (l.any fun b => name b == a) = true ↔ a ∈ l.map name := by
  simp

namespace Problem

section

variable {p q : Problem α} {k : Nat}

theorem addVariable_eq_ok_iff [Scalar α] {v : Variable α} :
    p.addVariable v = .ok (q, k) ↔ v.name ∉ p.vars.map Variable.name ∧ v.lower ≤ v.upper ∧
      q = { p with vars := p.vars ++ [v] } ∧ k = p.vars.length := by
  simp only [addVariable, any_name_iff]
  split_ifs with hknown hbounds
  · simp only [hknown, not_true_eq_false, false_and]
  · simp only [Except.ok.injEq, Prod.mk.injEq, hknown, hbounds, not_false_eq_true, true_and,
      eq_comm]
  · simp only [hbounds, false_and, and_false]

theorem addObjective_eq_ok_iff {name : String} :
    p.addObjective name = .ok (q, k) ↔ name ∉ p.objectives ∧
      q = { p with objectives := p.objectives ++ [name] } ∧ k = p.objectives.length := by
  simp only [addObjective, List.contains_iff_mem]
  split_ifs with hknown
  · simp only [hknown, not_true_eq_false, false_and]
  · simp only [Except.ok.injEq, Prod.mk.injEq, hknown, not_false_eq_true, true_and, eq_comm]

theorem addConstraint_eq_ok_iff {c : Constraint α} :
    p.addConstraint c = .ok (q, k) ↔ c.name ∉ p.constraints.map Constraint.name ∧
      q = { p with constraints := p.constraints ++ [c] } ∧ k = p.constraints.length := by
  simp only [addConstraint, any_name_iff]
  split_ifs with hknown
  · simp only [hknown, not_true_eq_false, false_and]
  · simp only [Except.ok.injEq, Prod.mk.injEq, hknown, not_false_eq_true, true_and, eq_comm]

end

variable [Scalar α] {p q : Problem α} {k : Nat}

/-- The problem with one more entry, and its position. -/
def declare (p : Problem α) : Declaration α → Except (Error α) (Problem α × Nat)
  | .ofVariable v => p.addVariable v
  | .ofObjective name => p.addObjective name
  | .ofConstraint c => p.addConstraint c
  | .ofRow name kind => p.addConstraint ⟨name, kind, 0⟩

/-- Exactly the declarations that break no rule are taken. -/
theorem declare_eq_ok_iff {d : Declaration α} :
    p.declare d = .ok (q, k) ↔ p.Admits d ∧ q = ⟨p.grow d⟩ ∧ k = p.sizeFor d := by
  cases d with
  | ofVariable v =>
    rw [declare, addVariable_eq_ok_iff, Snapshot.Admits, and_assoc, Snapshot.grow_ofVariable]
    rfl
  | ofObjective name =>
    rw [declare, addObjective_eq_ok_iff, Snapshot.grow_ofObjective]
    rfl
  | ofConstraint c | ofRow name kind =>
    rw [declare, addConstraint_eq_ok_iff]
    simp only [Snapshot.grow_ofRow, Snapshot.grow_ofConstraint]
    rfl

/-! ## Snapshots -/

/-- Declarations one after another, up to the first that is refused. -/
theorem foldlM_declare_eq_ok_iff (hp : p.WellFormed) {ds : List (Declaration α)} :
    ds.foldlM (fun p d => Prod.fst <$> p.declare d) p = .ok q ↔
      (ds.foldl Snapshot.grow p.toSnapshot).WellFormed ∧
        q = ⟨ds.foldl Snapshot.grow p.toSnapshot⟩ := by
  induction ds generalizing p with
  | nil =>
    change Except.ok p = Except.ok q ↔ p.WellFormed ∧ q = p
    rw [Except.ok.injEq, and_iff_right hp, eq_comm]
  | cons d ds ih =>
    rw [List.foldlM_cons, List.foldl_cons]
    cases hd : p.declare d with
    | error e =>
      -- a refused entry breaks a rule, and no later entry mends that
      constructor
      · intro h
        cases h
      · rintro ⟨hall, -⟩
        have hadmits := (hp.grow_iff d).mp hall.of_foldl_grow
        rw [declare_eq_ok_iff.mpr ⟨hadmits, rfl, rfl⟩] at hd
        cases hd
    | ok r =>
      obtain ⟨hadmits, hr, -⟩ := declare_eq_ok_iff.mp hd
      have hgrown : (p.grow d).WellFormed := (hp.grow_iff d).mpr hadmits
      change ds.foldlM _ r.1 = Except.ok q ↔ _
      rw [hr]
      exact ih hgrown

end Problem

/-- The entries of a snapshot, in the order in which they are declared again. -/
def Snapshot.entries (s : Snapshot α) : List (Declaration α) :=
  s.vars.map .ofVariable ++ s.objectives.map .ofObjective ++ s.constraints.map .ofConstraint

namespace Problem

variable [Scalar α] {p : Problem α} {s : Snapshot α}

theorem ofSnapshot_eq_foldlM (s : Snapshot α) :
    ofSnapshot s = s.entries.foldlM (fun p d => Prod.fst <$> p.declare d) (empty s.name) := by
  simp only [ofSnapshot, Snapshot.entries, List.foldlM_append, List.foldlM_map, declare, bind_assoc]

theorem foldl_grow_entries (s : Snapshot α) :
    s.entries.foldl Snapshot.grow (empty s.name).toSnapshot = s := by
  -- variables, objectives and constraints come one after another, each into its own list
  have hvars (l : List (Variable α)) (t : Snapshot α) :
      (l.map .ofVariable).foldl Snapshot.grow t = { t with vars := t.vars ++ l } := by
    induction l generalizing t with
    | nil => simp
    | cons v l ih => simp [ih]
  have hobjectives (l : List String) (t : Snapshot α) :
      (l.map .ofObjective).foldl Snapshot.grow t = { t with objectives := t.objectives ++ l } := by
    induction l generalizing t with
    | nil => simp
    | cons v l ih => simp [ih]
  have hconstraints (l : List (Constraint α)) (t : Snapshot α) :
      (l.map .ofConstraint).foldl Snapshot.grow t =
        { t with constraints := t.constraints ++ l } := by
    induction l generalizing t with
    | nil => simp
    | cons v l ih => simp [ih]
  rw [Snapshot.entries, List.foldl_append, List.foldl_append, hvars, hobjectives, hconstraints]
  rfl

/-- The well formed snapshots can be declared, and only these; the problem is the snapshot. -/
theorem ofSnapshot_eq_ok_iff : ofSnapshot s = .ok p ↔ s.WellFormed ∧ p = ⟨s⟩ := by
  rw [ofSnapshot_eq_foldlM, foldlM_declare_eq_ok_iff (.empty s.name), foldl_grow_entries]

end Problem

/-! ## Declarations one after another -/

/-- The declarations that were taken, by the answers to them. -/
def Declaration.accepted :
    List (Declaration α) → List (Except (Error α) Nat) → List (Declaration α)
  | d :: ds, .ok _ :: answers => d :: accepted ds answers
  | _ :: ds, .error _ :: answers => accepted ds answers
  | _, _ => []

namespace Snapshot

variable [Scalar α] {s : Snapshot α} {d : Declaration α} {k : Nat}

/-- A new entry stands at the position it is answered. -/
theorem hasAt_grow (s : Snapshot α) (d : Declaration α) : (s.grow d).HasAt (s.sizeFor d) d := by
  cases d <;>
    simp [HasAt, sizeFor, Declaration.asVariable, Declaration.asObjective, Declaration.asConstraint]

/-- An entry keeps its position. -/
theorem HasAt.grow (h : s.HasAt k d) (e : Declaration α) : (s.grow e).HasAt k d := by
  have hkeep {β : Type} {l m : List β} {b : β} (h : l[k]? = some b) : (l ++ m)[k]? = some b := by
    rw [List.getElem?_append_left (List.getElem?_eq_some_iff.mp h).1, h]
  exact ⟨fun v hv => hkeep (h.1 v hv), fun o ho => hkeep (h.2.1 o ho),
    fun c hc => hkeep (h.2.2 c hc)⟩

theorem foldl_grow_eq (ds : List (Declaration α)) (s : Snapshot α) :
    ds.foldl grow s = ⟨s.name, s.vars ++ ds.filterMap Declaration.asVariable,
      s.objectives ++ ds.filterMap Declaration.asObjective,
      s.constraints ++ ds.filterMap Declaration.asConstraint⟩ := by
  induction ds generalizing s with
  | nil => simp
  | cons d ds ih => 
    rw [List.foldl_cons, ih]
    cases d <;> simp [List.filterMap_cons, Declaration.asVariable, Declaration.asObjective,
      Declaration.asConstraint]

end Snapshot

namespace Problem

variable [Scalar α] {p : Problem α}

/-- A declaration that is refused leaves the problem as it is. -/
def attempt (p : Problem α) (d : Declaration α) : Problem α × Except (Error α) Nat :=
  match p.declare d with
  | .ok (q, k) => (q, .ok k)
  | .error e => (p, .error e)

/-- The problem after some declarations, with the answers to them. -/
def attempts (p : Problem α) : List (Declaration α) → Problem α × List (Except (Error α) Nat)
  | [] => (p, [])
  | d :: ds =>
    let (q, answer) := p.attempt d
    let (q, answers) := q.attempts ds
    (q, answer :: answers)

/-- A declaration is taken and answered with the position, or it is refused. -/
theorem attempt_cases (p : Problem α) (d : Declaration α) :
    (p.Admits d ∧ p.attempt d = (⟨p.grow d⟩, .ok (p.sizeFor d))) ∨
      ¬ p.Admits d ∧ ∃ e, p.attempt d = (p, .error e) := by
  unfold attempt
  cases hd : p.declare d with
  | ok r =>
    obtain ⟨hadmits, hq, hk⟩ := declare_eq_ok_iff.mp hd
    exact .inl ⟨hadmits, Prod.ext hq (congrArg Except.ok hk)⟩
  | error e =>
    refine .inr ⟨fun hadmits => ?_, e, rfl⟩
    rw [declare_eq_ok_iff.mpr ⟨hadmits, rfl, rfl⟩] at hd
    cases hd

theorem attempts_append (p : Problem α) (ds es : List (Declaration α)) :
    p.attempts (ds ++ es) =
      (((p.attempts ds).1.attempts es).1,
        (p.attempts ds).2 ++ ((p.attempts ds).1.attempts es).2) := by
  induction ds generalizing p with
  | nil => rfl
  | cons d ds ih => simp only [List.cons_append, attempts, ih]

theorem length_attempts (p : Problem α) (ds : List (Declaration α)) :
    (p.attempts ds).2.length = ds.length := by
  induction ds generalizing p with
  | nil => rfl
  | cons d ds ih => exact congrArg (· + 1) (ih (p.attempt d).1)

/-- The entries are those of the declarations that were taken. -/
theorem attempts_eq_foldl_grow (p : Problem α) (ds : List (Declaration α)) :
    (p.attempts ds).1.toSnapshot =
      (Declaration.accepted ds (p.attempts ds).2).foldl Snapshot.grow p.toSnapshot := by
  -- on the declarations: one that is refused leaves the problem as it is
  induction ds generalizing p with
  | nil => rfl
  | cons d ds ih =>
    rw [attempts]
    rcases p.attempt_cases d with ⟨-, h⟩ | ⟨-, e, h⟩
    · rw [h]
      exact ih ⟨p.grow d⟩
    · rw [h]
      exact ih p

theorem wellFormed_attempt (hp : p.WellFormed) (d : Declaration α) :
    (p.attempt d).1.WellFormed := by
  rcases p.attempt_cases d with ⟨hadmits, h⟩ | ⟨-, e, h⟩
  · rw [h]
    exact (hp.grow_iff d).mpr hadmits
  · rw [h]
    exact hp

theorem wellFormed_attempts (hp : p.WellFormed) (ds : List (Declaration α)) :
    (p.attempts ds).1.WellFormed := by
  induction ds generalizing p with
  | nil => exact hp
  | cons d ds ih => exact ih (wellFormed_attempt hp d)

theorem hasAt_attempts {k : Nat} {d : Declaration α} (h : p.HasAt k d) (ds : List (Declaration α)) :
    (p.attempts ds).1.HasAt k d := by
  rw [attempts_eq_foldl_grow]
  generalize Declaration.accepted ds (p.attempts ds).2 = es
  generalize p.toSnapshot = s at h
  induction es generalizing s with
  | nil => exact h
  | cons e es ih => exact ih _ (h.grow e)

/-- A declaration that was taken has been answered with the position of its entry. -/
theorem hasAt_of_answer {ds : List (Declaration α)} {i k : Nat} {d : Declaration α}
    (hd : ds[i]? = some d) (hk : (p.attempts ds).2[i]? = some (.ok k)) :
    (p.attempts ds).1.HasAt k d := by
  -- on the declarations: what has been put in place stays there
  induction ds generalizing p i with
  | nil => cases hd
  | cons e ds ih =>
    cases i with
    | succ i => exact ih hd hk
    | zero =>
      obtain rfl : e = d := Option.some.inj hd
      obtain h : (p.attempt e).2 = .ok k := Option.some.inj hk
      rw [attempts]
      rcases p.attempt_cases e with ⟨-, he⟩ | ⟨-, _, he⟩
      · rw [he] at h ⊢
        obtain rfl : p.sizeFor e = k := Except.ok.inj h
        exact hasAt_attempts (p.hasAt_grow e) ds
      · rw [he] at h
        cases h

end Problem

/-! ## Declarations at a workbench -/

/-- Declarations one after another, with the answer to each. -/
def Work.declareAll : List (Declaration Double) → Work (List (Except (Error Double) Nat))
  | [] => return []
  | d :: ds => do
    let w ← getThe Workbench
    let answer ← observing (Work.declare (w.problem.declare d))
    let answers ← declareAll ds
    return answer :: answers

theorem Work.run_declareAll (ds : List (Declaration Double)) (w : Workbench) :
    (Work.declareAll ds).run.run w =
      .done (.ok (w.problem.attempts ds).2,
        { w with problem := (w.problem.attempts ds).1 }) := by
  -- on the declarations, each of which is made at the workbench the one before has left
  induction ds generalizing w with
  | nil => rfl
  | cons d ds ih =>
    have hattempt : (observing (Work.declare (w.problem.declare d))).run.run w =
        .done (.ok (w.problem.attempt d).2, { w with problem := (w.problem.attempt d).1 }) := by
      unfold Problem.attempt
      cases w.problem.declare d <;> rfl
    rw [declareAll, ExceptT.run_bind, StateT.run_bind]
    change (observing (Work.declare (w.problem.declare d)) >>= fun answer =>
      declareAll ds >>= fun answers => pure (answer :: answers)).run.run w = _
    rw [ExceptT.run_bind, StateT.run_bind, hattempt]
    change (declareAll ds >>= fun answers => pure (_ :: answers)).run.run _ = _
    rw [ExceptT.run_bind, StateT.run_bind, ih]
    rfl

/-- What a problem is after some declarations that were answered one by one. -/
structure Problem.Registers (p : Problem Double) (name : String)
    (ds : List (Declaration Double)) (answers : List (Except (Error Double) Nat)) : Prop where
  length : answers.length = ds.length
  name : p.name = name
  wellFormed : p.WellFormed
  numbers : ∀ v ∈ p.vars, v.lower.isNaN = false ∧ v.upper.isNaN = false
  vars : p.vars = (Declaration.accepted ds answers).filterMap Declaration.asVariable
  objectives : p.objectives = (Declaration.accepted ds answers).filterMap Declaration.asObjective
  constraints : p.constraints = (Declaration.accepted ds answers).filterMap Declaration.asConstraint
  position : ∀ (i k : Nat) (d : Declaration Double), ds[i]? = some d →
    answers[i]? = some (.ok k) → p.HasAt k d

theorem Problem.registers_attempts (name : String) (ds : List (Declaration Double)) :
    ((Problem.empty name).attempts ds).1.Registers name ds
      ((Problem.empty name).attempts ds).2 := by
  have hgrown := (Problem.empty name).attempts_eq_foldl_grow ds
  rw [Snapshot.foldl_grow_eq] at hgrown
  have hwell := Problem.wellFormed_attempts (.empty name) ds
  constructor
  case length => exact Problem.length_attempts _ ds
  case name => rw [hgrown]; rfl
  case wellFormed => exact hwell
  case numbers => exact fun v hv => Double.not_isNaN_of_le (hwell.bounds v hv)
  case vars => rw [hgrown]; rfl
  case objectives => rw [hgrown]; rfl
  case constraints => rw [hgrown]; rfl
  case position => exact fun i k d hd hk => Problem.hasAt_of_answer hd hk

/-- How a problem answers one more declaration: it takes an entry that breaks no rule, at the end
of its registry, and otherwise stays as it is. -/
inductive Problem.Answers (p : Problem Double) (d : Declaration Double) :
    Except (Error Double) Nat → Problem Double → Prop
  | taken (hadmits : p.Admits d) : Answers p d (.ok (p.sizeFor d)) ⟨p.grow d⟩
  | refused (e : Error Double) (hadmits : ¬ p.Admits d) : Answers p d (.error e) p

theorem Problem.answers_attempt (p : Problem Double) (d : Declaration Double) :
    p.Answers d (p.attempt d).2 (p.attempt d).1 := by
  rcases p.attempt_cases d with ⟨hadmits, h⟩ | ⟨hadmits, e, h⟩
  · rw [h]
    exact .taken hadmits
  · rw [h]
    exact .refused e hadmits

/-- After any declarations at a new problem the entries are those of the declarations that were
taken, names are distinct and bounds are in order; one more declaration is taken if it keeps that
so, and otherwise changes nothing.  A snapshot can be declared exactly if it is well formed, and
the problem then has its entries; so a problem can be declared from its own snapshot. -/
theorem Work.registry_law (w : Workbench) (name : String) (ds : List (Declaration Double))
    (d : Declaration Double) :
    (∃ p answers, (Work.declareAll ds).run.run { w with problem := .empty name } =
        .done (.ok answers, { w with problem := p }) ∧
      p.Registers name ds answers ∧ Problem.ofSnapshot p.toSnapshot = .ok p ∧
      ∃ q answer, (Work.declareAll (ds ++ [d])).run.run { w with problem := .empty name } =
        .done (.ok (answers ++ [answer]), { w with problem := q }) ∧ p.Answers d answer q) ∧
    ∀ s : Snapshot Double, ((∃ p, Problem.ofSnapshot s = .ok p) ↔ s.WellFormed) ∧
      ∀ p, Problem.ofSnapshot s = .ok p → p.toSnapshot = s := by
  constructor
  · have hregisters := Problem.registers_attempts name ds
    refine ⟨_, _, Work.run_declareAll ds _, hregisters, ?_, ?_⟩
    · exact Problem.ofSnapshot_eq_ok_iff.mpr ⟨hregisters.wellFormed, rfl⟩
    · refine ⟨_, ((Problem.attempts (.empty name) ds).1.attempt d).2, ?_,
        Problem.answers_attempt _ d⟩
      rw [Work.run_declareAll, Problem.attempts_append]
      rfl
  · intro s
    refine ⟨⟨fun ⟨p, hp⟩ => (Problem.ofSnapshot_eq_ok_iff.mp hp).1, fun hs => ?_⟩, fun p hp => ?_⟩
    · exact ⟨⟨s⟩, Problem.ofSnapshot_eq_ok_iff.mpr ⟨hs, rfl⟩⟩
    · rw [(Problem.ofSnapshot_eq_ok_iff.mp hp).2]

end Nlp
