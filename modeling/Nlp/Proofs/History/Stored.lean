import Nlp.History.Codec
import Nlp.Proofs.Problem.Registry

/-!
# Stored problems and solutions read back

A snapshot or a solution is stored as a record of its fields, in which a number that is infinite or
no number has no value.  So it reads back exactly if all its numbers are finite, and otherwise it
cannot be read at all.  What a number looks like in the text is left to the text layer: whatever
is said of stored texts supposes that the text at hand reads as the value that was written.

## Main definitions

* `Snapshot.isFinite`, `Solution.isFinite`: all numbers are finite.
* `Solution.Storable`: the counts of a solution are machine words, and its table is in order.

## Main results

* `Snapshot.ofJson?_toJson`, `Solution.ofJson?_toJson`: what reads back from a record.
* `load_store`: what reads back from a stored text.
-/

namespace Nlp

/-- Only what has been read is read on. -/
theorem bind_ite_some {β γ : Type} {p : Prop} [Decidable p] {b : β} {f : β → Option γ} :
    (if p then some b else none).bind f = if p then f b else none := by
  split <;> rfl

/-! ## Values -/

namespace Json

variable {β γ : Type}

@[simp]
theorem double?_ofDouble (d : Double) :
    (ofDouble d).double? = if d.isFinite then some d else none := by
  unfold ofDouble
  split <;> rfl

theorem natural?_ofNat {bits n : Nat} (h : n < 2 ^ bits) : (ofNat n).natural? bits = some n :=
  if_pos ⟨Int.natCast_nonneg n, h⟩

/-- A list reads back if each item does. -/
theorem list?_map {item? : Json → Option β} {write : β → Json} {good : β → Bool}
    (h : ∀ b, item? (write b) = if good b then some b else none) (l : List β) :
    (array (l.map write)).list? item? = if l.all good then some l else none := by
  rw [list?, List.mapM_map]
  induction l with
  | nil => rfl
  | cons b l ih =>
    rw [List.mapM_cons, Function.comp_apply, h b, ih, List.all_cons]
    cases good b <;> cases l.all good <;> rfl

theorem single?_of_mem {fields : List (String × Json)} (h : (fields.map Prod.fst).Nodup)
    {field : String × Json} (hmem : field ∈ fields) :
    single? fields field.1 = some field.2 := by
  have hfilter : fields.filter (fun f => f.1 == field.1) = [field] := by
    -- on the fields: no other one has this name
    induction fields with
    | nil => cases hmem
    | cons f fields ih =>
      rw [List.map_cons, List.nodup_cons] at h
      rcases List.mem_cons.mp hmem with rfl | hmem
      · rw [List.filter_cons_of_pos (by simp), List.filter_eq_nil_iff.mpr]
        intro g hg hname
        exact h.1 (List.mem_map.mpr ⟨g, hg, beq_iff_eq.mp hname⟩)
      · rw [List.filter_cons_of_neg, ih h.2 hmem]
        intro hname
        exact h.1 (List.mem_map.mpr ⟨field, hmem, (beq_iff_eq.mp hname).symm⟩)
  rw [single?, hfilter]

theorem mapM_eq_some_of_zip {f : β → Option γ} {l : List β} {m : List γ}
    (hlength : l.length = m.length) (h : ∀ p ∈ l.zip m, f p.1 = some p.2) :
    l.mapM f = some m := by
  -- on both lists, which are of the same length
  induction l generalizing m with
  | nil =>
    cases m with
    | nil => rfl
    | cons c m => cases hlength
  | cons b l ih =>
    cases m with
    | nil => cases hlength
    | cons c m =>
      rw [List.zip_cons_cons, List.forall_mem_cons] at h
      rw [List.mapM_cons, h.1, ih (Nat.succ.inj hlength) h.2]
      rfl

/-- A record gives back the values of its fields. -/
theorem record?_zip (names : List String) (values : List Json) (hnames : names.Nodup)
    (hlength : names.length = values.length) :
    (object (names.zip values)).record? names = some values := by
  apply mapM_eq_some_of_zip hlength
  intro p hp
  apply single?_of_mem _ hp
  rwa [List.map_fst_zip (Nat.le_of_eq hlength)]

end Json

/-! ## Problems -/

theorem VariableKind.variant?_name (k : VariableKind) :
    (Json.text k.name).variant? table = some k := by
  cases k <;> rfl

theorem ConstraintKind.variant?_name (k : ConstraintKind) :
    (Json.text k.name).variant? table = some k := by
  cases k <;> rfl

namespace Variable

/-- Its bounds and its value are finite. -/
def isFinite (v : Variable Double) : Bool :=
  v.lower.isFinite && v.upper.isFinite && v.value.isFinite

theorem ofJson?_toJson (v : Variable Double) :
    ofJson? v.toJson = if v.isFinite then some v else none := by
  have hrecord : v.toJson.record? _ = some _ :=
    Json.record?_zip ["name", "kind", "lower", "upper", "value"]
      [.text v.name, .text v.kind.name, .ofDouble v.lower, .ofDouble v.upper, .ofDouble v.value]
      (by decide) rfl
  simp only [ofJson?, hrecord, Json.text?, v.kind.variant?_name, Json.double?_ofDouble, isFinite,
    Bool.and_eq_true, ite_and, Option.pure_def, Option.bind_eq_bind, Option.bind_some,
    bind_ite_some]

end Variable

namespace Constraint

theorem ofJson?_toJson (c : Constraint Double) :
    ofJson? c.toJson = if c.target.isFinite then some c else none := by
  have hrecord : c.toJson.record? _ = some _ :=
    Json.record?_zip ["name", "kind", "target"]
      [.text c.name, .text c.kind.name, .ofDouble c.target] (by decide) rfl
  simp only [ofJson?, hrecord, Json.text?, c.kind.variant?_name, Json.double?_ofDouble,
    Option.pure_def, Option.bind_eq_bind, Option.bind_some, bind_ite_some]

end Constraint

theorem objectiveOfJson?_toJson (name : String) :
    objectiveOfJson? (objectiveToJson name) = some name :=
  rfl

namespace Snapshot

/-- All its numbers are finite: bounds, values and targets. -/
def isFinite (s : Snapshot Double) : Bool :=
  s.vars.all Variable.isFinite && s.constraints.all fun c => c.target.isFinite

/-- A snapshot reads back from its record exactly if its numbers are finite. -/
theorem ofJson?_toJson (s : Snapshot Double) :
    ofJson? s.toJson = if s.isFinite then some s else none := by
  have hrecord : s.toJson.record? _ = some _ :=
    Json.record?_zip ["name", "variables", "objectives", "constraints"]
      [.text s.name, .array (s.vars.map Variable.toJson),
        .array (s.objectives.map objectiveToJson),
        .array (s.constraints.map Constraint.toJson)] (by decide) rfl
  have hobjectives : (Json.array (s.objectives.map objectiveToJson)).list? objectiveOfJson? =
      some s.objectives := by
    rw [@Json.list?_map _ _ _ (fun _ => true) objectiveOfJson?_toJson, if_pos (by simp)]
  simp only [ofJson?, hrecord, Json.text?, Json.list?_map Variable.ofJson?_toJson, hobjectives,
    Json.list?_map Constraint.ofJson?_toJson, isFinite, Bool.and_eq_true, ite_and,
    Option.pure_def, Option.bind_eq_bind, Option.bind_some, bind_ite_some]

end Snapshot

/-! ## Options -/

namespace OptionValue

/-- It is no number, or a finite one. -/
def isFinite : OptionValue → Bool
  | .float d => d.isFinite
  | _ => true

theorem ofJson?_toJson (v : OptionValue) :
    ofJson? v.toJson = if v.isFinite then some v else none := by
  cases v with
  | bool b => rfl
  | text s => rfl
  | int i =>
    rw [toJson, ofJson?, if_pos ⟨i.minValue_le_toInt, i.toInt_le⟩, Int64.ofInt_toInt]
    rfl
  | float d =>
    rw [toJson, isFinite, Json.ofDouble]
    split <;> rfl

end OptionValue

namespace Ascending

/-- What comes after all keys goes to the end. -/
theorem insert_eq_concat {β : Type} {key : String} {value : β} {t : Ascending String β}
    (h : ∀ entry ∈ t, entry.1 < key) : insert key value t = t ++ [(key, value)] := by
  induction t with
  | nil => rfl
  | cons entry t ih =>
    obtain ⟨k, v⟩ := entry
    rw [List.forall_mem_cons] at h
    have hne : key ≠ k := fun heq => String.lt_irrefl key (heq ▸ h.1)
    rw [insert, if_neg (String.lt_asymm h.1), if_neg hne, ih h.2, List.cons_append]

/-- A table in order is built from its entries. -/
theorem ofList_eq_self {β : Type} {t : Ascending String β}
    (h : (t.map Prod.fst).Pairwise (· < ·)) : ofList t = t := by
  have hfold : ∀ (l done : List (String × β)), ((done ++ l).map Prod.fst).Pairwise (· < ·) →
      l.foldl (fun table (key, value) => insert key value table) done = done ++ l := by
    intro l
    -- on the entries that are left, each of which goes behind those that are done
    induction l with
    | nil => exact fun done _ => (List.append_nil done).symm
    | cons entry l ih =>
      intro done hdone
      obtain ⟨key, value⟩ := entry
      have hlast : ∀ e ∈ done, e.1 < key := fun e he =>
        (List.pairwise_append.mp (List.pairwise_map.mp hdone)).2.2 e he _ List.mem_cons_self
      change l.foldl _ (insert key value done) = _
      rw [insert_eq_concat hlast, ih, List.append_assoc, List.singleton_append]
      rwa [List.append_assoc, List.singleton_append]
  exact hfold t [] h

end Ascending

namespace OptionTable

/-- All its values are finite. -/
def isFinite (t : OptionTable) : Bool :=
  t.all fun entry => entry.2.isFinite

theorem ofJson?_toJson {t : OptionTable} (h : (t.map Prod.fst).Pairwise (· < ·)) :
    ofJson? t.toJson = if t.isFinite then some t else none := by
  have hentries : (t.map fun entry => (entry.1, entry.2.toJson)).mapM
      (fun entry : String × Json => do return (entry.1, ← OptionValue.ofJson? entry.2)) =
        if t.isFinite then some t else none := by
    clear h
    rw [List.mapM_map, isFinite]
    induction t with
    | nil => rfl
    | cons entry t ih =>
      rw [List.mapM_cons, Function.comp_apply, OptionValue.ofJson?_toJson, ih, List.all_cons]
      cases entry.2.isFinite <;> cases t.all (fun entry => entry.2.isFinite) <;> rfl
  change (t.map fun entry => (entry.1, entry.2.toJson)).mapM _ >>= _ = _
  rw [hentries]
  cases t.isFinite with
  | false => rfl
  | true => exact congrArg some (Ascending.ofList_eq_self h)

end OptionTable

/-! ## Solutions -/

namespace Duration

/-- Its parts are machine words, and its nanoseconds are less than a second. -/
def IsNormal (d : Duration) : Prop :=
  d.seconds < 2 ^ 64 ∧ d.nanoseconds < 1_000_000_000

theorem ofJson?_toJson {d : Duration} (h : d.IsNormal) : ofJson? d.toJson = some d := by
  have hrecord : d.toJson.record? _ = some _ :=
    Json.record?_zip ["secs", "nanos"] [.ofNat d.seconds, .ofNat d.nanoseconds]
      (by decide) rfl
  obtain ⟨hseconds, hnanoseconds⟩ := h
  have hcarried : d.nanoseconds / 1_000_000_000 = 0 := Nat.div_eq_of_lt hnanoseconds
  have hword : d.nanoseconds < 2 ^ 32 := Nat.lt_trans hnanoseconds (by decide)
  simp only [ofJson?, hrecord, Option.bind_eq_bind, Option.bind_some, Json.natural?_ofNat hseconds,
    Json.natural?_ofNat hword, hcarried]
  rw [if_pos ⟨rfl, hseconds⟩, Nat.mod_eq_of_lt hnanoseconds]
  rfl

end Duration

namespace SolvedConstraint

/-- Its numbers are finite. -/
def isFinite (c : SolvedConstraint) : Bool :=
  c.target.isFinite && c.value.isFinite && c.multiplier.isFinite

theorem ofJson?_toJson (c : SolvedConstraint) :
    ofJson? c.toJson = if c.isFinite then some c else none := by
  have hrecord : c.toJson.record? _ = some _ :=
    Json.record?_zip ["name", "kind", "target", "value", "multiplier"]
      [.text c.name, .text c.kind.name, .ofDouble c.target, .ofDouble c.value,
        .ofDouble c.multiplier] (by decide) rfl
  simp only [ofJson?, hrecord, Json.text?, c.kind.variant?_name, Json.double?_ofDouble, isFinite,
    Bool.and_eq_true, ite_and, Option.pure_def, Option.bind_eq_bind, Option.bind_some,
    bind_ite_some]

end SolvedConstraint

namespace Method

/-- Its step is finite, if it has one. -/
def isFinite : Method Double → Bool
  | finiteDifference step | complexStep step => step.isFinite
  | analytic => true

theorem ofJson?_toJson (m : Method Double) :
    ofJson? m.toJson = if m.isFinite then some m else none := by
  cases m with
  | analytic => rfl
  | finiteDifference step | complexStep step =>
    have hrecord : (Json.object [("step", .ofDouble step)]).record? _ = some _ :=
      Json.record?_zip ["step"] [.ofDouble step] (by decide) rfl
    simp only [toJson, stepToJson, ofJson?, hrecord, Json.double?_ofDouble, isFinite,
      Option.pure_def, Option.bind_eq_bind, Option.bind_some, bind_ite_some]
    rfl

end Method

theorem Mode.variant?_name (m : Mode) : (Json.text m.name).variant? table = some m := by
  cases m <;> rfl

namespace Statistics

/-- Its counts are machine words. -/
structure Storable (s : Statistics) : Prop where
  wallTime : s.wallTime.IsNormal
  iterations : s.iterations < 2 ^ 64
  evaluations : s.evaluations < 2 ^ 64
  jacobians : s.jacobians < 2 ^ 64
  sensitivityEvaluations : s.sensitivityEvaluations < 2 ^ 64
  ranks : s.ranks < 2 ^ 64

theorem ofJson?_toJson {s : Statistics} (h : s.Storable) :
    ofJson? s.toJson = if s.method.isFinite then some s else none := by
  have hrecord : s.toJson.record? _ = some _ :=
    Json.record?_zip ["wall_time", "iterations", "evaluations", "jacobian_evaluations",
      "sensitivity_evaluations", "sensitivity", "mode", "ranks"]
      [s.wallTime.toJson, .ofNat s.iterations, .ofNat s.evaluations, .ofNat s.jacobians,
        .ofNat s.sensitivityEvaluations, s.method.toJson, .text s.mode.name, .ofNat s.ranks]
      (by decide) rfl
  simp only [ofJson?, hrecord, Duration.ofJson?_toJson h.wallTime,
    Json.natural?_ofNat h.iterations, Json.natural?_ofNat h.evaluations,
    Json.natural?_ofNat h.jacobians, Json.natural?_ofNat h.sensitivityEvaluations,
    Json.natural?_ofNat h.ranks, Method.ofJson?_toJson, s.mode.variant?_name,
    Option.pure_def, Option.bind_eq_bind, Option.bind_some, bind_ite_some]

end Statistics

theorem Status.variant?_name (s : Status) : (Json.text s.name).variant? table = some s := by
  cases s <;> rfl

namespace Solution

/-- Its counts are machine words, and the table of its options is in order. -/
structure Storable (s : Solution) : Prop where
  index : s.index < 2 ^ 64
  statistics : s.statistics.Storable
  options : (s.options.map Prod.fst).Pairwise (· < ·)

/-- All its numbers are finite. -/
def isFinite (s : Solution) : Bool :=
  s.objective.isFinite && s.vars.all Variable.isFinite &&
    s.constraints.all SolvedConstraint.isFinite && s.objectiveHistory.all Double.isFinite &&
    s.statistics.method.isFinite && s.options.isFinite

/-- A solution reads back from its record exactly if its numbers are finite. -/
theorem ofJson?_toJson {s : Solution} (h : s.Storable) :
    ofJson? s.toJson = if s.isFinite then some s else none := by
  have hrecord : s.toJson.record? _ = some _ :=
    Json.record?_zip ["index", "problem", "optimizer", "status", "message",
      "objective_name", "objective", "variables", "constraints", "objective_history", "stats",
      "options"]
      [.ofNat s.index, .text s.problem, .text s.optimizer, .text s.status.name, .text s.message,
        .text s.objectiveName, .ofDouble s.objective, .array (s.vars.map Variable.toJson),
        .array (s.constraints.map SolvedConstraint.toJson),
        .array (s.objectiveHistory.map Json.ofDouble), s.statistics.toJson, s.options.toJson]
      (by decide) rfl
  have hvars := Json.list?_map Variable.ofJson?_toJson s.vars
  have hconstraints := Json.list?_map SolvedConstraint.ofJson?_toJson s.constraints
  have hhistory := Json.list?_map Json.double?_ofDouble s.objectiveHistory
  rw [ofJson?, hrecord]
  dsimp only [Option.bind_eq_bind, Option.bind_some, Json.text?]
  rw [Json.natural?_ofNat h.index, s.status.variant?_name, Json.double?_ofDouble, hvars,
    hconstraints, hhistory, Statistics.ofJson?_toJson h.statistics,
    OptionTable.ofJson?_toJson h.options]
  dsimp only [Option.bind_some]
  -- from the outside in: under the binders of the later fields it would take long
  iterate 6 rw [bind_ite_some]
  simp only [isFinite, Bool.and_eq_true, ite_and]
  rfl

end Solution

/-! ## Stored texts -/

/-- A stored problem, and a stored solution, is read back if all its numbers are finite; otherwise
reading it fails.  The texts are supposed to read as the values that were written. -/
theorem load_store {snapshot : Snapshot Double} {solution : Solution}
    (hstorable : solution.Storable)
    (hsnapshot : Json.parse? snapshot.store = some snapshot.toJson)
    (hsolution : Json.parse? solution.store = some solution.toJson) :
    (Snapshot.load snapshot.store =
      if snapshot.isFinite then .ok snapshot else .error .serialization) ∧
    Solution.load solution.store =
      if solution.isFinite then .ok solution else .error .serialization := by
  constructor
  · rw [Snapshot.load, hsnapshot, Option.bind_eq_bind, Option.bind_some, Snapshot.ofJson?_toJson]
    cases snapshot.isFinite <;> rfl
  · rw [Solution.load, hsolution, Option.bind_eq_bind, Option.bind_some,
      Solution.ofJson?_toJson hstorable]
    cases solution.isFinite <;> rfl

/-- A problem with one variable, from zero up to some number. -/
def segment (upper : Double) : Snapshot Double :=
  ⟨"p", [⟨"x", .continuous, 0, upper, 1⟩], ["f"], []⟩

/-- The record of a run that went astray. -/
def astray : Solution where
  index := 0
  problem := "p"
  optimizer := "bfgs"
  status := .diverged
  message := "Iterates diverging"
  objectiveName := "f"
  objective := .nan
  vars := []
  constraints := []
  objectiveHistory := []
  statistics := ⟨⟨0, 0⟩, 1, 1, 1, 1, .analytic, .sequential, 1⟩
  options := [("print_level", .int 0)]

theorem storable_astray : astray.Storable where
  index := by decide
  statistics := ⟨⟨by decide, by decide⟩, by decide, by decide, by decide, by decide, by decide⟩
  options := List.pairwise_singleton _ _

/-- The text of a segment reads as it was written, be its end finite or not. -/
theorem parse?_store_segment {upper : Double} (h : upper = 1 ∨ upper = .infinity) :
    Json.parse? (segment upper).store = some (segment upper).toJson := by
  -- characters are joined faster than texts
  simp only [Json.parse?, Snapshot.store, segment, Snapshot.toJson, List.map, Variable.toJson,
    objectiveToJson, Json.pretty, Json.prettyAt, Json.prettyItems, Json.prettyFields,
    Json.newline, Json.quote, Json.scalarText, String.toList_append, String.toList_ofList,
    String.toList_intercalate]
  rcases h with rfl | rfl <;> decide +kernel

theorem parse?_store_astray : Json.parse? astray.store = some astray.toJson := by
  simp only [Json.parse?, Solution.store, astray, Solution.toJson, List.map, Statistics.toJson,
    Duration.toJson, Method.toJson, OptionTable.toJson, OptionValue.toJson, Json.pretty,
    Json.prettyAt, Json.prettyFields, Json.ofNat, Json.newline, Json.quote, Json.scalarText,
    String.toList_append, String.toList_ofList, String.toList_intercalate]
  decide +kernel

theorem load_store_segment_astray :
    Snapshot.load (segment 1).store = .ok (segment 1) ∧
      Solution.load astray.store = .error .serialization := by
  obtain ⟨hsegment, hastray⟩ :=
    load_store storable_astray (parse?_store_segment (.inl rfl)) parse?_store_astray
  rw [hsegment, hastray]
  exact ⟨rfl, rfl⟩

/-- A variable may have no upper bound, and then its problem does not read back. -/
theorem load_store_half_line :
    Problem.ofSnapshot (segment .infinity) = .ok ⟨segment .infinity⟩ ∧
      Snapshot.load (segment .infinity).store = .error .serialization := by
  constructor
  · rw [Problem.ofSnapshot_eq_ok_iff, Snapshot.wellFormed_iff]
    decide
  · rw [Snapshot.load, parse?_store_segment (.inr rfl), Option.bind_eq_bind, Option.bind_some,
      Snapshot.ofJson?_toJson]
    rfl

end Nlp
