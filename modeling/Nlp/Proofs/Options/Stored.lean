import Nlp.Proofs.History.Stored
import Nlp.Proofs.Json.Layout
import Nlp.Proofs.Options.Admission
import Nlp.Proofs.Solve.Baseline
import Nlp.Proofs.Solve.Completeness

/-!
# Stored options

An option value is stored without a tag, so its type has to be found again in the characters.  It
always is: a finite number has a point or a power of ten and an integer has neither, and a text is
in quotes, whatever it looks like.  The options on record are such values, for an option accepts
finite numbers only, and no key among them comes twice.

How close a number comes to the one that was stored is the reader's affair, and so it is supposed
here, number by number, that the reader brings it back.

## Main definitions

* `OptionValue.store`, `OptionValue.load?`: the text of a value, and the value of a text.
* `OptionValue.ReadsBack`, `OptionTable.ReadsBack`: the numbers are brought back.
* `OptionValue.Survives`, `Solution.OptionsSurvive`: what storing does to a value, and to the
  options of a solution.
* `Adapter.Configured`: the solvers of this library, with whatever has been set.

## Main results

* `OptionValue.survives`, `Solution.optionsSurvive`: finite values, in order, survive.
* `Work.options_of_run`: solves put the options of their solvers on record.
* `Work.options_survive`: whatever has been set, it survives on record.
-/

namespace Nlp

variable {σ τ : Type}

/-! ## Values -/

namespace OptionValue

/-- The value as it is stored. -/
def store (v : OptionValue) : String :=
  v.toJson.compact

/-- A value from a stored text. -/
def load? (s : String) : Option OptionValue :=
  Json.parse? s >>= ofJson?

/-- Its number, if it is one, is brought back by the reader of numbers. -/
def ReadsBack : OptionValue → Prop
  | .float d => d.ReadsBack
  | _ => True

/-- What is read is what the reader makes of the value. -/
theorem load?_store (v : OptionValue) : load? v.store = ofJson? v.toJson.reread := by
  rw [load?, store, (Json.parse?_written _).1]
  rfl

/-- An integer of 64 bits is one that is read as it is. -/
theorem reread_int (i : Int64) : (toJson (.int i)).reread = toJson (.int i) := by
  have hlow := i.le_toInt
  have hhigh := i.toInt_lt
  exact Json.reread_int (by omega) (by omega)

/-- The stored value is read as it is, if its number is brought back. -/
theorem reread_toJson {v : OptionValue} (hfinite : v.isFinite = true) (h : v.ReadsBack) :
    v.toJson.reread = v.toJson := by
  cases v with
  | bool b => rfl
  | text s => rfl
  | int i => exact reread_int i
  | float d =>
    have hfinite : d.isFinite = true := hfinite
    rw [toJson, Json.ofDouble, if_pos hfinite, Json.reread_readsBack hfinite h]

/-- Whatever is read for a stored value is of the same type. -/
theorem typeName_eq_of_reread {v w : OptionValue} (hfinite : v.isFinite = true)
    (h : ofJson? v.toJson.reread = some w) : w.typeName = v.typeName := by
  cases v with
  | bool b =>
    cases h
    rfl
  | text s =>
    cases h
    rfl
  | int i =>
    rw [reread_int, ofJson?_toJson, if_pos hfinite] at h
    cases h
    rfl
  | float d =>
    have hfinite : d.isFinite = true := hfinite
    obtain ⟨n, -, hread⟩ := Json.reread_real hfinite
    rw [toJson, Json.ofDouble, if_pos hfinite, hread] at h
    split at h
    · cases h
      rfl
    · cases h

/-- What storing does to a value: whatever is read for it is of the same type, and it is the value
itself if its number is brought back. -/
structure Survives (v : OptionValue) : Prop where
  typeName_eq : ∀ w, load? v.store = some w → w.typeName = v.typeName
  load?_store : v.ReadsBack → load? v.store = some v

/-- Every value but an infinite number, or none, survives. -/
theorem survives {v : OptionValue} (hfinite : v.isFinite = true) : v.Survives where
  typeName_eq w h := typeName_eq_of_reread hfinite (v.load?_store ▸ h)
  load?_store h := by
    rw [OptionValue.load?_store, reread_toJson hfinite h, ofJson?_toJson, if_pos hfinite]

end OptionValue

/-! ## Tables -/

namespace Ascending

/-- A value that is put in leaves the keys in order. -/
theorem pairwise_insert {β : Type} {t : Ascending String β}
    (h : (t.map Prod.fst).Pairwise (· < ·)) (key : String) (value : β) :
    ((insert key value t).map Prod.fst).Pairwise (· < ·) := by
  -- on the table: the key goes in front of the first that is larger
  induction t with
  | nil => exact List.pairwise_singleton _ _
  | cons entry t ih =>
    obtain ⟨k, v⟩ := entry
    rw [List.map_cons, List.pairwise_cons] at h
    obtain ⟨hk, ht⟩ := h
    rw [insert]
    split
    · next hlt =>
      simp only [List.map_cons, List.pairwise_cons]
      refine ⟨?_, hk, ht⟩
      rw [List.forall_mem_cons]
      exact ⟨hlt, fun other hother => String.lt_trans hlt (hk other hother)⟩
    · next hnot =>
      split
      · next heq =>
        subst heq
        simp only [List.map_cons, List.pairwise_cons]
        exact ⟨hk, ht⟩
      · next hne =>
        have hlt : k < key :=
          Decidable.not_not.mp fun hge => hne (String.le_antisymm hge hnot)
        rw [List.map_cons, List.pairwise_cons]
        refine ⟨fun other hother => ?_, ih ht⟩
        rcases mem_keys_insert.mp hother with rfl | hother
        · exact hlt
        · exact hk other hother

/-- The keys of a table are in order. -/
theorem pairwise_ofList {β : Type} (entries : List (String × β)) :
    ((ofList entries).map Prod.fst).Pairwise (· < ·) := by
  have hfold : ∀ (l : List (String × β)) (t : Ascending String β),
      (t.map Prod.fst).Pairwise (· < ·) →
        ((l.foldl (fun table (key, value) => insert key value table) t).map Prod.fst).Pairwise
          (· < ·) := by
    intro l
    induction l with
    | nil => exact fun t ht => ht
    | cons entry l ih => exact fun t ht => ih _ (pairwise_insert ht entry.1 entry.2)
  exact hfold entries [] List.Pairwise.nil

end Ascending

namespace OptionTable

/-- All its numbers are brought back by the reader of numbers. -/
def ReadsBack (t : OptionTable) : Prop :=
  ∀ entry ∈ t, entry.2.ReadsBack

theorem reread_toJson {t : OptionTable} (hfinite : t.isFinite = true) (h : t.ReadsBack) :
    t.toJson.reread = t.toJson := by
  have hentry : ∀ entry ∈ t, entry.2.toJson.reread = entry.2.toJson := fun entry hentry =>
    OptionValue.reread_toJson (List.all_eq_true.mp hfinite entry hentry) (h entry hentry)
  rw [toJson, Json.reread, Json.rereadFields_eq_map, List.map_map]
  congr 1
  exact List.map_congr_left fun entry hmem => congrArg (Prod.mk entry.1) (hentry entry hmem)

end OptionTable

/-! ## Solutions -/

namespace Solution

/-- The options of a solution in a stored text. -/
def loadOptions? (text : String) : Option OptionTable :=
  (Json.parse? text >>= (·.field? "options")) >>= OptionTable.ofJson?

/-- The field of the options is read like any other. -/
theorem field?_reread_toJson (s : Solution) :
    s.toJson.reread.field? "options" = some s.options.toJson.reread := by
  rw [toJson, Json.reread, Json.rereadFields_eq_map]
  rfl

/-- The options of a record that is read are those of its field. -/
theorem options_of_ofJson? {s t : Solution} (h : ofJson? s.toJson.reread = some t) :
    OptionTable.ofJson? s.options.toJson.reread = some t.options := by
  have hrecord : s.toJson.reread.record? _ = some _ :=
    Json.record?_zip ["index", "problem", "optimizer", "status", "message",
      "objective_name", "objective", "variables", "constraints", "objective_history", "stats",
      "options"]
      [Json.reread (.ofNat s.index), .text s.problem, .text s.optimizer, .text s.status.name,
        .text s.message, .text s.objectiveName, Json.reread (.ofDouble s.objective),
        Json.reread (.array (s.vars.map Variable.toJson)),
        Json.reread (.array (s.constraints.map SolvedConstraint.toJson)),
        Json.reread (.array (s.objectiveHistory.map Json.ofDouble)), s.statistics.toJson.reread,
        s.options.toJson.reread]
      (by decide) rfl
  rw [ofJson?, hrecord] at h
  dsimp only [Option.bind_eq_bind, Option.bind_some] at h
  -- the options are read last
  iterate 11
    obtain ⟨_, -, h⟩ := Option.bind_eq_some_iff.mp h
  obtain ⟨options, hoptions, h⟩ := Option.bind_eq_some_iff.mp h
  obtain rfl := Option.some.inj h
  exact hoptions

end Solution

/-! ## Recorded options -/

section

variable {κ : Type} {key : String}

/-- What a setting accepts for its field is finite. -/
def Setting.AdmitsFinite (s : Setting κ) : Prop :=
  ∀ c d, (∃ d', s.set (s.get c) d = .ok d') → (s.get c).isFinite = true

namespace Setting

theorem number_admitsFinite (get : κ → Double) (put : Double → κ → κ) :
    (number key get put).AdmitsFinite :=
  fun _ _ h => (number_admits h).2

theorem factor_admitsFinite (get : κ → Double) (put : Double → κ → κ) :
    (factor key get put).AdmitsFinite :=
  fun _ _ h => (factor_admits h).2

theorem limit_admitsFinite (get : κ → Nat) (put : Nat → κ → κ) :
    (limit key get put).AdmitsFinite :=
  fun _ _ _ => rfl

theorem level_admitsFinite (get : κ → Nat) (put : Nat → κ → κ) :
    (level key get put).AdmitsFinite :=
  fun _ _ _ => rfl

end Setting

/-- A table of values that have all been accepted is finite. -/
theorem Schema.Lawful.isFinite_snapshot [Schema κ] {fits : κ → Prop} (hκ : Lawful fits)
    (hadmits : ∀ s ∈ settings (κ := κ), s.AdmitsFinite) {c : κ} (hc : Settled fits c) :
    (snapshot c).isFinite = true := by
  rw [OptionTable.isFinite, (hκ.snapshot_perm c).all_eq, List.all_map, List.all_eq_true]
  exact fun s hs => hadmits s hs c default (hc.accepts s hs)

end

theorem AugmentedLagrangian.Config.admitsFinite :
    ∀ s ∈ Schema.settings (κ := Config Double), s.AdmitsFinite := by
  simp only [Schema.settings, List.forall_mem_cons, Setting.level_admitsFinite,
    Setting.limit_admitsFinite, Setting.number_admitsFinite, Setting.factor_admitsFinite, true_and]
  nofun

theorem ProjectedBfgs.Config.admitsFinite :
    ∀ s ∈ Schema.settings (κ := Config Double), s.AdmitsFinite := by
  simp only [Schema.settings, List.forall_mem_cons, Setting.level_admitsFinite,
    Setting.limit_admitsFinite, Setting.number_admitsFinite, true_and]
  nofun

namespace Adapter

/-- The solvers of this library, with whatever has been set on a new store. -/
inductive Configured : Adapter Unit → Prop
  | augmentedLagrangian {store : Store (AugmentedLagrangian.Config Double)} (policy : Policy)
      (calls : List (String × OptionValue)) (h : store = (Store.new policy).after calls) :
    Configured (.augmentedLagrangian store.config store.snapshot)
  | projectedBfgs {store : Store (ProjectedBfgs.Config Double)} (policy : Policy)
      (calls : List (String × OptionValue)) (h : store = (Store.new policy).after calls) :
    Configured (.projectedBfgs store.config store.snapshot)

variable {adapter : Adapter Unit}

theorem Configured.options_pairwise (h : adapter.Configured) :
    (adapter.options.map Prod.fst).Pairwise (· < ·) := by
  cases h <;> exact Ascending.pairwise_ofList _

theorem Configured.options_isFinite (h : adapter.Configured) :
    adapter.options.isFinite = true := by
  cases h with
  | augmentedLagrangian policy calls h =>
    have hlawful := AugmentedLagrangian.Config.lawful
    exact hlawful.isFinite_snapshot AugmentedLagrangian.Config.admitsFinite
      (h ▸ Store.settled_after hlawful calls hlawful.settled_default)
  | projectedBfgs policy calls h =>
    have hlawful := ProjectedBfgs.Config.lawful
    exact hlawful.isFinite_snapshot ProjectedBfgs.Config.admitsFinite
      (h ▸ Store.settled_after hlawful calls hlawful.settled_default)

end Adapter

/-- What a solve puts into the history has the options of its solver. -/
theorem SolveCall.options_of_run {call : SolveCall τ} {problem : Problem Double}
    {handler : RankHandler σ} {s s' : σ} {before : History} {solved : Solved τ}
    (h : (call.program problem before).run handler s = .finished solved s') :
    ∀ solution ∈ solved.history.solutions,
      solution ∈ before.solutions ∨ solution.options = call.adapter.options := by
  intro solution hsolution
  rcases before_or_ran h with hbefore | ⟨_, t, counters, _, -, hhistory⟩
  · exact .inl (hbefore ▸ hsolution)
  · rw [hhistory, History.append] at hsolution
    rcases List.mem_append.mp hsolution with hbefore | hlast
    · exact .inl hbefore
    · obtain rfl := List.mem_singleton.mp hlast
      exact .inr rfl

/-- So has what any number of solves put there. -/
theorem Work.options_of_run {calls : List (SolveCall τ)} {handler : RankHandler σ} {s s' : σ}
    {w w' : Workbench} {x : Except (Error Double) (List (Except (Error Double) (Option Nat)))}
    (h : ((solveAll calls).run.run w).run handler s = .finished (x, w') s') :
    ∀ solution ∈ w'.history.solutions, solution ∈ w.history.solutions ∨
      ∃ call ∈ calls, solution.options = call.adapter.options := by
  -- on the solves: each one adds at most one record, with the options of its adapter
  induction calls generalizing w w' s s' x with
  | nil =>
    obtain ⟨⟨rfl, rfl⟩, rfl⟩ := Program.Ending.finished.inj h
    exact fun solution hsolution => .inl hsolution
  | cons call calls ih =>
    obtain ⟨⟨y, w₁⟩, s₁, hcall, h⟩ := Program.run_bind_eq_finished.mp h
    obtain ⟨solved, hsolve, rfl, -, hhistory⟩ := run_solveWith hcall
    obtain ⟨⟨z, w₂⟩, s₂, hrest, h⟩ := Program.run_bind_eq_finished.mp h
    have hw : w₂ = w' := by
      cases z <;> exact (Prod.mk.inj (Program.Ending.finished.inj h).1).2
    intro solution hsolution
    rcases ih hrest solution (hw ▸ hsolution) with hfirst | ⟨other, hother, hoptions⟩
    · rw [hhistory] at hfirst
      rcases SolveCall.options_of_run hsolve solution hfirst with hbefore | hoptions
      · exact .inl hbefore
      · exact .inr ⟨call, List.mem_cons_self, hoptions⟩
    · exact .inr ⟨other, List.mem_cons_of_mem _ hother, hoptions⟩

namespace Solution

/-- What storing does to the options of a solution: they are read as they are from their field, and
so they are wherever the whole solution is read. -/
structure OptionsSurvive (s : Solution) : Prop where
  loadOptions?_store : loadOptions? s.store = some s.options
  options_of_load : ∀ t, load s.store = .ok t → t.options = s.options

/-- Finite options, in order, survive if their numbers are brought back. -/
theorem optionsSurvive {s : Solution} (hkeys : (s.options.map Prod.fst).Pairwise (· < ·))
    (hfinite : s.options.isFinite = true) (h : s.options.ReadsBack) : s.OptionsSurvive := by
  have hread : Json.parse? s.store = some s.toJson.reread := (Json.parse?_written _).2
  have hoptions : OptionTable.ofJson? s.options.toJson.reread = some s.options := by
    rw [OptionTable.reread_toJson hfinite h, OptionTable.ofJson?_toJson hkeys, if_pos hfinite]
  constructor
  · rw [loadOptions?, hread, Option.bind_eq_bind, Option.bind_eq_bind, Option.bind_some,
      field?_reread_toJson, Option.bind_some, hoptions]
  · intro t ht
    rw [load, hread, Option.bind_eq_bind, Option.bind_some] at ht
    split at ht
    · next t' ht' =>
      obtain rfl := Except.ok.inj ht
      exact Option.some.inj ((options_of_ofJson? ht').symm.trans hoptions)
    · cases ht

end Solution

namespace Work

variable {handler : RankHandler σ} {s s' : σ} {problem : Problem Double} {w' : Workbench}
  {calls : List (SolveCall Unit)}
  {x : Except (Error Double) (List (Except (Error Double) (Option Nat)))}

/-- **Options survive on record.**  Whatever is read for a stored value that is no infinite number
has its type, and is the value itself if its number is brought back.  After any solves with the
solvers of this library, whatever has been set and whatever the ranks and the network do, the
options on record are such values, and they are read as they are. -/
theorem options_survive (hcalls : ∀ call ∈ calls, call.adapter.Configured)
    (hrun : ((solveAll calls).run.run (.new problem)).run handler s = .finished (x, w') s') :
    (∀ v : OptionValue, v.isFinite = true → v.Survives) ∧
      ∀ solution ∈ w'.history.solutions, solution.options.isFinite = true ∧
        (solution.options.ReadsBack → solution.OptionsSurvive) := by
  refine ⟨fun v => OptionValue.survives, fun solution hsolution => ?_⟩
  rcases options_of_run hrun solution hsolution with hnone | ⟨call, hcall, hoptions⟩
  · cases hnone
  · have hconfigured := hcalls call hcall
    have hfinite := hoptions ▸ hconfigured.options_isFinite
    exact ⟨hfinite, Solution.optionsSurvive (hoptions ▸ hconfigured.options_pairwise) hfinite⟩

/-- A store in which something has been set. -/
def tuned : Store (ProjectedBfgs.Config Double) :=
  (Store.new .strict).after [("tol", .float 0.5), ("max_iter", .int 3)]

/-- A solve with these options. -/
def tunedCall : SolveCall Unit where
  adapter := .projectedBfgs tuned.config tuned.snapshot
  engine := .new (.finiteDifference 0.5) .sequential
  memory := none
  here := .single
  elapsed := ⟨0, 500⟩

/-- What has been set, and what has not. -/
def tunedOptions : OptionTable :=
  [("max_iter", .int 3), ("max_step_ratio", .float 0.25), ("print_level", .int 0),
    ("tol", .float 0.5)]

theorem readsBack_tunedOptions : tunedOptions.ReadsBack := by
  have hquarter : (0.25 : Double).ReadsBack :=
    Double.readsBack_of_numeral? (n := ⟨false, [0], some [2, 5], none⟩) (by decide +kernel)
      (by decide +kernel)
  have hhalf : (0.5 : Double).ReadsBack :=
    Double.readsBack_of_numeral? (n := ⟨false, [0], some [5], none⟩) (by decide +kernel)
      (by decide +kernel)
  simp only [OptionTable.ReadsBack, tunedOptions, List.forall_mem_cons]
  exact ⟨trivial, hquarter, trivial, hhalf, nofun⟩

theorem tuned_options_survive :
    ∃ x w' solution,
      ((solveAll [tunedCall]).run.run (.new cliffProblem)).run cliff.hermit () =
        .finished (x, w') () ∧
      w'.history.solutions = [solution] ∧ solution.options = tunedOptions ∧
      solution.OptionsSurvive := by
  have hresult : (((solveAll [tunedCall]).run.run (.new cliffProblem)).run cliff.hermit
      ()).result?.map (fun r => r.2.history.solutions.map Solution.options) =
        some [tunedOptions] := by
    decide +kernel
  obtain ⟨⟨x, w'⟩, ⟨⟩, hrun, hoptions⟩ := Program.Ending.exists_of_result? hresult
  obtain ⟨solution, hsolutions, hoptions⟩ := List.map_eq_singleton_iff.mp hoptions
  have hcalls : ∀ call ∈ [tunedCall], call.adapter.Configured := by
    rw [List.forall_mem_singleton]
    exact .projectedBfgs .strict [("tol", .float 0.5), ("max_iter", .int 3)] rfl
  have hsurvive := (options_survive hcalls hrun).2 solution (hsolutions ▸ List.mem_singleton_self _)
  exact ⟨x, w', solution, hrun, hsolutions, hoptions,
    hsurvive.2 (hoptions ▸ readsBack_tunedOptions)⟩

end Work

end Nlp
