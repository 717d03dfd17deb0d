import Nlp.Derivative.Kernel
import Nlp.Group.Run
import Nlp.Proofs.Contract
import Nlp.Proofs.Run
import Mathlib.Data.List.Nodup
import Mathlib.Tactic.Common

/-!
# Columns a rank evaluates

A rank evaluates the columns of its block one after another with its own model, which may answer
differently each time. The first column that fails ends the block.

## Main definitions

* `Responder.Answers`: a model that never ends its rank.
* `Kernel.Computes`: what a rank makes of a column of its block.
* `Kernel.Evaluates`: what a rank makes of its block.
* `Model.responder`: a model that always answers alike.

## Main results

* `Program.Meets.run_finished`: a program that stays in range comes to its end.
* `Kernel.run_column`, `Kernel.run_columns`: a rank comes to the end of a column, and of its block.
* `Kernel.Computes.unique`: a rank makes one thing of a column.
* `Model.run_muted`: what a pool makes of a program is what the rank makes of it by itself.
-/

namespace Nlp

variable {σ τ α β : Type}

/-! ## Runs -/

/-- Calls that need no index of a list. -/
def inRange : Contract (modelAccess Double) where
  asks c := ∀ index size, c ≠ .outOfRange index size
  replies _ _ := True

/-- A model that never ends its rank. -/
def Responder.Answers (respond : Responder σ) : Prop :=
  ∀ c s, inRange.asks c → (respond c s).1.isSome

theorem Program.Meets.run_finished {respond : Responder σ} (hanswers : respond.Answers)
    {p : Program (modelAccess Double) α} {post : α → Prop} (hp : p.Meets inRange post) (s : σ) :
    ∃ a s', p.run respond s = .finished a s' ∧ post a := by
  -- on the calls: each is in range, so the responder has an answer
  induction p generalizing s with
  | done a => exact ⟨a, s, rfl, hp⟩
  | call c next ih =>
    have hsome := hanswers c s hp.1
    rw [run]
    rcases hreply : respond c s with ⟨_ | reply, s'⟩
    · rw [hreply] at hsome
      cases hsome
    · exact ih reply (hp.2 reply trivial) s'

/-- All results of a program that stays in range, other than errors. -/
def ranging : Always (Local Double) :=
  (Always.program inRange).except (Error Double)

theorem ranging_ofExcept (r : Except (Error Double) α) :
    ranging.holds (liftM r) fun a => r = .ok a := by
  rintro a heq
  exact heq

theorem ranging_ask (c : ModelCall Double) (hc : inRange.asks c) :
    ranging.holds (Local.ask c) fun _ => True :=
  ⟨hc, fun _ _ _ _ => trivial⟩

/-! ## Checked calls -/

namespace Problem

variable (p : Problem Double)

theorem ranging_evaluate (x : List Double) :
    ranging.holds (p.evaluate x) fun e => p.checkEvaluation e = .ok () := by
  refine ranging.chain (ranging_ofExcept _) fun _ _ => ?_
  refine ranging.seq (ranging_ask _ nofun) fun _ => ?_
  refine ranging.seq (ranging_ask _ nofun) fun e => ?_
  refine ranging.chain (ranging_ofExcept _) fun _ hcheck => ?_
  exact ranging.pure e hcheck

theorem ranging_evaluateComplex (z : List (Complex Double)) :
    ranging.holds (p.evaluateComplex z) fun answer =>
      ∀ e, answer = some e → p.checkEvaluation e = .ok () := by
  refine ranging.chain (ranging_ofExcept _) fun _ _ => ?_
  refine ranging.seq (ranging_ask _ nofun) fun _ => ?_
  refine ranging.seq (ranging_ask _ nofun) fun answer => ?_
  cases answer with
  | none => exact ranging.pure none nofun
  | some e =>
    refine ranging.chain (ranging_ofExcept _) fun _ hcheck => ?_
    refine ranging.pure (some e) fun e' heq => ?_
    obtain rfl := Option.some.inj heq
    exact hcheck

theorem length_of_checkEvaluation {e : Evaluation β} (h : p.checkEvaluation e = .ok ()) :
    e.constraints.length = p.constraints.length := by
  unfold checkEvaluation at h
  split at h
  · nomatch h
  · split at h
    · nomatch h
    · split at h
      · nomatch h
      · next hlength => exact not_not.mp hlength

end Problem

/-! ## Columns -/

namespace Kernel

/-- The entries of a column, of a problem with so many rows; a row without baseline has none. -/
def height (rows : Nat) : Kernel Double → Nat
  | .forward _ baseline => min rows (1 + baseline.constraints.length)
  | .complex _ => rows

/-- A baseline has a value for every row. -/
def Fits (rows : Nat) : Kernel Double → Prop
  | .forward _ baseline => 1 + baseline.constraints.length = rows
  | .complex _ => True

variable {k : Kernel Double} {p : Problem Double} {x : List Double} {respond : Responder σ}
  {s : σ}

theorem height_le (k : Kernel Double) (rows : Nat) : k.height rows ≤ rows := by
  cases k with
  | forward step baseline => exact Nat.min_le_left _ _
  | complex step => exact Nat.le_refl rows

theorem Fits.height_eq {rows : Nat} (h : k.Fits rows) : k.height rows = rows := by
  cases k with
  | forward step baseline => exact Nat.min_eq_left (Nat.le_of_eq h.symm)
  | complex step => rfl

theorem ranging_column {j : Nat} (hj : j < x.length) :
    ranging.holds (k.column p x j) fun column =>
      column.length = k.height (1 + p.constraints.length) := by
  rw [column, List.getElem?_eq_getElem hj]
  cases k with
  | forward step baseline =>
    refine ranging.chain (p.ranging_evaluate _) fun e hcheck => ?_
    refine ranging.pure _ ?_
    rw [differences, List.length_cons, List.length_zipWith, p.length_of_checkEvaluation hcheck,
      height, Nat.add_min_add_left, Nat.add_comm]
  | complex step =>
    refine ranging.chain (p.ranging_evaluateComplex _) fun answer hcheck => ?_
    cases answer with
    | none => exact fun _ h => nomatch h
    | some e =>
      refine ranging.pure _ ?_
      rw [imaginaryParts, List.length_cons, List.length_map,
        p.length_of_checkEvaluation (hcheck e rfl), height, Nat.add_comm]

/-- A rank comes to the end of a column. -/
theorem run_column (hanswers : respond.Answers) {j : Nat} (hj : j < x.length) (s : σ) :
    ∃ result s', (k.column p x j).run.run respond s = .finished result s' ∧
      ∀ column, result = .ok column → column.length = k.height (1 + p.constraints.length) :=
  (ranging_column hj).run_finished hanswers s

/-- The rank that evaluates these columns from a state of its model makes `result` of column `j`;
the columns before it have not failed. -/
inductive Computes (k : Kernel Double) (p : Problem Double) (x : List Double)
    (respond : Responder σ) :
    List Nat → σ → Nat → Except (Error Double) (List Double) → Prop
  | now {j : Nat} {js : List Nat} {s s' : σ} {result : Except (Error Double) (List Double)}
      (h : (k.column p x j).run.run respond s = .finished result s') :
    Computes k p x respond (j :: js) s j result
  | later {i j : Nat} {js : List Nat} {s s' : σ} {column : List Double}
      {result : Except (Error Double) (List Double)}
      (h : (k.column p x i).run.run respond s = .finished (.ok column) s')
      (hrest : Computes k p x respond js s' j result) :
    Computes k p x respond (i :: js) s j result

theorem Computes.mem {js : List Nat} {j : Nat} {result : Except (Error Double) (List Double)}
    (h : k.Computes p x respond js s j result) : j ∈ js := by
  induction h with
  | now _ => exact List.mem_cons_self
  | later _ _ ih => exact List.mem_cons_of_mem _ ih

/-- A rank makes one thing of a column. -/
theorem Computes.unique {js : List Nat} {j : Nat}
    {result result' : Except (Error Double) (List Double)} (hnodup : js.Nodup)
    (h : k.Computes p x respond js s j result) (h' : k.Computes p x respond js s j result') :
    result = result' := by
  -- a column is evaluated once, so both derivations go the same number of columns back
  induction h with
  | now h =>
    cases h' with
    | now h' => exact (Program.Ending.finished.inj (h.symm.trans h')).1
    | later _ hrest => exact absurd hrest.mem (List.nodup_cons.mp hnodup).1
  | later h hrest ih =>
    obtain ⟨hfresh, hnodup⟩ := List.nodup_cons.mp hnodup
    cases h' with
    | now _ => exact absurd hrest.mem hfresh
    | later h' hrest' =>
      obtain ⟨-, rfl⟩ := Program.Ending.finished.inj (h.symm.trans h')
      exact ih hnodup hrest'

theorem Computes.length (hanswers : respond.Answers) {js : List Nat} {j : Nat}
    {column : List Double} (hj : j < x.length)
    (h : k.Computes p x respond js s j (.ok column)) :
    column.length = k.height (1 + p.constraints.length) := by
  generalize hresult : Except.ok column = result at h
  induction h with
  | now h =>
    obtain ⟨result', s', hrun, hlength⟩ := run_column (k := k) (p := p) hanswers hj _
    obtain ⟨rfl, -⟩ := Program.Ending.finished.inj (h.symm.trans hrun)
    exact hlength column hresult.symm
  | later _ _ ih => exact ih hj hresult

/-- The lowest of these columns that fails, and its error. -/
def FailsFirst (k : Kernel Double) (p : Problem Double) (x : List Double) (respond : Responder σ)
    (js : List Nat) (s : σ) (j : Nat) (e : Error Double) : Prop :=
  k.Computes p x respond js s j (.error e) ∧
    ∀ i ∈ js, i < j → ∃ column, k.Computes p x respond js s i (.ok column)

/-- What a rank makes of its block: all columns, or the error of the first that fails. -/
def Evaluates (k : Kernel Double) (p : Problem Double) (x : List Double) (respond : Responder σ)
    (js : List Nat) (s : σ) : Except (Error Double) (List (Column Double)) → Prop
  | .ok columns => columns.map Prod.fst = js ∧
    ∀ c ∈ columns, k.Computes p x respond js s c.1 (.ok c.2)
  | .error e => ∃ before j after, js = before ++ j :: after ∧
    (∀ i ∈ before, ∃ column, k.Computes p x respond js s i (.ok column)) ∧
    k.Computes p x respond js s j (.error e)

/-- A block that has all its columns has no failure. -/
theorem Evaluates.not_fails {js : List Nat} {columns : List (Column Double)} (hnodup : js.Nodup)
    (h : k.Evaluates p x respond js s (.ok columns)) (j : Nat) (e : Error Double) :
    ¬ k.Computes p x respond js s j (.error e) := by
  obtain ⟨rfl, hcomputes⟩ := h
  intro hfails
  obtain ⟨c, hc, rfl⟩ := List.mem_map.mp hfails.mem
  nomatch hfails.unique hnodup (hcomputes c hc)

/-- In a block in ascending order the first column that fails is the lowest one. -/
theorem Evaluates.failsFirst {js : List Nat} {e : Error Double} (hascending : js.Pairwise (· < ·))
    (h : k.Evaluates p x respond js s (.error e)) : ∃ j, k.FailsFirst p x respond js s j e := by
  obtain ⟨before, j, after, rfl, hbefore, hfails⟩ := h
  refine ⟨j, hfails, fun i hi hlt => ?_⟩
  obtain ⟨-, hafter, -⟩ := List.pairwise_append.mp hascending
  rcases List.mem_append.mp hi with hi | hi
  · exact hbefore i hi
  · rcases List.mem_cons.mp hi with rfl | hi
    · exact absurd hlt (Nat.lt_irrefl i)
    · exact absurd ((List.pairwise_cons.mp hafter).1 i hi) (Nat.lt_asymm hlt)

theorem FailsFirst.unique {js : List Nat} {i j : Nat} {e e' : Error Double} (hnodup : js.Nodup)
    (h : k.FailsFirst p x respond js s i e) (h' : k.FailsFirst p x respond js s j e') : e = e' := by
  rcases Nat.lt_trichotomy i j with hlt | rfl | hlt
  · obtain ⟨column, hcolumn⟩ := h'.2 i h.1.mem hlt
    nomatch hcolumn.unique hnodup h.1
  · exact Except.error.inj (h.1.unique hnodup h'.1)
  · obtain ⟨column, hcolumn⟩ := h.2 j h'.1.mem hlt
    nomatch hcolumn.unique hnodup h'.1

/-- A rank comes to the end of its block. -/
theorem run_columns (hanswers : respond.Answers) {js : List Nat} (hjs : ∀ j ∈ js, j < x.length)
    (s : σ) :
    ∃ result s', (k.columns p x js).run.run respond s = .finished result s' ∧
      k.Evaluates p x respond js s result := by
  -- on the columns: the first failure ends the evaluation, and those before it were evaluated
  induction js generalizing s with
  | nil => exact ⟨.ok [], s, rfl, rfl, nofun⟩
  | cons j js ih =>
    obtain ⟨hj, hjs⟩ := List.forall_mem_cons.mp hjs
    obtain ⟨result, s₁, hcolumn, -⟩ := run_column (k := k) (p := p) hanswers hj s
    rw [columns, Program.run_except_bind, hcolumn]
    cases result with
    | error e => exact ⟨.error e, s₁, rfl, [], j, js, rfl, nofun, .now hcolumn⟩
    | ok column =>
      obtain ⟨result, s', hrun, hresult⟩ := ih hjs s₁
      simp only [Program.run_except_bind, hrun]
      cases result with
      | ok columns =>
        obtain ⟨hindices, hcomputes⟩ := hresult
        refine ⟨.ok ((j, column) :: columns), s', rfl, congrArg (j :: ·) hindices, ?_⟩
        exact List.forall_mem_cons.mpr
          ⟨.now hcolumn, fun c hc => .later hcolumn (hcomputes c hc)⟩
      | error e =>
        obtain ⟨before, i, after, rfl, hbefore, hfails⟩ := hresult
        refine ⟨.error e, s', rfl, j :: before, i, after, rfl, ?_, .later hcolumn hfails⟩
        refine List.forall_mem_cons.mpr ⟨⟨column, .now hcolumn⟩, fun i hi => ?_⟩
        obtain ⟨column', hcomputes⟩ := hbefore i hi
        exact ⟨column', .later hcolumn hcomputes⟩

end Kernel

/-! ## Models that always answer alike -/

namespace Model

variable {m : Model Double}

/-- The model as the one of a rank. -/
def responder (m : Model Double) : Responder Unit :=
  fun c s => (m.answer c, s)

theorem answers_responder : m.responder.Answers := by
  intro c s hc
  cases c with
  | outOfRange index size => exact absurd rfl (hc index size)
  | _ => rfl

/-- The model's rank makes `a` of a program. -/
def Gives (m : Model Double) (p : Program (modelAccess Double) α) (a : α) : Prop :=
  p.run m.responder () = .finished a ()

theorem Gives.unique {p : Program (modelAccess Double) α} {a b : α} (h : m.Gives p a)
    (h' : m.Gives p b) : a = b :=
  (Program.Ending.finished.inj (h.symm.trans h')).1

theorem gives_bind {p : Program (modelAccess Double) α} {f : α → Program (modelAccess Double) β}
    {b : β} : m.Gives (p.bind f) b ↔ ∃ a, m.Gives p a ∧ m.Gives (f a) b := by
  unfold Gives
  rw [Program.run_bind]
  cases p.run m.responder () with
  | finished a s => simp
  | stopped s => simp

theorem run_note (event : Event Double) (s : Unit) :
    (Local.note event).run.run m.responder s = .finished (.ok ()) s := rfl

/-- A pool loses events only. -/
theorem run_muted (p : Program (modelAccess Double) α) (s : Unit) :
    p.muted.run m.responder s = p.run m.responder s := by
  induction p generalizing s with
  | done a => rfl
  | call c next ih =>
    cases c with
    | evaluate x => exact ih _ s
    | evaluateComplex z => exact ih _ s
    | gradient x => exact ih _ s
    | note event => exact ih _ s
    | outOfRange index size => rfl

end Model

/-- Two problems with the same number of entries of every kind. -/
structure Problem.SameCounts (p p' : Problem Double) : Prop where
  vars : p.vars.length = p'.vars.length
  objectives : p.objectives.length = p'.objectives.length
  constraints : p.constraints.length = p'.constraints.length

namespace Problem.SameCounts

variable {m : Model Double} {p p' : Problem Double}

theorem checkPoint_eq (h : p.SameCounts p') (found : Nat) :
    p.checkPoint found = p'.checkPoint found := by
  rw [checkPoint, checkPoint, h.vars]

theorem checkEvaluation_eq (h : p.SameCounts p') (e : Evaluation β) :
    p.checkEvaluation e = p'.checkEvaluation e := by
  rw [checkEvaluation, checkEvaluation, h.objectives, h.constraints]

theorem run_evaluate (h : p.SameCounts p') (x : List Double) :
    (p.evaluate x).run.run m.responder () = (p'.evaluate x).run.run m.responder () := by
  rw [evaluate, evaluate]
  simp only [Program.run_except_bind, h.checkPoint_eq, Model.run_note, h.checkEvaluation_eq]

theorem run_evaluateComplex (h : p.SameCounts p') (z : List (Complex Double)) :
    (p.evaluateComplex z).run.run m.responder () =
      (p'.evaluateComplex z).run.run m.responder () := by
  have hask (s : Unit) : (Local.ask (.evaluateComplex z)).run.run m.responder s =
      .finished (.ok (m.evaluateComplex z)) s := rfl
  rw [evaluateComplex, evaluateComplex]
  simp only [Program.run_except_bind, h.checkPoint_eq, Model.run_note, hask]
  cases m.evaluateComplex z with
  | none => rfl
  | some e => simp only [Program.run_except_bind, h.checkEvaluation_eq]

/-- A model makes the same of a column, whichever of the problems it belongs to. -/
theorem run_column (h : p.SameCounts p') (k : Kernel Double) (x : List Double) (j : Nat) :
    (k.column p x j).run.run m.responder () = (k.column p' x j).run.run m.responder () := by
  rw [Kernel.column, Kernel.column]
  cases x[j]? with
  | none => rfl
  | some xj =>
    cases k with
    | forward step baseline =>
      simp only [Program.run_except_bind, h.run_evaluate]
    | complex step =>
      simp only [Program.run_except_bind, h.run_evaluateComplex]

end Problem.SameCounts

end Nlp
