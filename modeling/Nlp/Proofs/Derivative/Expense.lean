import Nlp.Proofs.Derivative.Jacobian
import Nlp.Proofs.Derivative.Local
import Nlp.Proofs.Derivative.Session

/-!
# What a request costs

A Jacobian says how many model calls it took.  The number is reckoned from the variables and the
baseline; here it is compared with the calls that are made, by the root and by the ranks that
evaluate columns for it.  The two agree, but for the one complex call with which an engine finds
out whether the model takes complex arguments: no Jacobian counts it.

## Main definitions

* `ModelCall.cost`: the model calls in a call.
* `Program.Spends`, `Session.Spends`: what holds of each result and the number of calls before it,
  for a rank by itself and for the root of a session.
* `Engine.probes`: the calls with which a request finds out about the model.

## Main results

* `Kernel.spends_columns`: a column takes one call.
* `Engine.spends_jacobianAt`: a Jacobian takes the calls it says, and those that find out about the
  model.
-/

namespace Nlp

variable {α β : Type}

/-- The model calls in a call of a rank. -/
def ModelCall.cost : ModelCall Double → Nat
  | .evaluate _ | .evaluateComplex _ | .gradient _ => 1
  | .note _ | .outOfRange _ _ => 0

/-! ## A rank by itself -/

/-- From a count of `n` model calls on, the program comes to none but results that are good
together with the count by then. -/
def Program.Spends (good : Nat → α → Prop) : Program (modelAccess Double) α → Nat → Prop
  | .done a, n => good n a
  | .call c next, n => ∀ reply, (next reply).Spends good (n + c.cost)

namespace Program.Spends

variable {good good' : Nat → α → Prop} {n : Nat}

theorem mono {p : Program (modelAccess Double) α} (h : p.Spends good n)
    (himp : ∀ n a, good n a → good' n a) : p.Spends good' n := by
  induction p generalizing n with
  | done a => exact himp n a h
  | call c next ih => exact fun reply => ih reply (h reply)

/-- The counts of a sequence add up. -/
theorem bind {good : Nat → β → Prop} {p : Program (modelAccess Double) α}
    {f : α → Program (modelAccess Double) β} (h : p.Spends (fun n a => (f a).Spends good n) n) :
    (p.bind f).Spends good n := by
  induction p generalizing n with
  | done a => exact h
  | call c next ih => exact fun reply => ih reply (h reply)

/-- Events cost nothing, so their loss saves nothing. -/
theorem muted {p : Program (modelAccess Double) α} (h : p.Spends good n) :
    p.muted.Spends good n := by
  induction p generalizing n with
  | done a => exact h
  | call c next ih =>
    cases c with
    | note event => exact ih () (h ())
    | evaluate _ | evaluateComplex _ | gradient _ | outOfRange _ _ =>
      exact fun reply => ih reply (h reply)

end Program.Spends

namespace Local

/-- The same of a program that may fail: of its results other than errors. -/
def Spends (l : Local Double α) (good : Nat → α → Prop) (n : Nat) : Prop :=
  l.run.Spends (fun n r => ∀ a, r = .ok a → good n a) n

variable {good : Nat → α → Prop} {n : Nat}

theorem spends_pure {a : α} (h : good n a) : Spends (pure a) good n := by
  rintro _ ⟨⟩
  exact h

theorem spends_throw (e : Error Double) : Spends (throw e : Local Double α) good n :=
  nofun

theorem spends_ofExcept {r : Except (Error Double) α} (h : ∀ a, r = .ok a → good n a) :
    Spends (liftM r) good n :=
  h

theorem spends_ask {c : ModelCall Double} {good : Nat → (modelAccess Double).Reply c → Prop}
    (h : ∀ reply, good (n + c.cost) reply) : Spends (ask c) good n := by
  rintro reply _ ⟨⟩
  exact h reply

theorem Spends.mono {l : Local Double α} {good' : Nat → α → Prop} (h : l.Spends good n)
    (himp : ∀ n a, good n a → good' n a) : l.Spends good' n :=
  Program.Spends.mono h fun n _ hr a ha => himp n a (hr a ha)

theorem Spends.bind {good : Nat → β → Prop} {l : Local Double α} {f : α → Local Double β}
    (h : l.Spends (fun n a => (f a).Spends good n) n) : (l >>= f).Spends good n := by
  refine Program.Spends.bind (Program.Spends.mono h fun n r hr => ?_)
  cases r with
  | ok a => exact hr a rfl
  | error e => exact fun _ hb => nomatch hb

end Local

/-! ## Checked calls -/

namespace Problem

variable (p : Problem Double) {n : Nat}

theorem spends_evaluate (x : List Double) : (p.evaluate x).Spends (fun n' _ => n' = n + 1) n := by
  refine .bind (Local.spends_ofExcept fun _ _ => ?_)
  refine .bind (Local.spends_ask fun _ => ?_)
  refine .bind (Local.spends_ask fun e => ?_)
  refine .bind (Local.spends_ofExcept fun _ _ => ?_)
  exact Local.spends_pure rfl

theorem spends_evaluateComplex (z : List (Complex Double)) :
    (p.evaluateComplex z).Spends (fun n' _ => n' = n + 1) n := by
  refine .bind (Local.spends_ofExcept fun _ _ => ?_)
  refine .bind (Local.spends_ask fun _ => ?_)
  refine .bind (Local.spends_ask fun answer => ?_)
  cases answer with
  | none => exact Local.spends_pure rfl
  | some e => exact .bind (Local.spends_ofExcept fun _ _ => Local.spends_pure rfl)

theorem spends_gradient (x : List Double) : (p.gradient x).Spends (fun n' _ => n' = n + 1) n := by
  refine .bind (Local.spends_ofExcept fun _ _ => ?_)
  refine .bind (Local.spends_ask fun answer => ?_)
  cases answer with
  | none => exact Local.spends_pure rfl
  | some s => exact .bind (Local.spends_ofExcept fun _ _ => Local.spends_pure rfl)

end Problem

/-! ## Columns -/

namespace Kernel

variable (k : Kernel Double) (p : Problem Double) (x : List Double) {n : Nat}

theorem spends_column (j : Nat) : (k.column p x j).Spends (fun n' _ => n' = n + 1) n := by
  rw [column]
  split
  · exact fun e => Empty.elim e
  · split
    · exact .bind ((p.spends_evaluate _).mono fun _ _ hn => Local.spends_pure hn)
    · refine .bind ((p.spends_evaluateComplex _).mono fun _ answer hn => ?_)
      cases answer with
      | none => exact Local.spends_throw _
      | some e => exact Local.spends_pure hn

/-- A column takes one call. -/
theorem spends_columns (js : List Nat) :
    (k.columns p x js).Spends (fun n' columns => n' = n + columns.length) n := by
  induction js generalizing n with
  | nil => exact Local.spends_pure rfl
  | cons j js ih =>
    refine .bind ((k.spends_column p x j).mono fun _ column hn => ?_)
    refine .bind (ih.mono fun _ columns hn' => Local.spends_pure ?_)
    rw [List.length_cons]
    omega

end Kernel

theorem Engine.spends_analyticJacobian (problem : Problem Double) (x : List Double) {n : Nat} :
    (analyticJacobian problem x).Spends (fun n' J => n' = n + J.evaluations) n := by
  refine .bind ((problem.spends_gradient x).mono fun _ answer hn => ?_)
  cases answer with
  | none => exact Local.spends_throw _
  | some s =>
    dsimp only
    split
    · exact Local.spends_pure hn
    · exact fun e => Empty.elim e

/-! ## The root of a session -/

namespace Session

/-- From a count of `n` model calls of all ranks on, the program asks its model, and the group for
columns, and comes to none but results that are good together with the count by then.  What a
request costs that fails is not known. -/
inductive Spends (problem : Problem Double) (here : Place) (good : Nat → α → Prop) :
    Nat → Program rankAccess α → Prop
  | done {n : Nat} {a : α} (h : good n a) : Spends problem here good n (.done a)
  | model {n : Nat} {c : ModelCall Double}
      {next : (modelAccess Double).Reply c → Program rankAccess α}
      (h : ∀ reply, Spends problem here good (n + c.cost) (next reply)) :
    Spends problem here good n (.call (I := rankAccess) (.model c) next)
  | request {n : Nat} {q : Request}
      {next : Except (Error Double) (List (Column Double)) → Program rankAccess α}
      (hok : ∀ columns, Spends problem here good (n + columns.length) (next (.ok columns)))
      (herror : ∀ e n', Spends problem here good n' (next (.error e))) :
    Spends problem here good n ((request problem q.kernel q.x q.partition here).run.bind next)

namespace Spends

variable {problem : Problem Double} {here : Place} {n : Nat}

theorem mono {good good' : Nat → α → Prop} (himp : ∀ n a, good n a → good' n a)
    {p : Program rankAccess α} (h : Spends problem here good n p) :
    Spends problem here good' n p := by
  induction h with
  | done h => exact .done (himp _ _ h)
  | model _ ih => exact .model ih
  | request _ _ hok herror => exact .request hok herror

theorem bind {good : Nat → β → Prop} {p : Program rankAccess α} {f : α → Program rankAccess β}
    (h : Spends problem here (fun n a => Spends problem here good n (f a)) n p) :
    Spends problem here good n (p.bind f) := by
  induction h with
  | done h => exact h
  | model _ ih => exact .model ih
  | request _ _ hok herror =>
    rw [Program.bind_assoc]
    exact .request hok herror

theorem onRank {good : Nat → α → Prop} {p : Program (modelAccess Double) α}
    (h : p.Spends good n) : Spends problem here good n p.onRank := by
  induction p generalizing n with
  | done a => exact .done h
  | call c next ih => exact .model fun reply => ih reply (h reply)

end Spends

end Session

/-! ## Requests to an engine -/

namespace Engine

namespace Request

/-- The same of a request from this memory: of its results other than errors, with the memory that
is left. -/
def Spends (problem : Problem Double) (here : Place) (t : Request α)
    (good : Nat → α → Memory → Prop) (n : Nat) (memory : Memory) : Prop :=
  Session.Spends problem here (fun n r => ∀ a, r.1 = .ok a → good n a r.2) n (t.run.run memory)

variable {problem : Problem Double} {here : Place} {good : Nat → α → Memory → Prop} {n : Nat}
  {memory : Memory}

theorem spends_pure {a : α} (h : good n a memory) :
    Spends problem here (pure a) good n memory := by
  refine .done ?_
  rintro _ ⟨⟩
  exact h

theorem spends_throw (e : Error Double) : Spends problem here (throw e) good n memory :=
  .done nofun

theorem Spends.mono {t : Request α} {good' : Nat → α → Memory → Prop}
    (h : Spends problem here t good n memory)
    (himp : ∀ n a memory, good n a memory → good' n a memory) :
    Spends problem here t good' n memory :=
  Session.Spends.mono (fun n r hr a ha => himp n a r.2 (hr a ha)) h

theorem Spends.bind {good : Nat → β → Memory → Prop} {t : Request α} {f : α → Request β}
    (h : Spends problem here t (fun n a memory => Spends problem here (f a) good n memory) n
      memory) : Spends problem here (t >>= f) good n memory := by
  rw [Spends, run_bind]
  refine .bind (Session.Spends.mono ?_ h)
  rintro n ⟨e | a, memory⟩ hr
  · exact .done nofun
  · exact hr a rfl

theorem spends_ofTask {t : Task α}
    (h : Session.Spends problem here (fun n r => ∀ a, r = .ok a → good n a memory) n t.run) :
    Spends problem here (Request.ofTask t) good n memory :=
  Session.Spends.bind (h.mono fun _ _ hr => .done hr)

theorem spends_ofLocal {l : Local Double α} (h : l.Spends (fun n a => good n a memory) n) :
    Spends problem here (Request.ofTask (Task.ofLocal l)) good n memory :=
  spends_ofTask (.onRank h)

theorem spends_note {event : Event Double} {good : Nat → Unit → Memory → Prop}
    (h : good n () memory) :
    Spends problem here (Request.ofTask (Task.note event)) good n memory :=
  spends_ofLocal (Local.spends_ask fun _ => h)

end Request

variable {problem : Problem Double} {here : Place} {x : List Double} {n : Nat} {memory : Memory}

open Request

/-- The calls with which a request finds out whether the model takes complex arguments. -/
def probes (e : Engine) : Memory → Nat
  | some _ => 0
  | none =>
    match e.method with
    | .complexStep _ => 1
    | _ => 0

theorem spends_complexSupport (e : Engine) {step : Double} (hmethod : e.method = .complexStep step)
    (problem : Problem Double) (here : Place) (x : List Double) (n : Nat) (memory : Memory) :
    Request.Spends problem here (e.complexSupport problem x)
      (fun n' _ memory' => n' = n + e.probes memory ∧ e.probes memory' = 0) n memory := by
  rw [complexSupport]
  refine .bind (.done ?_)
  rintro _ ⟨⟩
  cases memory with
  | some known => exact spends_pure ⟨rfl, rfl⟩
  | none =>
    have hprobes : e.probes none = 1 := by rw [probes, hmethod]
    refine .bind (spends_ofLocal ((problem.spends_evaluateComplex _).mono fun _ answer hn => ?_))
    refine .bind (.done ?_)
    rintro _ ⟨⟩
    split
    · exact .bind (spends_note (spends_pure ⟨hprobes ▸ hn, rfl⟩))
    · exact spends_pure ⟨hprobes ▸ hn, rfl⟩

theorem spends_resolve (e : Engine) (problem : Problem Double) (here : Place) (x : List Double)
    (n : Nat) (memory : Memory) :
    Request.Spends problem here (e.resolve problem x)
      (fun n' _ memory' => n' = n + e.probes memory ∧ e.probes memory' = 0) n memory := by
  rw [resolve]
  cases hmethod : e.method with
  | finiteDifference _ | analytic =>
    have hprobes : e.probes memory = 0 := by cases memory <;> simp [probes, hmethod]
    exact spends_pure ⟨hprobes ▸ rfl, hprobes⟩
  | complexStep step =>
    refine .bind ((e.spends_complexSupport hmethod problem here x n memory).mono ?_)
    intro n' known memory' hprobes
    split
    · exact spends_pure hprobes
    · cases e.fallback with
      | finiteDifference => exact spends_pure hprobes
      | error => exact spends_throw _

theorem spends_baseline (problem : Problem Double) (here : Place) (x : List Double)
    (known : Option (Evaluation Double)) (n : Nat) (memory : Memory) :
    Request.Spends problem here (baseline problem x known)
      (fun n' values memory' => n' = n + values.2 ∧ memory' = memory) n memory := by
  cases known with
  | some values => exact spends_pure ⟨rfl, rfl⟩
  | none =>
    exact .bind (spends_ofLocal ((problem.spends_evaluate x).mono fun _ _ hn =>
      spends_pure ⟨hn, rfl⟩))

theorem length_of_ofColumns {rows evaluations : Nat} {columns : List (Column Double)}
    {J : Jacobian Double} (h : Jacobian.ofColumns rows n columns evaluations = .ok J) :
    columns.length = n ∧ J.evaluations = evaluations := by
  obtain ⟨honce, hcolumnwise⟩ := Jacobian.ofColumns_eq_ok.mp h
  have hlength := honce.length_eq
  rw [List.length_map, List.length_range] at hlength
  exact ⟨hlength, hcolumnwise.evaluations⟩

/-- The columns of an engine cost what they are, wherever they are evaluated. -/
theorem spends_columns (e : Engine) (problem : Problem Double) (kernel : Kernel Double)
    (x : List Double) (here : Place) (n : Nat) :
    Session.Spends problem here (fun n' r => ∀ columns, r = .ok columns → n' = n + columns.length) n
      (e.columns problem kernel x here).run := by
  have hall : (kernel.columns problem x (List.range x.length)).Spends
      (fun n' columns => n' = n + columns.length) n := kernel.spends_columns problem x _
  rw [columns]
  cases e.mode with
  | sequential => exact .onRank hall
  | threads =>
    dsimp only
    split
    · exact .onRank (Program.Spends.muted hall)
    · exact .onRank hall
  | parallel =>
    rw [← Program.bind_pure (ExceptT.run _)]
    refine .request (q := ⟨x, kernel, e.partition⟩) (fun columns => .done ?_) fun _ _ =>
      .done fun columns heq => ?_
    · rintro _ ⟨⟩
      rfl
    · cases heq

/-- A Jacobian comes of one column for every variable. -/
theorem spends_assemble (e : Engine) (problem : Problem Double) (kernel : Kernel Double)
    (x : List Double) (here : Place) (evaluations n : Nat) (memory : Memory) :
    Request.Spends problem here (e.assemble problem kernel x here evaluations)
      (fun n' J memory' => n' = n + problem.vars.length ∧ J.evaluations = evaluations ∧
        memory' = memory) n memory := by
  refine .bind (spends_ofTask ((e.spends_columns problem kernel x here n).mono ?_))
  intro n' result hn columns hcolumns
  refine spends_ofLocal (Local.spends_ofExcept fun J hJ => ?_)
  obtain ⟨hlength, hevaluations⟩ := length_of_ofColumns hJ
  exact ⟨hlength ▸ hn columns hcolumns, hevaluations, rfl⟩

/-- A Jacobian takes the calls it says, on all ranks, and those with which the request finds out
about the model.  No later request of the engine has to find out again. -/
theorem spends_jacobianAt (e : Engine) (problem : Problem Double) (x : List Double)
    (known : Option (Evaluation Double)) (here : Place) (n : Nat) (memory : Memory) :
    Request.Spends problem here (e.jacobianAt problem x known here)
      (fun n' J memory' => n' = n + J.evaluations + e.probes memory ∧ e.probes memory' = 0) n
      memory := by
  rw [jacobianAt_eq]
  split
  · exact spends_throw _
  split
  · exact spends_throw _
  refine .bind (spends_note (.bind ((e.spends_resolve problem here x n memory).mono ?_)))
  rintro n₁ scheme memory₁ ⟨hprobes, hmemory⟩
  -- a scheme spends on its baseline and its columns, after the probe that has settled it
  cases scheme with
  | analytic =>
    refine spends_ofLocal ((spends_analyticJacobian problem x).mono fun n' J hn => ?_)
    exact ⟨by omega, hmemory⟩
  | forward step =>
    refine .bind ((spends_baseline problem here x known n₁ memory₁).mono ?_)
    rintro n₂ ⟨values, spent⟩ _ ⟨hbaseline, rfl⟩
    refine (e.spends_assemble problem _ x here _ n₂ _).mono ?_
    rintro n' J _ ⟨hcolumns, hevaluations, rfl⟩
    exact ⟨by omega, hmemory⟩
  | complex step =>
    refine (e.spends_assemble problem _ x here _ n₁ memory₁).mono ?_
    rintro n' J _ ⟨hcolumns, hevaluations, rfl⟩
    exact ⟨by omega, hmemory⟩

end Engine

end Nlp
