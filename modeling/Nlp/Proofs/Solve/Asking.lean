import Nlp.Proofs.Derivative.Engine
import Nlp.Proofs.Derivative.Session
import Nlp.Solve.Bridge

/-!
# What a solver run asks of its group

The callbacks of a solver are answered by the root's own model and by column requests to the group,
whatever the solver asks for and however the requests end.

## Main results

* `Session.requesting_jacobianAt`: a request to an engine.
* `Session.asks_interpret`: a whole run.
-/

namespace Nlp

variable {problem : Problem Double} {here : Place} {α : Type}

/-! ## What a solver run asks of its group -/

namespace Session

theorem asks_request (q : Request) :
    Asks problem here (fun _ => True)
      (request problem q.kernel q.x q.partition here).run := by
  have h : Asks problem here (fun _ => True)
      ((request problem q.kernel q.x q.partition here).run.bind .done) :=
    .request fun _ => .done trivial
  rwa [Program.bind_pure] at h

theorem asks_columns (e : Engine) (kernel : Kernel Double) (x : List Double) :
    Asks problem here (fun _ => True) (e.columns problem kernel x here).run := by
  rw [Engine.columns]
  cases e.mode with
  | sequential => exact .onRank _
  | threads => exact .onRank _
  | parallel => exact asks_request ⟨x, kernel, e.partition⟩

theorem asks_ofExcept (r : Except (Error Double) α) :
    Asks problem here (fun _ => True) (liftM r : Task α).run := by
  cases r with
  | ok a => exact .done trivial
  | error e => exact .done trivial

/-- All results of a request to an engine. -/
abbrev requesting (problem : Problem Double) (here : Place) : Always Engine.Request :=
  ((asking problem here).state fun _ => True).except (Error Double)

theorem requesting_ofTask {t : Task α} (h : Asks problem here (fun _ => True) t.run) :
    (requesting problem here).holds (Engine.Request.ofTask t) fun _ => True := by
  intro s _
  exact (h.mono fun _ _ => .done ⟨fun _ _ => trivial, trivial⟩).bind

theorem requesting_ofLocal (p : Local Double α) :
    (requesting problem here).holds (Engine.Request.ofTask (Task.ofLocal p)) fun _ => True :=
  requesting_ofTask (.onRank _)

theorem requesting_throw (e : Error Double) :
    (requesting problem here).holds (throw e : Engine.Request α) fun _ => True :=
  fun _ _ => .done ⟨fun _ _ => trivial, trivial⟩

theorem requesting_pure (a : α) :
    (requesting problem here).holds (pure a : Engine.Request α) fun _ => True :=
  fun _ _ => .done ⟨fun _ _ => trivial, trivial⟩

theorem requesting_complexSupport (e : Engine) (x : List Double) :
    (requesting problem here).holds (e.complexSupport problem x) fun _ => True := by
  rw [Engine.complexSupport]
  refine (requesting problem here).seq (fun _ _ => .done ⟨fun _ _ => trivial, trivial⟩)
    fun known => ?_
  cases known with
  | some known => exact requesting_pure known
  | none =>
    refine (requesting problem here).seq (requesting_ofLocal _) fun answer => ?_
    refine (requesting problem here).seq (fun _ _ => .done ⟨fun _ _ => trivial, trivial⟩)
      fun _ => ?_
    refine (requesting problem here).ite (fun _ => ?_) fun _ => requesting_pure _
    exact (requesting problem here).seq (requesting_ofLocal _) fun _ => requesting_pure _

theorem requesting_resolve (e : Engine) (x : List Double) :
    (requesting problem here).holds (e.resolve problem x) fun _ => True := by
  rw [Engine.resolve]
  cases e.method with
  | finiteDifference step => exact requesting_pure _
  | analytic => exact requesting_pure _
  | complexStep step =>
    refine (requesting problem here).seq (requesting_complexSupport e x) fun known => ?_
    refine (requesting problem here).ite (fun _ => requesting_pure _) fun _ => ?_
    cases e.fallback with
    | finiteDifference => exact requesting_pure _
    | error => exact requesting_throw _

theorem requesting_baseline (x : List Double) (known : Option (Evaluation Double)) :
    (requesting problem here).holds (Engine.baseline problem x known) fun _ => True := by
  cases known with
  | some values => exact requesting_pure _
  | none => exact (requesting problem here).seq (requesting_ofLocal _) fun _ => requesting_pure _

theorem requesting_assemble (e : Engine) (kernel : Kernel Double) (x : List Double)
    (evaluations : Nat) :
    (requesting problem here).holds (e.assemble problem kernel x here evaluations)
      fun _ => True :=
  (requesting problem here).seq (requesting_ofTask (asks_columns e kernel x)) fun _ =>
    requesting_ofTask (asks_ofExcept _)

theorem requesting_jacobianAt (e : Engine) (x : List Double) (known : Option (Evaluation Double)) :
    (requesting problem here).holds (e.jacobianAt problem x known here) fun _ => True := by
  rw [Engine.jacobianAt_eq]
  refine (requesting problem here).ite (fun _ => requesting_throw _) fun _ => ?_
  refine (requesting problem here).ite (fun _ => requesting_throw _) fun _ => ?_
  refine (requesting problem here).seq (requesting_ofLocal _) fun _ => ?_
  refine (requesting problem here).seq (requesting_resolve e x) fun scheme => ?_
  cases scheme with
  | analytic => exact requesting_ofLocal _
  | forward step =>
    exact (requesting problem here).seq (requesting_baseline x known) fun baseline =>
      requesting_assemble e _ x _
  | complex step => exact requesting_assemble e _ x _

/-- All results of an answer to a callback, which counts at least so many Jacobians. -/
abbrev answering (problem : Problem Double) (here : Place) (most : Nat) : Always Bridge.Answer :=
  (asking problem here).state fun b => most ≤ b.counters.jacobians

section

variable {most : Nat}

theorem answering_pure (a : α) : (answering problem here most).holds (pure a) fun _ => True :=
  fun _ hb => .done ⟨trivial, hb⟩

theorem answering_modify {f : Bridge → Bridge}
    (hf : ∀ b, b.counters.jacobians ≤ (f b).counters.jacobians) :
    (answering problem here most).holds (modify f) fun _ => True :=
  fun b hb => .done ⟨trivial, hb.trans (hf b)⟩

theorem answering_lift {p : Program rankAccess α} (h : Asks problem here (fun _ => True) p) :
    (answering problem here most).holds (StateT.lift p) fun _ => True :=
  fun _ hb => (h.mono fun _ _ => .done ⟨trivial, hb⟩).bind

theorem answering_evaluate (x : List Double) :
    (answering problem here most).holds (Bridge.evaluate problem x) fun _ => True := by
  rw [Bridge.evaluate]
  refine (answering problem here most).seq (answering_lift (.onRank _)) fun result => ?_
  cases result with
  | error e => exact answering_pure _
  | ok values =>
    exact (answering problem here most).seq (answering_modify fun _ => le_rfl) fun _ =>
      answering_pure _

theorem answering_jacobian (e : Engine) (x : List Double) :
    (answering problem here most).holds (Bridge.jacobian problem e here x) fun _ => True := by
  rw [Bridge.jacobian]
  refine (answering problem here most).seq (fun _ hb => .done ⟨trivial, hb⟩) fun b => ?_
  have hjacobian : Asks problem here (fun _ => True)
      ((e.jacobianAt problem x (b.known x) here).run.run b.memory) :=
    (requesting_jacobianAt e x (b.known x) b.memory trivial).mono fun _ _ => trivial
  refine (answering problem here most).seq (answering_lift hjacobian) ?_
  rintro ⟨result, memory⟩
  refine (answering problem here most).seq (answering_modify fun _ => le_rfl) fun _ => ?_
  cases result with
  | error e => exact answering_pure _
  | ok jacobian =>
    exact (answering problem here most).seq (answering_modify fun b => Nat.le_succ _) fun _ =>
      answering_pure _

theorem answering_answer (e : Engine) (c : CallbackCall Double) :
    (answering problem here most).holds (Bridge.answer problem e here c) fun _ => True := by
  cases c with
  | evaluate x => exact answering_evaluate x
  | jacobian x => exact answering_jacobian e x
  | report progress => exact answering_lift (.onRank _)
  | outOfRange index size => exact answering_lift (.onRank _)

end

/-- Whatever a solver run asks for, the root asks its model or the group for columns, and no
Jacobian is forgotten. -/
theorem asks_interpret (e : Engine) (run : Program (callbacks Double (Error Double)) α)
    (b : Bridge) :
    Asks problem here (fun r => b.counters.jacobians ≤ r.2.counters.jacobians)
      ((run.interpret (Bridge.answer problem e here)).run b) := by
  have hanswers := (Program.meets_anything run).interpret
    (answering problem here b.counters.jacobians) fun c _ => answering_answer e c
  exact (hanswers b le_rfl).mono fun _ h => h.2

end Session

end Nlp
