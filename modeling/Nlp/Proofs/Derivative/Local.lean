import Nlp.Group.Single
import Nlp.Proofs.Derivative.Columns
import Nlp.Proofs.Derivative.Engine
import Nlp.Proofs.Derivative.Jacobian
import Nlp.Proofs.Derivative.Nearby

/-!
# What a rank makes of a request by itself

An engine whose columns stay with the root asks the root's own model only.  With a model that
always answers alike it makes the same of a request whether the columns are evaluated one after
another or on a pool.

## Main definitions

* `Kernel.Pooled`: what a pool can come to with some columns.
* `Model.Same`: two programs a rank makes the same of.
* `Engine.Request.IsLocal`: a request that only asks the rank's own model.

## Main results

* `Kernel.pooled_of_gives`: a pool has the columns the rank has by itself, or fails like it.
* `Engine.isLocal_jacobianAt`: a request in sequential mode comes to its end.
* `Engine.same_jacobianAt`: it comes to the same in threads mode.
-/

namespace Nlp

variable {α β : Type} {m : Model Double}

/-! ## A rank on its own -/

theorem Program.alone_bind (p : Program rankAccess α) (f : α → Program rankAccess β) :
    (p.bind f).alone = p.alone.bind fun a => (f a).alone := by
  rw [alone, interpret_bind]
  rfl

theorem Program.alone_onRank (p : Program (modelAccess Double) α) : p.onRank.alone = p := by
  induction p with
  | done a => rfl
  | call c next ih => exact congrArg (Program.call c) (funext ih)

theorem Model.gives_alone_bind {p : Program rankAccess α} {f : α → Program rankAccess β} {b : β} :
    m.Gives (p.bind f).alone b ↔ ∃ a, m.Gives p.alone a ∧ m.Gives (f a).alone b := by
  rw [Program.alone_bind, Model.gives_bind]

theorem Model.gives_onRank_bind {p : Program (modelAccess Double) α}
    {f : α → Program rankAccess β} {b : β} :
    m.Gives (p.onRank.bind f).alone b ↔ ∃ a, m.Gives p a ∧ m.Gives (f a).alone b := by
  rw [Model.gives_alone_bind, Program.alone_onRank]

theorem Model.gives_done {a b : α} :
    m.Gives (Program.done (I := rankAccess) a).alone b ↔ a = b := by
  constructor
  · intro h
    exact (Program.Ending.finished.inj h).1
  · rintro rfl
    rfl

/-! ## What a model makes of columns -/

namespace Kernel

variable {k : Kernel Double} {p p' : Problem Double} {x : List Double} {js : List Nat}

/-- A column does not depend on those that were evaluated before it. -/
theorem Computes.gives {j : Nat} {result : Except (Error Double) (List Double)}
    (h : k.Computes p x m.responder js () j result) : m.Gives (k.column p x j).run result := by
  generalize hs : () = s at h
  induction h with
  | now h => exact h
  | later _ _ ih => exact ih rfl

theorem gives_congr (h : p.SameCounts p') {j : Nat} {result : Except (Error Double) (List Double)} :
    m.Gives (k.column p x j).run result ↔ m.Gives (k.column p' x j).run result := by
  rw [Model.Gives, Model.Gives, h.run_column]

/-- What a pool can come to with some columns, of a model that always answers alike: all of them in
order, or the error of one that fails.  It need not be the first, and the columns after it may have
been evaluated or not. -/
inductive Pooled (k : Kernel Double) (m : Model Double) (p : Problem Double) (x : List Double)
    (js : List Nat) : Except (Error Double) (List (Column Double)) → Prop
  | columns {columns : List (Column Double)} (hindices : columns.map Prod.fst = js)
      (h : ∀ c ∈ columns, m.Gives (k.column p x c.1).run (.ok c.2)) :
    Pooled k m p x js (.ok columns)
  | failure {j : Nat} {e : Error Double} (hj : j ∈ js)
      (h : m.Gives (k.column p x j).run (.error e)) :
    Pooled k m p x js (.error e)

/-- The columns of a model are known by their indices. -/
theorem eq_of_gives {columns columns' : List (Column Double)}
    (h : ∀ c ∈ columns, m.Gives (k.column p x c.1).run (.ok c.2))
    (h' : ∀ c ∈ columns', m.Gives (k.column p x c.1).run (.ok c.2))
    (hindices : columns.map Prod.fst = columns'.map Prod.fst) : columns = columns' := by
  induction columns generalizing columns' with
  | nil => exact (List.map_eq_nil_iff.mp hindices.symm).symm
  | cons c columns ih =>
    obtain ⟨c', columns', rfl, hindex, hrest⟩ := List.map_eq_cons_iff.mp hindices.symm
    obtain ⟨hc, hcolumns⟩ := List.forall_mem_cons.mp h
    obtain ⟨hc', hcolumns'⟩ := List.forall_mem_cons.mp h'
    rw [hindex] at hc'
    obtain rfl : c = c' := Prod.ext hindex.symm (Except.ok.inj (hc.unique hc'))
    rw [ih hcolumns hcolumns' hrest.symm]

/-- What columns come to one after another a pool can come to.  It comes to nothing else where they
all succeed, and to an error where one fails. -/
theorem pooled_of_gives (hjs : ∀ j ∈ js, j < x.length)
    {result : Except (Error Double) (List (Column Double))}
    (hresult : m.Gives (k.columns p x js).run result) :
    k.Pooled m p x js result ∧ ∀ pooled, k.Pooled m p x js pooled →
      pooled = result ∨ ∃ e e', pooled = .error e ∧ result = .error e' := by
  obtain ⟨result', s', hrun, hevaluates⟩ :=
    run_columns (k := k) (p := p) Model.answers_responder hjs ()
  obtain ⟨rfl, -⟩ := Program.Ending.finished.inj (hresult.symm.trans hrun)
  cases result with
  | ok columns =>
    obtain ⟨hindices, hcomputes⟩ := hevaluates
    have hgives : ∀ c ∈ columns, m.Gives (k.column p x c.1).run (.ok c.2) :=
      fun c hc => (hcomputes c hc).gives
    refine ⟨.columns hindices hgives, fun pooled hpooled => .inl ?_⟩
    cases hpooled with
    | columns hindices' hgives' =>
      rw [eq_of_gives hgives' hgives (hindices'.trans hindices.symm)]
    | failure hj hfails =>
      obtain ⟨c, hc, rfl⟩ := List.mem_map.mp (hindices ▸ hj)
      nomatch hfails.unique (hgives c hc)
  | error e =>
    obtain ⟨before, j, after, rfl, -, hfails⟩ := hevaluates
    have hj : j ∈ before ++ j :: after := List.mem_append_right _ List.mem_cons_self
    refine ⟨.failure hj hfails.gives, fun pooled hpooled => .inr ?_⟩
    cases hpooled with
    | columns hindices hgives =>
      obtain ⟨c, hc, rfl⟩ := List.mem_map.mp (hindices ▸ hj)
      nomatch (hgives c hc).unique hfails.gives
    | failure => exact ⟨_, _, rfl, rfl⟩

end Kernel

/-! ## Requests that only ask the model -/

theorem Program.onRank_bind (p : Program (modelAccess Double) α)
    (f : α → Program (modelAccess Double) β) :
    (p.bind f).onRank = p.onRank.bind fun a => (f a).onRank := by
  rw [onRank, interpret_bind]
  rfl

/-! ## Parts of a request that stay with the rank -/

/-- The parts that only ask the model come to their end. -/
theorem Program.Meets.exists_gives {p : Program (modelAccess Double) α} {post : α → Prop}
    (h : p.Meets inRange post) (m : Model Double) : ∃ a, m.Gives p a ∧ post a := by
  obtain ⟨a, s, hrun, ha⟩ := h.run_finished m.answers_responder ()
  exact ⟨a, hrun, ha⟩

namespace Engine.Request

/-- A sequence of requests goes on from the result of its first part, if there is one. -/
theorem run_bind (t : Request α) (f : α → Request β) (memory : Memory) :
    (t >>= f).run.run memory = (t.run.run memory).bind fun a =>
      match a with
      | (.ok a, memory) => (f a).run.run memory
      | (.error e, memory) => .done (.error e, memory) := by
  show (t.run.run memory).bind _ = _
  refine congrArg (Program.bind _) (funext fun a => ?_)
  rcases a with ⟨_ | a, memory⟩
  · rfl
  · rfl

/-- The request only asks the rank's own model, and comes to its end. -/
def IsLocal (t : Request α) : Prop :=
  ∀ memory, ∃ l : Program (modelAccess Double) (Except (Error Double) α × Memory),
    t.run.run memory = l.onRank ∧ l.Meets inRange fun _ => True

theorem isLocal_pure (a : α) : IsLocal (pure a : Request α) :=
  fun memory => ⟨.done (.ok a, memory), rfl, trivial⟩

theorem isLocal_throw (e : Error Double) : IsLocal (throw e : Request α) :=
  fun memory => ⟨.done (.error e, memory), rfl, trivial⟩

theorem isLocal_ofLocal {l : Local Double α} {post : α → Prop} (h : ranging.holds l post) :
    (Request.ofTask (Task.ofLocal l)).IsLocal := by
  intro memory
  refine ⟨l.run.bind fun result => .done (result, memory), ?_, ?_⟩
  · rw [Program.onRank_bind]
    rfl
  · exact (Program.meets_bind _ _).mpr (h.mono fun _ _ => trivial)

theorem IsLocal.bind {t : Request α} {f : α → Request β} (ht : t.IsLocal)
    (hf : ∀ a, (f a).IsLocal) : (t >>= f).IsLocal := by
  intro memory
  obtain ⟨l, hl, hmeets⟩ := ht memory
  choose rest hrest hmeets' using hf
  refine ⟨l.bind fun a => match a with
    | (.ok a, memory) => rest a memory
    | (.error e, memory) => .done (.error e, memory), ?_, ?_⟩
  · rw [run_bind, hl, Program.onRank_bind]
    refine congrArg (Program.bind _) (funext fun a => ?_)
    rcases a with ⟨_ | a, memory⟩
    · rfl
    · exact hrest a memory
  · refine (Program.meets_bind _ _).mpr (hmeets.mono ?_)
    rintro ⟨_ | a, memory⟩ -
    · trivial
    · exact hmeets' a memory

end Engine.Request

namespace Engine

/-- The engine with its columns evaluated elsewhere. -/
def within (e : Engine) (mode : Mode) : Engine :=
  { e with mode }

variable {e e' : Engine} {problem : Problem Double} {x : List Double}
  {known : Option (Evaluation Double)} {here here' : Place}

theorem isLocal_note (event : Event Double) : (Request.ofTask (Task.note event)).IsLocal :=
  Request.isLocal_ofLocal (ranging_ask _ nofun)

theorem isLocal_complexSupport : (e.complexSupport problem x).IsLocal := by
  rw [complexSupport]
  refine Request.IsLocal.bind (fun memory => ⟨.done (.ok memory, memory), rfl, trivial⟩)
    fun known => ?_
  cases known with
  | some known => exact Request.isLocal_pure known
  | none =>
    refine (Request.isLocal_ofLocal (problem.ranging_evaluateComplex _)).bind fun answer => ?_
    refine Request.IsLocal.bind (fun _ => ⟨.done (.ok (), some answer.isSome), rfl, trivial⟩)
      fun _ => ?_
    split
    · exact (isLocal_note _).bind fun _ => Request.isLocal_pure _
    · exact Request.isLocal_pure _

theorem isLocal_resolve : (e.resolve problem x).IsLocal := by
  rw [resolve]
  cases e.method with
  | finiteDifference step => exact Request.isLocal_pure _
  | analytic => exact Request.isLocal_pure _
  | complexStep step =>
    refine isLocal_complexSupport.bind fun known => ?_
    split
    · exact Request.isLocal_pure _
    · cases e.fallback with
      | finiteDifference => exact Request.isLocal_pure _
      | error => exact Request.isLocal_throw _

theorem isLocal_baseline (known : Option (Evaluation Double)) :
    (baseline problem x known).IsLocal := by
  cases known with
  | some values => exact Request.isLocal_pure _
  | none =>
    exact (Request.isLocal_ofLocal (problem.ranging_evaluate x)).bind fun _ =>
      Request.isLocal_pure _

/-- The scheme of a request does not depend on where its columns are evaluated. -/
theorem resolve_congr (hmethod : e'.method = e.method) (hfallback : e'.fallback = e.fallback) :
    e'.resolve problem x = e.resolve problem x := by
  rw [resolve, resolve, complexSupport, complexSupport, hmethod, hfallback]

/-! ## Derivatives of the model -/

/-- Rows of the declared shape make a matrix. -/
theorem exists_ofRows?_eq_some {rows n : Nat} {lists : List (List Double)}
    (hrows : lists.length = rows) (hlengths : ∀ row ∈ lists, row.length = n) :
    ∃ matrix, Jacobian.ofRows? rows n lists = some matrix := by
  have hvectors : ∃ vectors, lists.mapM (vectorOf? n) = some vectors ∧
      vectors.length = lists.length := by
    -- on the rows, whose number does not matter for this
    clear hrows
    induction lists with
    | nil => exact ⟨[], rfl, rfl⟩
    | cons row lists ih =>
      obtain ⟨hrow, hlengths⟩ := List.forall_mem_cons.mp hlengths
      obtain ⟨vectors, hvectors, hlength⟩ := ih hlengths
      have hvector : vectorOf? n row = some ⟨row.toArray, hrow⟩ := vectorOf?_eq_some.mpr rfl
      refine ⟨⟨row.toArray, hrow⟩ :: vectors, ?_, congrArg (· + 1) hlength⟩
      rw [List.mapM_cons, hvector, hvectors]
      rfl
  obtain ⟨vectors, hvectors, hlength⟩ := hvectors
  have hentries : vectorOf? rows vectors = some ⟨vectors.toArray, hlength.trans hrows⟩ :=
    vectorOf?_eq_some.mpr rfl
  refine ⟨⟨rows, n, ⟨vectors.toArray, hlength.trans hrows⟩⟩, ?_⟩
  rw [Jacobian.ofRows?, hvectors]
  show (vectorOf? rows vectors).bind _ = _
  rw [hentries]
  rfl

theorem shape_of_ofRows? {rows n : Nat} {lists : List (List Double)} {matrix : Matrix Double}
    (h : Jacobian.ofRows? rows n lists = some matrix) : matrix.rows = rows ∧ matrix.cols = n := by
  obtain ⟨vectors, -, h⟩ := Option.bind_eq_some_iff.mp h
  obtain ⟨entries, -, h⟩ := Option.bind_eq_some_iff.mp h
  obtain rfl := Option.some.inj h
  exact ⟨rfl, rfl⟩

theorem shape_of_checkSensitivity {s : Sensitivity Double}
    (h : problem.checkSensitivity s = .ok ()) :
    s.objective.length = problem.vars.length ∧
      s.constraints.length = problem.constraints.length ∧
        ∀ row ∈ s.constraints, row.length = problem.vars.length := by
  unfold Problem.checkSensitivity at h
  dsimp only at h
  split at h
  · nomatch h
  · split at h
    · nomatch h
    · next hobjective =>
      split at h
      · nomatch h
      · next hconstraints =>
        split at h
        · nomatch h
        · next hnone =>
          refine ⟨not_not.mp hobjective, not_not.mp hconstraints, fun row hrow => ?_⟩
          simpa using List.find?_eq_none.mp hnone row hrow

theorem ranging_gradient :
    ranging.holds (problem.gradient x) fun answer =>
      ∀ s, answer = some s → problem.checkSensitivity s = .ok () := by
  refine ranging.chain (ranging_ofExcept _) fun _ _ => ?_
  refine ranging.seq (ranging_ask _ nofun) fun answer => ?_
  cases answer with
  | none => exact ranging.pure none nofun
  | some s =>
    refine ranging.chain (ranging_ofExcept _) fun _ hcheck => ?_
    refine ranging.pure (some s) fun s' heq => ?_
    obtain rfl := Option.some.inj heq
    exact hcheck

/-- A Jacobian from the model's own derivatives has the declared shape. -/
theorem ranging_analyticJacobian (problem : Problem Double) (x : List Double) :
    ranging.holds (analyticJacobian problem x) fun J =>
      J.matrix.rows = 1 + problem.constraints.length ∧ J.matrix.cols = problem.vars.length := by
  refine ranging.chain ranging_gradient fun answer hcheck => ?_
  cases answer with
  | none => exact fun _ h => nomatch h
  | some s =>
    obtain ⟨hobjective, hconstraints, hrows⟩ := shape_of_checkSensitivity (hcheck s rfl)
    have hlength : (s.objective :: s.constraints).length = 1 + problem.constraints.length := by
      rw [List.length_cons, hconstraints, Nat.add_comm]
    obtain ⟨matrix, hmatrix⟩ :=
      exists_ofRows?_eq_some hlength (List.forall_mem_cons.mpr ⟨hobjective, hrows⟩)
    simp only [hmatrix]
    exact ranging.pure _ (shape_of_ofRows? hmatrix)

/-! ## Columns that stay with the root -/

theorem ranging_columns {kernel : Kernel Double} {js : List Nat} (hjs : ∀ j ∈ js, j < x.length) :
    ranging.holds (kernel.columns problem x js) fun columns => columns.map Prod.fst = js := by
  induction js with
  | nil => exact ranging.pure _ rfl
  | cons j js ih =>
    obtain ⟨hj, hjs⟩ := List.forall_mem_cons.mp hjs
    refine ranging.seq ((Kernel.ranging_column hj).mono fun _ h => ?_) fun _ => ?_
    · exact fun _ _ => trivial
    · exact ranging.chain (ih hjs) fun _ hindices => ranging.pure _ (congrArg (j :: ·) hindices)

/-- The columns of an engine that has no group are all evaluated by the model of the root. -/
theorem columns_of_ne_parallel (hmode : e.mode ≠ .parallel) (problem : Problem Double)
    (kernel : Kernel Double) (x : List Double) (here : Place) :
    ∃ l : Local Double (List (Column Double)),
      e.columns problem kernel x here = Task.ofLocal l ∧ ranging.holds l (fun _ => True) ∧
        ∀ (m : Model Double) result, m.Gives l.run result ↔
          m.Gives (kernel.columns problem x (List.range x.length)).run result := by
  have hranging : ranging.holds (kernel.columns problem x (List.range x.length)) fun _ => True :=
    ranging.mono _ (fun _ _ => trivial) (ranging_columns fun j hj => List.mem_range.mp hj)
  rw [columns]
  cases hmode' : e.mode with
  | parallel => exact absurd hmode' hmode
  | sequential => exact ⟨_, rfl, hranging, fun _ _ => Iff.rfl⟩
  | threads =>
    refine ⟨_, rfl, ?_, fun m result => ?_⟩
    · split
      · exact Program.Meets.muted (fun _ => trivial) hranging
      · exact hranging
    · split
      · rw [Model.Gives, ExceptT.run_mk, Model.run_muted]
        rfl
      · rfl

theorem isLocal_assemble (hmode : e.mode ≠ .parallel) (kernel : Kernel Double)
    (evaluations : Nat) : (e.assemble problem kernel x here evaluations).IsLocal := by
  obtain ⟨l, hl, hranging, -⟩ := columns_of_ne_parallel hmode problem kernel x here
  rw [assemble, hl]
  refine (Request.isLocal_ofLocal hranging).bind fun columns => ?_
  cases Jacobian.ofColumns (1 + problem.constraints.length) problem.vars.length columns
    evaluations with
  | ok J => exact Request.isLocal_pure J
  | error e => exact Request.isLocal_throw e

/-- Without a group a request comes to its end. -/
theorem isLocal_jacobianAt (hmode : e.mode ≠ .parallel) :
    (e.jacobianAt problem x known here).IsLocal := by
  rw [jacobianAt_eq]
  split
  · exact Request.isLocal_throw _
  split
  · exact Request.isLocal_throw _
  refine (isLocal_note _).bind fun _ => isLocal_resolve.bind fun scheme => ?_
  cases scheme with
  | analytic => exact Request.isLocal_ofLocal (ranging_analyticJacobian problem x)
  | forward step =>
    exact (isLocal_baseline known).bind fun baseline => isLocal_assemble hmode _ _
  | complex step => exact isLocal_assemble hmode _ _

/-! ## The same in sequential and in threads mode -/

end Engine

/-- The model's rank makes the same of two programs by itself. -/
def Model.Same (m : Model Double) (p p' : Program rankAccess α) : Prop :=
  ∀ a, m.Gives p'.alone a ↔ m.Gives p.alone a

namespace Model.Same

theorem refl (p : Program rankAccess α) : m.Same p p :=
  fun _ => Iff.rfl

theorem bind {p p' : Program rankAccess α} {f f' : α → Program rankAccess β} (h : m.Same p p')
    (hf : ∀ a, m.Same (f a) (f' a)) : m.Same (p.bind f) (p'.bind f') := by
  intro b
  rw [gives_alone_bind, gives_alone_bind]
  exact exists_congr fun a => and_congr (h a) (hf a b)

theorem request_bind {t t' : Engine.Request α} {f f' : α → Engine.Request β}
    {memory : Engine.Memory} (h : m.Same (t.run.run memory) (t'.run.run memory))
    (hf : ∀ a memory, m.Same ((f a).run.run memory) ((f' a).run.run memory)) :
    m.Same ((t >>= f).run.run memory) ((t' >>= f').run.run memory) := by
  rw [Engine.Request.run_bind, Engine.Request.run_bind]
  refine h.bind fun a => ?_
  rcases a with ⟨e | a, memory'⟩
  · exact .refl _
  · exact hf a memory'

theorem note (event event' : Event Double) (memory : Engine.Memory) :
    m.Same ((Engine.Request.ofTask (Task.note event)).run.run memory)
      ((Engine.Request.ofTask (Task.note event')).run.run memory) :=
  fun _ => Iff.rfl

end Model.Same

namespace Engine

variable {e e' : Engine} {problem : Problem Double} {x : List Double}
  {known : Option (Evaluation Double)} {here here' : Place} {memory : Memory}

theorem same_assemble (hmode : e.mode ≠ .parallel) (hmode' : e'.mode ≠ .parallel)
    (kernel : Kernel Double) (evaluations : Nat) :
    m.Same ((e.assemble problem kernel x here evaluations).run.run memory)
      ((e'.assemble problem kernel x here' evaluations).run.run memory) := by
  obtain ⟨l, hl, -, hgives⟩ := columns_of_ne_parallel hmode problem kernel x here
  obtain ⟨l', hl', -, hgives'⟩ := columns_of_ne_parallel hmode' problem kernel x here'
  rw [assemble, assemble, hl, hl']
  refine .request_bind (fun a => ?_) fun _ _ => .refl _
  show m.Gives (l'.run.onRank.bind _).alone a ↔ m.Gives (l.run.onRank.bind _).alone a
  rw [Model.gives_onRank_bind, Model.gives_onRank_bind]
  exact exists_congr fun result => and_congr_left fun _ =>
    (hgives' m result).trans (hgives m result).symm

/-- Without a group it does not matter where a request is carried out. -/
theorem same_jacobianAt (hmode : e.mode ≠ .parallel) (hmode' : e'.mode ≠ .parallel)
    (hmethod : e'.method = e.method) (hfallback : e'.fallback = e.fallback) :
    m.Same ((e.jacobianAt problem x known here).run.run memory)
      ((e'.jacobianAt problem x known here').run.run memory) := by
  rw [jacobianAt_eq, jacobianAt_eq]
  by_cases hx : x.length ≠ problem.vars.length
  · rw [if_pos hx, if_pos hx]
    exact .refl _
  rw [if_neg hx, if_neg hx, if_neg fun h => hmode h.1, if_neg fun h => hmode' h.1,
    resolve_congr hmethod hfallback]
  refine .request_bind (.note _ _ _) fun _ memory => .request_bind (.refl _) fun scheme memory => ?_
  cases scheme with
  | analytic => exact .refl _
  | forward step =>
    exact .request_bind (.refl _) fun baseline memory => same_assemble hmode hmode' _ _
  | complex step => exact same_assemble hmode hmode' _ _

end Engine

end Nlp
