import Nlp.Proofs.Derivative.Local
import Nlp.Proofs.Derivative.Round

/-!
# Jacobians in all modes

Where all ranks have the same model, which always answers alike, a Jacobian comes out the same
whether the root evaluates its columns one after another, on a pool or with its group.

## Main definitions

* `Session.Sendable`: whatever the ranks have to say about some model has a message.
* `Session.Tellable`: there is a message for a failure.
* `Session.Mirrors`: one program in a group comes to what another comes to by itself.

## Main results

* `Session.told_jacobianAt`, `Session.mirrors_jacobianAt`: a request in parallel mode mirrors one in
  sequential mode.
* `Session.parallel_refines_sequential`: Jacobians in a group refine those of the root by itself.
-/

namespace Nlp

variable {σ τ α β γ : Type} {size : Nat} {m : Model Double}

/-! ## Sessions of ranks with one model -/

namespace Session

/-- Whatever the ranks have to say about a problem with this model has a message. -/
structure Sendable (m : Model Double) (size : Nat) (problem : Problem Double) : Prop where
  root : rootRank < size
  columns : problem.vars.length + size ≤ 2 ^ 64
  rows : 1 + problem.constraints.length < Wire.wordLimit
  reasons : ∀ (kernel : Kernel Double) x j e, x.length = problem.vars.length →
    m.Gives (kernel.column problem x j).run (.error e) → Wire.extent e.message < Wire.wordLimit

variable {problems : Rank → Problem Double} {q : Request} {evaluations : Nat}

theorem Sendable.feasible (h : Sendable m size (problems rootRank))
    (hcounts : ∀ r < size, (problems rootRank).SameCounts (problems r))
    (hx : q.x.length = (problems rootRank).vars.length)
    (hfits : q.kernel.Fits (1 + (problems rootRank).constraints.length)) (s : Rank → Unit) :
    q.Feasible size problems (fun _ => m.responder) s where
  root := h.root
  answers _ _ := m.answers_responder
  columns := hx ▸ h.columns
  rows r hr := (hcounts r hr).constraints ▸ h.rows
  kernel := by
    cases hkernel : q.kernel with
    | complex step => exact Nat.two_pow_pos 64
    | forward step baseline =>
      rw [hkernel] at hfits
      have hlength : 1 + baseline.constraints.length = _ := hfits
      exact Request.extent_doubles (by have := h.rows; omega)
  reasons r hr j e hmakes :=
    h.reasons q.kernel q.x j e hx ((Kernel.gives_congr (hcounts r hr)).mpr hmakes.gives)

/-- The columns the model gives make a Jacobian, if there are all of them. -/
theorem ofColumns_eq_ok_of_evaluates {problem : Problem Double}
    {own : Except (Error Double) (List (Column Double))}
    (h : q.kernel.Evaluates problem q.x m.responder (List.range q.x.length) () own) {rows : Nat}
    {J : Jacobian Double} :
    (own >>= fun columns => Jacobian.ofColumns rows q.x.length columns evaluations) = .ok J ↔
      J.Columnwise rows q.x.length evaluations fun j column =>
        m.Gives (q.kernel.column problem q.x j).run (.ok column) := by
  cases own with
  | ok columns =>
    obtain ⟨hindices, hcomputes⟩ := h
    refine Jacobian.ofColumns_eq_ok_of_good (.of_eq hindices) (fun j column column' hc hc' => ?_)
      fun c hc => (hcomputes c hc).gives
    exact Except.ok.inj (hc.unique hc')
  | error e =>
    obtain ⟨before, j, after, hrange, -, hfails⟩ := h
    refine ⟨nofun, fun hJ => ?_⟩
    have hj : j < q.x.length := List.mem_range.mp hfails.mem
    nomatch hfails.gives.unique (hJ.column j hj)

/-- What a round of ranks with one model comes to is what the root comes to by itself. -/
theorem Request.Outcome.agrees {result : Except (Error Double) (Jacobian Double)}
    {own : Except (Error Double) (List (Column Double))} {s : Rank → Unit}
    (h : q.Outcome size problems (fun _ => m.responder) s evaluations result)
    (hroot : rootRank < size) (hwords : q.x.length + size ≤ 2 ^ 64)
    (hcounts : ∀ r < size, (problems rootRank).SameCounts (problems r))
    (hown : q.kernel.Evaluates (problems rootRank) q.x m.responder (List.range q.x.length) () own)
    (J : Jacobian Double) :
    result = .ok J ↔ (own >>= fun columns => Jacobian.ofColumns
      (1 + (problems rootRank).constraints.length) q.x.length columns evaluations) = .ok J := by
  have hmakes : ∀ r < size, ∀ j made, q.Makes size problems (fun _ => m.responder) s r j made →
      m.Gives (q.kernel.column (problems rootRank) q.x j).run made := fun r hr j made hmade =>
    (Kernel.gives_congr (hcounts r hr)).mpr hmade.gives
  rw [ofColumns_eq_ok_of_evaluates hown]
  -- a matrix is determined by its columns; a failure of a rank is one of the same column here
  cases h with
  | @ok K hnone hK =>
    have hgiven := hK.mono fun j column hj hmade =>
      hmakes _ (q.partition.owner_lt hroot hj) j _ hmade
    constructor
    · rintro ⟨⟩
      exact hgiven
    · intro hJ
      refine congrArg Except.ok (hgiven.unique hJ fun j column column' hc hc' => ?_)
      exact Except.ok.inj (hc.unique hc')
  | error hsome =>
    obtain ⟨r, hr, j, e, hfails⟩ := hsome
    refine ⟨nofun, fun hJ => ?_⟩
    have hj := ((q.partition.mem_columns hr hwords).mp hfails.mem).1
    nomatch (hmakes r hr j _ hfails).unique (hJ.column j hj)

/-- What the root has to say about an error has a message. -/
def Tellable (e : Error Double) : Prop :=
  Wire.extent (releaseCommand (some e)) < Wire.wordLimit

/-- The failures of a round have a message: no more ranks fail than there are. -/
theorem Request.Outcome.tellable {e : Error Double} {s : Rank → Unit}
    (h : q.Outcome size problems (fun _ => m.responder) s evaluations (.error e))
    (hsend : Sendable m size (problems rootRank))
    (hcounts : ∀ r < size, (problems rootRank).SameCounts (problems r))
    (hx : q.x.length = (problems rootRank).vars.length) : Tellable e := by
  have hwords : q.x.length + size ≤ 2 ^ 64 := hx ▸ hsend.columns
  cases h with
  | @error failures hsome hascending hfailures =>
    obtain ⟨r, hr, j, e, hfails⟩ := hsome
    have hj := ((q.partition.mem_columns hr hwords).mp hfails.mem).1
    have hsize : size < Wire.wordLimit := by
      show size < 2 ^ 64
      omega
    -- every rank has at most one failure, and each of the reasons fits by assumption
    have hranks : failures.length ≤ size := by
      have hsubperm : (failures.map RankFailure.rank).Subperm (List.range size) := by
        refine List.subperm_of_subset (hascending.imp Nat.ne_of_lt) fun r hr => ?_
        obtain ⟨f, hf, rfl⟩ := List.mem_map.mp hr
        exact List.mem_range.mpr ((hfailures f).mp hf).1
      simpa using hsubperm.length_le
    refine Wire.extent_list_lt.mpr ⟨hranks.trans_lt hsize, fun f hf => ?_⟩
    obtain ⟨hrank, i, e', hfirst, hreason⟩ := (hfailures f).mp hf
    refine max_lt (hrank.trans hsize) ?_
    rw [hreason]
    exact hsend.reasons q.kernel q.x i e' hx
      ((Kernel.gives_congr (hcounts f.rank hrank)).mpr hfirst.1.gives)

/-! ## One program in a group and another by itself -/

/-- In a group whose other ranks serve it, the root's program `p'` comes to what `p` comes to by
itself, up to `related`; it takes as many rounds as `cost` says of the result of `p`. -/
def Mirrors (m : Model Double) (size : Nat) (problems : Rank → Problem Double) (cost : α → Nat)
    (related : α → α → Prop) (p p' : Program rankAccess α) : Prop :=
  ∀ (τ : Type) (k : α → Program rankAccess τ) (g : Rank → Except (Error Double) Nat →
    Program rankAccess τ) (post : Option (Rank → τ) → Prop) (rounds served : Nat) (a : α),
    m.Gives p.alone a → (1 < size → cost a ≤ rounds) →
    (∀ a' rounds' served', related a a' → (1 < size → rounds ≤ rounds' + cost a) →
      Concludes size (fun _ => m.responder) (k a') ()
        (fun r => (serveFrom (problems r) ⟨r, size⟩ rounds' served').run.bind (g r)) (fun _ => ())
        fun _ => post) →
    Concludes size (fun _ => m.responder) (p'.bind k) ()
      (fun r => (serveFrom (problems r) ⟨r, size⟩ rounds served).run.bind (g r)) (fun _ => ())
      fun _ => post

namespace Mirrors

variable {related : α → α → Prop} {related' : β → β → Prop} {cost : α → Nat} {cost' : β → Nat}

theorem done {a a' : α} (h : related a a') :
    Mirrors m size problems (fun _ => 0) related (.done a) (.done a') := by
  intro τ k g post rounds served b hb _ hrest
  obtain rfl := Model.gives_done.mp hb
  exact hrest a' rounds served h fun _ => Nat.le_refl _

theorem mono {related' : α → α → Prop} {cost' : α → Nat} {p p' : Program rankAccess α}
    (h : Mirrors m size problems cost related p p')
    (hcost : ∀ a, m.Gives p.alone a → cost a ≤ cost' a)
    (hrelated : ∀ a a', m.Gives p.alone a → related a a' → related' a a') :
    Mirrors m size problems cost' related' p p' := by
  intro τ k g post rounds served a ha hrounds hrest
  have hle := hcost a ha
  refine h τ k g post rounds served a ha (fun hsize => hle.trans (hrounds hsize)) ?_
  intro a' rounds' served' haa' hrounds'
  exact hrest a' rounds' served' (hrelated a a' ha haa') fun hsize =>
    (hrounds' hsize).trans (Nat.add_le_add_left hle _)

theorem bind {p p' : Program rankAccess α} {f f' : α → Program rankAccess β}
    (rest : α → β → Nat) (h : Mirrors m size problems cost related p p')
    (hf : ∀ a a', m.Gives p.alone a → related a a' →
      Mirrors m size problems (rest a) related' (f a) (f' a'))
    (hcost : ∀ a b, m.Gives p.alone a → m.Gives (f a).alone b → cost a + rest a b ≤ cost' b) :
    Mirrors m size problems cost' related' (p.bind f) (p'.bind f') := by
  intro τ k g post rounds served b hb hrounds hrest
  obtain ⟨a, ha, hb⟩ := Model.gives_alone_bind.mp hb
  have hle := hcost a b ha hb
  rw [Program.bind_assoc]
  refine h τ _ g post rounds served a ha (fun hsize => ?_)
    fun a' rounds' served' haa' hrounds' => ?_
  · have hrounds := hrounds hsize
    omega
  refine hf a a' ha haa' τ k g post rounds' served' b hb (fun hsize => ?_) ?_
  · have hrounds := hrounds hsize
    have hrounds' := hrounds' hsize
    omega
  intro b' rounds'' served'' hbb' hrounds''
  refine hrest b' rounds'' served'' hbb' fun hsize => ?_
  have hrounds' := hrounds' hsize
  have hrounds'' := hrounds'' hsize
  omega

/-- The root's own part is the same in its group. -/
theorem onRank (hroot : rootRank < size) (l : Program (modelAccess Double) α) :
    Mirrors m size problems (fun _ => 0) (· = ·) l.onRank l.onRank := by
  intro τ k g post rounds served a ha _ hrest
  rw [Program.alone_onRank] at ha
  refine .local_root hroot (fun s₁ hstopped => ?_) fun b s₁ hb => ?_
  · nomatch ha.symm.trans hstopped
  · obtain rfl := ha.unique hb
    exact hrest a rounds served rfl fun _ => Nat.le_refl _

/-- What comes before is the same in a group. -/
theorem onRank_bind (hroot : rootRank < size) (l : Program (modelAccess Double) α)
    {f f' : α → Program rankAccess β}
    (h : ∀ a, m.Gives l a → Mirrors m size problems cost' related' (f a) (f' a)) :
    Mirrors m size problems cost' related' (l.onRank.bind f) (l.onRank.bind f') := by
  refine bind (fun _ => cost') (onRank hroot l) (fun a a' ha haa' => ?_)
    fun a b _ _ => (Nat.zero_add _).le
  rw [Program.alone_onRank] at ha
  exact haa' ▸ h a ha

end Mirrors

/-! ## A request of an engine -/

section

variable {e e' : Engine} {known : Option (Evaluation Double)} {x : List Double} {here : Place}
  {memory : Engine.Memory}

/-- Two results of a request agree: if one is a Jacobian, so is the other, and it is the same. -/
def Alike (a a' : Except (Error Double) (Jacobian Double) × Engine.Memory) : Prop :=
  (∀ J, a'.1 = .ok J ↔ a.1 = .ok J) ∧ a'.2 = a.2

/-- Two results of a request agree, and the second one is the same error or one that has a
message. -/
def AlikeTold (a a' : Except (Error Double) (Jacobian Double) × Engine.Memory) : Prop :=
  Alike a a' ∧ ∀ e, a'.1 = .error e → a.1 = .error e ∨ Tellable e

theorem AlikeTold.refl (a : Except (Error Double) (Jacobian Double) × Engine.Memory) :
    AlikeTold a a :=
  ⟨⟨fun _ => Iff.rfl, rfl⟩, fun _ => .inl⟩

theorem run_ofTask_bind_liftM (t : Task α) (k : α → Except (Error Double) β)
    (memory : Engine.Memory) :
    ((Engine.Request.ofTask t >>= fun a => Engine.Request.ofTask (liftM (k a))).run.run memory) =
      t.run.bind fun result => .done (result >>= k, memory) := by
  show (t.run.bind fun result => .done (result, memory)).bind _ = _
  rw [Program.bind_assoc]
  refine congrArg t.run.bind (funext fun result => ?_)
  cases result with
  | error e => rfl
  | ok a =>
    show ((liftM (k a) : Task β).run.bind fun result => .done (result, memory)) =
      .done (k a, memory)
    cases k a with
    | error e => rfl
    | ok b => rfl

theorem run_assemble (e : Engine) (problem : Problem Double) (kernel : Kernel Double)
    (x : List Double) (here : Place) (evaluations : Nat) (memory : Engine.Memory) :
    (e.assemble problem kernel x here evaluations).run.run memory =
      (e.columns problem kernel x here).run.bind fun result =>
        .done (result >>= fun columns => Jacobian.ofColumns (1 + problem.constraints.length)
          problem.vars.length columns evaluations, memory) :=
  run_ofTask_bind_liftM _ _ memory

theorem run_assemble_parallel (hmode' : e'.mode = .parallel) (problem : Problem Double)
    (kernel : Kernel Double)
    (k : Except (Error Double) (Jacobian Double) × Engine.Memory → Program rankAccess τ) :
    ((e'.assemble problem kernel x here evaluations).run.run memory).bind k =
      ((⟨x, kernel, e'.partition⟩ : Request).jacobian problem evaluations here).run.bind
        fun result => k (result, memory) := by
  have hcolumns : e'.columns problem kernel x here =
      request problem kernel x e'.partition here := by
    rw [Engine.columns, hmode']
  rw [run_assemble, hcolumns, Program.bind_assoc, Request.jacobian, Task.run_bind_bind]
  refine congrArg (Program.bind _) (funext fun result => ?_)
  rw [Task.andThen_liftM]
  rfl

theorem mirrors_assemble (hsend : Sendable m size (problems rootRank))
    (hcounts : ∀ r < size, (problems rootRank).SameCounts (problems r))
    (hmode : e.mode ≠ .parallel) (hmode' : e'.mode = .parallel) {kernel : Kernel Double}
    (hx : x.length = (problems rootRank).vars.length)
    (hfits : kernel.Fits (1 + (problems rootRank).constraints.length)) :
    Mirrors m size problems (fun _ => 1) AlikeTold
      ((e.assemble (problems rootRank) kernel x here evaluations).run.run memory)
      ((e'.assemble (problems rootRank) kernel x ⟨rootRank, size⟩ evaluations).run.run memory) := by
  intro τ k g post rounds served a ha hrounds hrest
  obtain ⟨l, hl, -, hgives⟩ :=
    Engine.columns_of_ne_parallel hmode (problems rootRank) kernel x here
  rw [run_assemble, hl] at ha
  obtain ⟨own, hown, ha⟩ := Model.gives_onRank_bind.mp ha
  obtain ⟨own', s', hown', hevaluates⟩ := kernel.run_columns (p := problems rootRank)
    m.answers_responder (fun j (hj : j ∈ List.range x.length) => List.mem_range.mp hj) ()
  obtain rfl := Model.Gives.unique ((hgives m own).mp hown) hown'
  obtain rfl := Model.gives_done.mp ha
  -- the group evaluates the same columns in one request
  rw [run_assemble_parallel hmode']
  refine Request.jacobian_concludes (hsend.feasible hcounts hx hfits _)
    (fun r hr => (hcounts r hr).constraints.symm) hx hfits
    (fun hsize => Nat.ne_of_gt (hrounds hsize)) ?_
  intro result s₁ s' rounds' served' hrounds' houtcome
  have hagrees := houtcome.agrees hsend.root (hx ▸ hsend.columns) hcounts hevaluates
  refine hrest _ rounds' served' ⟨⟨fun J => ?_, rfl⟩, ?_⟩ fun hsize => (hrounds' hsize).ge
  · rw [← hx]
    exact hagrees J
  · rintro e rfl
    exact .inr (houtcome.tellable hsend hcounts hx)

/-- What a request asks its model first is the same in a group. -/
theorem mirrors_bind_of_isLocal (hroot : rootRank < size) {t : Engine.Request α} (ht : t.IsLocal)
    {f f' : α → Engine.Request (Jacobian Double)}
    (h : ∀ a memory', m.Gives (t.run.run memory).alone (.ok a, memory') →
      Mirrors m size problems (fun _ => 1) AlikeTold ((f a).run.run memory')
        ((f' a).run.run memory')) :
    Mirrors m size problems (fun _ => 1) AlikeTold ((t >>= f).run.run memory)
      ((t >>= f').run.run memory) := by
  obtain ⟨l, hl, -⟩ := ht memory
  rw [Engine.Request.run_bind, Engine.Request.run_bind, hl]
  refine .onRank_bind hroot l ?_
  rintro ⟨e | a, memory'⟩ ha
  · exact (Mirrors.done (AlikeTold.refl _)).mono (fun _ _ => Nat.zero_le 1) fun _ _ _ h => h
  · rw [hl, Program.alone_onRank] at h
    exact h a memory' ha

theorem mirrors_note_bind (hroot : rootRank < size) (event event' : Event Double)
    {f f' : Unit → Engine.Request (Jacobian Double)}
    (h : Mirrors m size problems (fun _ => 1) AlikeTold ((f ()).run.run memory)
      ((f' ()).run.run memory)) :
    Mirrors m size problems (fun _ => 1) AlikeTold
      ((Engine.Request.ofTask (Task.note event) >>= f).run.run memory)
      ((Engine.Request.ofTask (Task.note event') >>= f').run.run memory) := by
  intro τ k g post rounds served a ha hrounds hrest
  exact .local_root hroot (p := Program.perform (I := modelAccess Double) (.note event'))
    (fun s₁ hstopped => nomatch hstopped)
    fun _ s₁ _ => h τ k g post rounds served a ha hrounds hrest

theorem length_of_gives_evaluate {problem : Problem Double} {values : Evaluation Double}
    (h : m.Gives (problem.evaluate x).run (.ok values)) :
    values.constraints.length = problem.constraints.length := by
  obtain ⟨result, s', hrun, hcheck⟩ :=
    (problem.ranging_evaluate x).run_finished m.answers_responder ()
  obtain rfl := Model.Gives.unique h hrun
  exact problem.length_of_checkEvaluation (hcheck _ rfl)

theorem length_of_gives_baseline {problem : Problem Double} {values : Evaluation Double}
    {spent : Nat} {memory' : Engine.Memory}
    (hknown : ∀ values, known = some values →
      values.constraints.length = problem.constraints.length)
    (h : m.Gives ((Engine.baseline problem x known).run.run memory).alone
      (.ok (values, spent), memory')) :
    values.constraints.length = problem.constraints.length := by
  cases known with
  | some values' =>
    obtain ⟨⟨⟩, -⟩ := Prod.mk.inj (Model.gives_done.mp h)
    exact hknown values rfl
  | none =>
    rw [Engine.baseline, Engine.Request.run_bind] at h
    obtain ⟨⟨own, memory₁⟩, hown, h⟩ := Model.gives_alone_bind.mp h
    obtain ⟨own', hevaluate, hown⟩ := Model.gives_onRank_bind.mp hown
    obtain ⟨rfl, rfl⟩ := Prod.mk.inj (Model.gives_done.mp hown)
    cases own' with
    | error e => nomatch (Prod.mk.inj (Model.gives_done.mp h)).1
    | ok e =>
      obtain ⟨⟨⟩, -⟩ := Prod.mk.inj (Model.gives_done.mp h)
      exact length_of_gives_evaluate hevaluate

theorem told_jacobianAt (hsend : Sendable m size (problems rootRank))
    (hcounts : ∀ r < size, (problems rootRank).SameCounts (problems r))
    (hmode : e.mode ≠ .parallel) (hmode' : e'.mode = .parallel) (hmethod : e'.method = e.method)
    (hfallback : e'.fallback = e.fallback)
    (hknown : ∀ values, known = some values →
      values.constraints.length = (problems rootRank).constraints.length) :
    Mirrors m size problems (fun _ => 1) AlikeTold
      ((e.jacobianAt (problems rootRank) x known here).run.run memory)
      ((e'.jacobianAt (problems rootRank) x known ⟨rootRank, size⟩).run.run memory) := by
  have hroot := hsend.root
  have hsettled : ∀ a,
      Mirrors m size problems (fun _ => 1) AlikeTold (.done a) (.done a) := fun a =>
    (Mirrors.done (AlikeTold.refl a)).mono (fun _ _ => Nat.zero_le 1) fun _ _ _ h => h
  rw [Engine.jacobianAt_eq, Engine.jacobianAt_eq]
  by_cases hx : x.length ≠ (problems rootRank).vars.length
  · rw [if_pos hx, if_pos hx]
    exact hsettled _
  have hown : ¬ (e.mode = .parallel ∧ ¬ here.isRoot) := fun h => hmode h.1
  have hown' : ¬ (e'.mode = .parallel ∧ ¬ (⟨rootRank, size⟩ : Place).isRoot) :=
    fun h => h.2 (decide_eq_true rfl)
  rw [if_neg hx, if_neg hx, if_neg hown, if_neg hown', Engine.resolve_congr hmethod hfallback]
  have hx := not_not.mp hx
  -- the probe and the baseline are local in both modes; only the columns go to the group
  refine mirrors_note_bind hroot _ _ (mirrors_bind_of_isLocal hroot Engine.isLocal_resolve ?_)
  intro scheme memory' _
  cases scheme with
  | analytic =>
    obtain ⟨l, hl, -⟩ := Engine.Request.isLocal_ofLocal
      (Engine.ranging_analyticJacobian (problems rootRank) x) memory'
    show Mirrors m size problems _ AlikeTold
      ((Engine.Request.ofTask (Task.ofLocal _)).run.run memory')
      ((Engine.Request.ofTask (Task.ofLocal _)).run.run memory')
    rw [hl]
    exact (Mirrors.onRank hroot l).mono (fun _ _ => Nat.zero_le 1)
      fun a a' _ h => h ▸ AlikeTold.refl a
  | forward step =>
    refine mirrors_bind_of_isLocal hroot (Engine.isLocal_baseline known) ?_
    rintro ⟨values, spent⟩ memory'' hvalues
    refine mirrors_assemble hsend hcounts hmode hmode' hx ?_
    exact congrArg (1 + ·) (length_of_gives_baseline hknown hvalues)
  | complex step => exact mirrors_assemble hsend hcounts hmode hmode' hx trivial

theorem mirrors_jacobianAt (hsend : Sendable m size (problems rootRank))
    (hcounts : ∀ r < size, (problems rootRank).SameCounts (problems r))
    (hmode : e.mode ≠ .parallel) (hmode' : e'.mode = .parallel) (hmethod : e'.method = e.method)
    (hfallback : e'.fallback = e.fallback)
    (hknown : ∀ values, known = some values →
      values.constraints.length = (problems rootRank).constraints.length) :
    Mirrors m size problems (fun _ => 1) Alike
      ((e.jacobianAt (problems rootRank) x known here).run.run memory)
      ((e'.jacobianAt (problems rootRank) x known ⟨rootRank, size⟩).run.run memory) :=
  (told_jacobianAt hsend hcounts hmode hmode' hmethod hfallback hknown).mono
    (fun _ _ => Nat.le_refl 1) fun _ _ _ h => h.1

end

/-! ## All modes -/

/-- A problem that passes the handshake has as many entries of every kind. -/
theorem sameCounts_of_mismatch? {problem problem' : Problem Double}
    (h : problem.toSnapshot.mismatch? problem'.toSnapshot = none) :
    problem.SameCounts problem' := by
  unfold Snapshot.mismatch? at h
  split at h
  · nomatch h
  · next hvars =>
    split at h
    · nomatch h
    · next hconstraints =>
      split at h
      · nomatch h
      · next hobjectives =>
        exact ⟨not_not.mp hvars, not_not.mp hobjectives, not_not.mp hconstraints⟩

/-- A Jacobian by columns in a group refines the one of the root by itself.  Whatever models the
ranks have, one round brings the root the matrix whose columns are those of their owners, or the
failures of exactly the ranks with a column that fails.  Where all of them have the same model,
which always answers alike, a request in parallel mode brings a Jacobian exactly if the same
request does in sequential mode, and the same one; and so does one in threads mode. -/
theorem parallel_refines_sequential
    (hlayout : ∀ r < size,
      (problems rootRank).toSnapshot.mismatch? (problems r).toSnapshot = none) :
    (∀ (σ : Type) (q : Request) (respond : Rank → Responder σ) (states : Rank → σ)
        (evaluations : Nat), q.Feasible size problems respond states →
      q.x.length = (problems rootRank).vars.length →
      q.kernel.Fits (1 + (problems rootRank).constraints.length) →
      ∃ result, q.Outcome size problems respond states evaluations result ∧ ∀ count,
        (Crew.ofPrograms size count states fun r => hold (problems r)
          (q.jacobian (problems r) evaluations ⟨r, size⟩).run ⟨r, size⟩).Brings
            (Crew.calmRules size respond) rootRank (some result)) ∧
    (∀ (m : Model Double) (e : Engine) (x : List Double) (known : Option (Evaluation Double))
        (memory : Engine.Memory), Sendable m size (problems rootRank) →
      (∀ values, known = some values →
        values.constraints.length = (problems rootRank).constraints.length) →
      ∃ own shared memory',
        m.Gives (((e.within .sequential).jacobianAt (problems rootRank) x known
          .single).run.run memory).alone (own, memory') ∧
        m.Gives (((e.within .threads).jacobianAt (problems rootRank) x known
          .single).run.run memory).alone (own, memory') ∧
        (∀ count, (Crew.ofPrograms size count (fun _ => ()) fun r => hold (problems r)
          (((e.within .parallel).jacobianAt (problems r) x known ⟨r, size⟩).run.run memory)
            ⟨r, size⟩).Brings (Crew.calmRules size fun _ => m.responder) rootRank
              (some (shared, memory'))) ∧
        ∀ J, shared = .ok J ↔ own = .ok J) := by
  have hcounts : ∀ r < size, (problems rootRank).SameCounts (problems r) := fun r hr =>
    sameCounts_of_mismatch? (hlayout r hr)
  refine ⟨?_, ?_⟩
  · intro σ q respond states evaluations hfeasible hx hfits
    refine hold_brings hfeasible.root ?_
    have hself : q.Feasible size problems respond (lead (states rootRank) states) := by
      rwa [lead_self]
    have hheld := Request.jacobian_held evaluations hself
      (fun r hr => (hcounts r hr).constraints.symm) hx hfits
    rwa [lead_self] at hheld
  · intro m e x known memory hsend hknown
    -- what the root comes to alone is what threads come to, and what the group mirrors
    have hlocal : ((e.within .sequential).jacobianAt (problems rootRank) x known .single).IsLocal :=
      Engine.isLocal_jacobianAt nofun
    obtain ⟨l, hl, hmeets⟩ := hlocal memory
    obtain ⟨⟨own, memory'⟩, hown, -⟩ := hmeets.exists_gives m
    rw [← Program.alone_onRank l, ← hl] at hown
    have hsame : m.Same
        (((e.within .sequential).jacobianAt (problems rootRank) x known .single).run.run memory)
        (((e.within .threads).jacobianAt (problems rootRank) x known .single).run.run memory) :=
      Engine.same_jacobianAt nofun nofun rfl rfl
    have hmirrors : Mirrors m size problems (fun _ => 1) Alike
        (((e.within .sequential).jacobianAt (problems rootRank) x known .single).run.run memory)
        (((e.within .parallel).jacobianAt (problems rootRank) x known
          ⟨rootRank, size⟩).run.run memory) :=
      mirrors_jacobianAt hsend hcounts nofun rfl rfl rfl hknown
    have hshared : Concludes size (fun _ => m.responder)
        ((((e.within .parallel).jacobianAt (problems rootRank) x known
          ⟨rootRank, size⟩).run.run memory).bind fun a =>
            (release ⟨rootRank, size⟩ none).run.bind fun _ => .done (some a)) ()
        (fun r => (serveFrom (problems r) ⟨r, size⟩ countLimit 0).run.bind fun _ => .done none)
        (fun _ => ()) (Held (Alike (own, memory'))) := by
      refine hmirrors _ _ _ _ _ _ _ hown (fun _ => one_lt_countLimit.le)
        fun shared rounds served halike hrounds => ?_
      refine held_of_result hsend.root (fun _ _ => m.answers_responder) (fun hsize => ?_) halike
      have hrounds : countLimit ≤ rounds + 1 := hrounds hsize
      have hlimit := one_lt_countLimit
      omega
    obtain ⟨⟨shared, memory''⟩, ⟨hshared, rfl⟩, hbrings⟩ :=
      hold_brings (p := fun r => ((e.within .parallel).jacobianAt (problems r) x known
        ⟨r, size⟩).run.run memory) hsend.root hshared
    exact ⟨own, shared, memory'', hown, (hsame _).mpr hown, hbrings, hshared⟩

theorem slope_in_all_modes :
    (∃ J, ∀ count, (Crew.ofPrograms 2 count (fun _ => ()) fun r => hold slope
        ((⟨[0, 0], .complex 1, .contiguous⟩ : Request).jacobian slope 2 ⟨r, 2⟩).run ⟨r, 2⟩).Brings
          (Crew.calmRules 2 fun _ => level.responder) rootRank (some (.ok J))) ∧
      ∃ shared memory, ∀ count, (Crew.ofPrograms 2 count (fun _ => ()) fun r => hold slope
        (((Engine.new (.complexStep 1) .parallel).jacobianAt slope [0, 0] none
          ⟨r, 2⟩).run.run none) ⟨r, 2⟩).Brings (Crew.calmRules 2 fun _ => level.responder) rootRank
            (some (shared, memory)) := by
  have hsend : Sendable level 2 slope :=
    ⟨by decide, by decide, by decide, fun k x j e hx h => absurd h (level_not_fails hx j e)⟩
  have hnever : ∀ r j e, ¬ (⟨[0, 0], .complex 1, .contiguous⟩ : Request).Makes 2 (fun _ => slope)
      (fun _ => level.responder) (fun _ => ()) r j (.error e) :=
    fun r j e h => level_not_fails rfl j e h.gives
  obtain ⟨hround, hmodes⟩ := @parallel_refines_sequential 2 (fun _ => slope) (by decide)
  refine ⟨?_, ?_⟩
  · obtain ⟨result, houtcome, hbrings⟩ := hround Unit ⟨[0, 0], .complex 1, .contiguous⟩
      (fun _ => level.responder) (fun _ => ()) 2
      ⟨by decide, fun _ _ => level.answers_responder, by decide, by decide, by decide,
        fun r _ j e h => absurd h (hnever r j e)⟩ rfl trivial
    cases houtcome with
    | @ok J hnone hJ => exact ⟨J, hbrings⟩
    | error hsome =>
      obtain ⟨r, -, j, e, hfails⟩ := hsome
      exact absurd hfails (hnever r j e)
  · obtain ⟨own, shared, memory, -, -, hbrings, -⟩ :=
      hmodes level (.new (.complexStep 1) .parallel) [0, 0] none none hsend nofun
    exact ⟨shared, memory, hbrings⟩

end Session

end Nlp
