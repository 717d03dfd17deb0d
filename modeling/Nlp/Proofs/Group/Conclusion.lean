import Nlp.Proofs.Group.Lockstep
import Nlp.Proofs.Wire.RoundTrip

/-!
# What a group comes to

The root of a group runs one program and the other ranks another, each with its own model.  What
they come to in lockstep is found step by step: a part of one rank's program that only asks its
model, a collective of values, or the end of a rank whose model does not answer.

## Main definitions

* `Concludes`: the group meets at some collectives and comes to some results.

## Main results

* `Concludes.broadcast`, `Concludes.gather`: the collectives of values.
* `Program.pause_onRank_bind`: the parts of a rank by itself.
-/

namespace Nlp

variable {σ τ α : Type} {respond : Rank → Responder σ}

/-! ## A rank by itself -/

/-- No model answers for an index outside its list. -/
theorem Program.pause_outOfRange (respond : Responder σ) (index size : Nat)
    (next : Empty → Program rankAccess τ) (s : σ) :
    ((Program.call (I := rankAccess) (.model (.outOfRange index size)) next).pause respond s).1 =
      .panic := by
  rw [Program.pause_model]
  rcases respond (.outOfRange index size) s with ⟨_ | e, s'⟩
  · rfl
  · nomatch e

/-- The model's rank may report whatever it likes. -/
def Responder.TakesNotes (respond : Responder σ) : Prop :=
  ∀ event s, (respond (.note event) s).1 = some ()

/-- A part that only asks the rank's model is run at once. -/
theorem Program.pause_onRank_bind (respond : Responder σ) (p : Program (modelAccess Double) α)
    (f : α → Program rankAccess τ) (s : σ) :
    (p.onRank.bind f).pause respond s =
      match p.run respond s with
      | .finished a s => (f a).pause respond s
      | .stopped s => (.panic, s) := by
  induction p generalizing s with
  | done a => rfl
  | call c next ih =>
    show Program.pause respond (.call (I := rankAccess) (.model c) fun reply =>
      (next reply).onRank.bind f) s = _
    rw [Program.pause_model, Program.run]
    rcases respond c s with ⟨_ | reply, s'⟩
    · rfl
    · exact ih reply s'

namespace Task

variable [Wire α]

theorem encode_of_lt {v : α} (h : Wire.extent v < Wire.wordLimit) :
    encode v = pure (Wire.toBytes v) :=
  if_pos h

theorem decode_toBytes [Wire.Faithful α] {v : α} (h : Wire.extent v < Wire.wordLimit) :
    (decode (Wire.toBytes v) : Task α) = pure v := by
  rw [decode, Wire.ofBytes_toBytes h]

/-- What a rank makes of the bytes of a broadcast. -/
def received (reply : Except CommFault Bytes) : Task α :=
  match reply with
  | .ok bytes => decode bytes
  | .error fault => throw (.communication fault)

/-- What a rank makes of the parts of a gather. -/
def collected (reply : Except CommFault (Option Parts)) : Task (Option (List (Rank × α))) :=
  match reply with
  | .ok (some parts) => some <$> decodeAll parts
  | .ok none => pure none
  | .error fault => throw (.communication fault)

end Task

/-! ## Tasks -/

namespace Task

variable {β : Type}

/-- What comes after a task that may fail: a second one if it has not, and then the rest. -/
def andThen (k : α → Task β) (f : Except (Error Double) β → Program rankAccess τ) :
    Except (Error Double) α → Program rankAccess τ
  | .ok a => (k a).run.bind f
  | .error e => f (.error e)

@[simp] theorem andThen_ok (k : α → Task β) (f : Except (Error Double) β → Program rankAccess τ)
    (a : α) : andThen k f (.ok a) = (k a).run.bind f := rfl

@[simp] theorem andThen_error (k : α → Task β)
    (f : Except (Error Double) β → Program rankAccess τ) (e : Error Double) :
    andThen k f (.error e) = f (.error e) := rfl

theorem run_bind_bind (t : Task α) (k : α → Task β)
    (f : Except (Error Double) β → Program rankAccess τ) :
    (t >>= k).run.bind f = t.run.bind (andThen k f) := by
  rw [ExceptT.run_bind, Program.bind_eq, Program.bind_assoc]
  refine congrArg t.run.bind (funext fun r => ?_)
  cases r with
  | ok a => rfl
  | error e => rfl

theorem run_lift_bind_bind (p : Program rankAccess α) (k : α → Task β)
    (f : Except (Error Double) β → Program rankAccess τ) :
    ((ExceptT.lift p : Task α) >>= k).run.bind f = p.bind fun a => (k a).run.bind f := by
  rw [run_bind_bind, ExceptT.run_lift, map_eq_pure_bind, Program.bind_eq, Program.bind_assoc]
  rfl

theorem andThen_liftM {β : Type} (k : α → Except (Error Double) β)
    (f : Except (Error Double) β → Program rankAccess τ) (result : Except (Error Double) α) :
    andThen (fun a => liftM (k a)) f result = f (result >>= k) := by
  cases result with
  | error e => rfl
  | ok a =>
    show ((liftM (k a) : Task β).run.bind f) = f (k a)
    cases k a with
    | error e => rfl
    | ok b => rfl

theorem run_ofExcept_bind (r : Except (Error Double) α)
    (f : Except (Error Double) α → Program rankAccess τ) : (ofExcept r).run.bind f = f r := by
  cases r with
  | ok a => rfl
  | error e => rfl

/-- A task that only reports something. -/
def IsQuiet (t : Task Unit) : Prop :=
  ∃ l : Local Double Unit, t = ofLocal l ∧ ∀ {σ : Type} (respond : Responder σ) (s : σ),
    (∃ s', l.run.run respond s = .finished (.ok ()) s') ∨
      (∃ s', l.run.run respond s = .stopped s') ∧ ¬ respond.TakesNotes

theorem isQuiet_pure : IsQuiet (pure ()) :=
  ⟨pure (), rfl, fun _ s => .inl ⟨s, rfl⟩⟩

theorem isQuiet_note (event : Event Double) : IsQuiet (note event) := by
  refine ⟨Local.note event, rfl, fun respond s => ?_⟩
  have hrun : (Local.note event).run.run respond s =
      (Program.call (I := modelAccess Double) (.note event) fun _ =>
        .done (Except.ok () : Except (Error Double) Unit)).run respond s := rfl
  rw [hrun, Program.run]
  cases hreply : respond (.note event) s with
  | mk reply s' =>
    cases reply with
    | none =>
      refine .inr ⟨⟨s', rfl⟩, fun hnotes => ?_⟩
      have hsome := hnotes event s
      rw [hreply] at hsome
      cases hsome
    | some reply => exact .inl ⟨s', rfl⟩

end Task

/-! ## Collectives of values -/

namespace Place

variable [Wire α] {size : Nat} {v : α}

theorem pause_broadcast_root (hv : Wire.extent v < Wire.wordLimit) (respond : Responder σ)
    (f : Except (Error Double) α → Program rankAccess τ) (s : σ) :
    (((⟨rootRank, size⟩ : Place).broadcast (some v)).run.bind f).pause respond s =
      (.broadcast (Wire.toBytes v) fun reply => (Task.received reply : Task α).run.bind f, s) := by
  have hroot : (⟨rootRank, size⟩ : Place).broadcast (some v) = (do
      let payload ← Task.encode v
      let bytes ← Task.broadcastBytes payload
      Task.decode bytes) := rfl
  rw [hroot, Task.encode_of_lt hv]
  show Prod.mk (Pause.broadcast _ _) s = _
  congr 2
  funext reply
  cases reply with
  | error fault => rfl
  | ok bytes => rfl

theorem pause_broadcast_unfit (hv : ¬ Wire.extent v < Wire.wordLimit) (respond : Responder σ)
    (f : Except (Error Double) α → Program rankAccess τ) (s : σ) :
    ((((⟨rootRank, size⟩ : Place).broadcast (some v)).run.bind f).pause respond s).1 = .panic := by
  have hroot : (⟨rootRank, size⟩ : Place).broadcast (some v) = (do
      let payload ← Task.encode v
      let bytes ← Task.broadcastBytes payload
      Task.decode bytes) := rfl
  rw [hroot, Task.encode, if_neg hv]
  exact Program.pause_outOfRange respond _ _ _ s

theorem pause_broadcast_other {r : Rank} (hr : r ≠ rootRank) (respond : Responder σ)
    (f : Except (Error Double) α → Program rankAccess τ) (s : σ) :
    (((⟨r, size⟩ : Place).broadcast none).run.bind f).pause respond s =
      (.broadcast [] fun reply => (Task.received reply : Task α).run.bind f, s) := by
  have hother : (⟨r, size⟩ : Place).isRoot = false := decide_eq_false hr
  have hbroadcast : ((⟨r, size⟩ : Place).broadcast none : Task α) = (do
      let bytes ← Task.broadcastBytes []
      Task.decode bytes) := by
    rw [broadcast, hother]
    rfl
  rw [hbroadcast]
  show Prod.mk (Pause.broadcast _ _) s = _
  congr 2
  funext reply
  cases reply with
  | error fault => rfl
  | ok bytes => rfl

theorem pause_gather (hv : Wire.extent v < Wire.wordLimit) (respond : Responder σ)
    (f : Except (Error Double) (Option (List (Rank × α))) → Program rankAccess τ) (s : σ) :
    ((gather v).run.bind f).pause respond s =
      (.gather (Wire.toBytes v) fun reply =>
        (Task.collected reply : Task (Option (List (Rank × α)))).run.bind f, s) := by
  rw [gather, Task.encode_of_lt hv]
  show Prod.mk (Pause.gather _ _) s = _
  congr 2
  funext reply
  rcases reply with fault | _ | parts
  · rfl
  · rfl
  · exact congrArg (fun t : Task (Option (List (Rank × α))) => t.run.bind f)
      (map_eq_pure_bind some (Task.decodeAll parts)).symm

theorem pause_gather_unfit (hv : ¬ Wire.extent v < Wire.wordLimit) (respond : Responder σ)
    (f : Except (Error Double) (Option (List (Rank × α))) → Program rankAccess τ) (s : σ) :
    (((gather v).run.bind f).pause respond s).1 = .panic := by
  rw [gather, Task.encode, if_neg hv]
  exact Program.pause_outOfRange respond _ _ _ s

end Place

/-- The root has one thing, and each other rank its own. -/
def lead {β : Type} (a : β) (b : Rank → β) (r : Rank) : β :=
  if r = rootRank then a else b r

@[simp] theorem lead_root {β : Type} (a : β) (b : Rank → β) : lead a b rootRank = a :=
  if_pos rfl

theorem lead_other {β : Type} (a : β) (b : Rank → β) {r : Rank} (hr : r ≠ rootRank) :
    lead a b r = b r :=
  if_neg hr

@[simp] theorem lead_self {β : Type} (b : Rank → β) : lead (b rootRank) b = b := by
  funext r
  by_cases hr : r = rootRank
  · rw [hr, lead_root]
  · exact lead_other _ _ hr

theorem apply_lead {β γ : Type} (h : β → γ) (a : β) (b : Rank → β) (r : Rank) :
    h (lead a b r) = lead (h a) (fun r => h (b r)) r :=
  apply_ite h _ _ _

theorem Task.decodeAll_map [Wire α] [Wire.Faithful α] {v : Rank → α} {ranks : List Rank}
    (hv : ∀ r ∈ ranks, Wire.extent (v r) < Wire.wordLimit) :
    (Task.decodeAll (ranks.map fun r => (r, Wire.toBytes (v r))) : Task (List (Rank × α))) =
      pure (ranks.map fun r => (r, v r)) := by
  induction ranks with
  | nil => rfl
  | cons r ranks ih =>
    obtain ⟨hr, hranks⟩ := List.forall_mem_cons.mp hv
    rw [List.map_cons, Task.decodeAll, Task.decode_toBytes hr, pure_bind, ih hranks, pure_bind]
    rfl

/-- The group, with these programs of the root and of the others and the states of their models,
meets at some collectives and comes to an outcome as `post` says. -/
def Concludes (size : Nat) (respond : Rank → Responder σ) (root : Program rankAccess τ) (s₀ : σ)
    (others : Rank → Program rankAccess τ) (s : Rank → σ)
    (post : List Transfer → Option (Rank → τ) → Prop) : Prop :=
  ∃ transfers outcome,
    Lockstep size respond
      (lead (root.pause (respond rootRank) s₀) fun r => (others r).pause (respond r) (s r))
      transfers outcome ∧ post transfers outcome

namespace Concludes

variable {size : Nat} {root root' : Program rankAccess τ} {s₀ s₀' : σ}
  {others others' : Rank → Program rankAccess τ} {s s' : Rank → σ}
  {post : List Transfer → Option (Rank → τ) → Prop}

/-- Only where the ranks pause matters. -/
theorem congr (h : Concludes size respond root' s₀' others' s' post)
    (hroot : root.pause (respond rootRank) s₀ = root'.pause (respond rootRank) s₀')
    (hothers : ∀ r, r ≠ rootRank → r < size →
      (others r).pause (respond r) (s r) = (others' r).pause (respond r) (s' r)) :
    Concludes size respond root s₀ others s post := by
  obtain ⟨transfers, outcome, hlockstep, hpost⟩ := h
  refine ⟨transfers, outcome, hlockstep.congr fun r hr => ?_, hpost⟩
  by_cases hr0 : r = rootRank
  · subst hr0
    rw [lead_root, lead_root, hroot]
  · rw [lead_other _ _ hr0, lead_other _ _ hr0, hothers r hr0 hr]

theorem mono {post' : List Transfer → Option (Rank → τ) → Prop}
    (himp : ∀ transfers outcome, post transfers outcome → post' transfers outcome)
    (h : Concludes size respond root s₀ others s post) :
    Concludes size respond root s₀ others s post' := by
  obtain ⟨transfers, outcome, hlockstep, hpost⟩ := h
  exact ⟨transfers, outcome, hlockstep, himp transfers outcome hpost⟩

theorem done {a : τ} {b : Rank → τ} (hpost : post [] (some (lead a b))) :
    Concludes size respond (.done a) s₀ (fun r => .done (b r)) s post := by
  refine ⟨[], some (lead a b), .done fun r hr => ?_, hpost⟩
  by_cases hr0 : r = rootRank
  · subst hr0
    rw [lead_root, lead_root]
    rfl
  · rw [lead_other _ _ hr0, lead_other _ _ hr0]
    rfl

/-- Programs that go on with their results come to these results. -/
theorem of_bind_done (h : Concludes size respond (root.bind .done) s₀
      (fun r => (others r).bind .done) s post) : Concludes size respond root s₀ others s post := by
  simp only [Program.bind_pure] at h
  exact h

theorem of_panic_root (hsize : rootRank < size) (h : (root.pause (respond rootRank) s₀).1 = .panic)
    (hpost : post [] none) : Concludes size respond root s₀ others s post :=
  ⟨[], none, .panic hsize (by rw [lead_root, h]), hpost⟩

theorem of_panic_other {r : Rank} (hr0 : r ≠ rootRank) (hr : r < size)
    (h : ((others r).pause (respond r) (s r)).1 = .panic) (hpost : post [] none) :
    Concludes size respond root s₀ others s post :=
  ⟨[], none, .panic hr (by rw [lead_other _ _ hr0, h]), hpost⟩

/-- The root goes on by itself. -/
theorem local_root {p : Program (modelAccess Double) α} {f : α → Program rankAccess τ}
    (hsize : rootRank < size)
    (hpanic : ∀ s₁, p.run (respond rootRank) s₀ = .stopped s₁ → post [] none)
    (h : ∀ a s₁, p.run (respond rootRank) s₀ = .finished a s₁ →
      Concludes size respond (f a) s₁ others s post) :
    Concludes size respond (p.onRank.bind f) s₀ others s post := by
  have hpause := p.pause_onRank_bind (respond rootRank) f s₀
  cases hrun : p.run (respond rootRank) s₀ with
  | finished a s₁ =>
    rw [hrun] at hpause
    exact (h a s₁ hrun).congr hpause fun r _ _ => rfl
  | stopped s₁ =>
    rw [hrun] at hpause
    exact of_panic_root hsize (by rw [hpause]) (hpanic s₁ hrun)

/-- The other ranks go on by themselves. -/
theorem local_others [Inhabited α] {p : Rank → Program (modelAccess Double) α}
    {g : Rank → α → Program rankAccess τ}
    (hpanic : ∀ r, r ≠ rootRank → r < size →
      ∀ s₁, (p r).run (respond r) (s r) = .stopped s₁ → post [] none)
    (h : ∀ (a : Rank → α) (s' : Rank → σ), (∀ r, r ≠ rootRank → r < size →
        (p r).run (respond r) (s r) = .finished (a r) (s' r)) →
      Concludes size respond root s₀ (fun r => g r (a r)) s' post) :
    Concludes size respond root s₀ (fun r => (p r).onRank.bind (g r)) s post := by
  -- one of them is ended by its model, or each of them comes to something of its own
  by_cases hstopped : ∃ r, r ≠ rootRank ∧ r < size ∧
      ∃ s₁, (p r).run (respond r) (s r) = .stopped s₁
  · obtain ⟨r, hr0, hr, s₁, hrun⟩ := hstopped
    refine of_panic_other hr0 hr ?_ (hpanic r hr0 hr s₁ hrun)
    rw [Program.pause_onRank_bind, hrun]
  · have hfinished : ∀ r, ∃ a s₁, r ≠ rootRank → r < size →
        (p r).run (respond r) (s r) = .finished a s₁ := by
      intro r
      cases hrun : (p r).run (respond r) (s r) with
      | finished a s₁ => exact ⟨a, s₁, fun _ _ => rfl⟩
      | stopped s₁ =>
        exact ⟨default, s₁, fun hr0 hr => absurd ⟨r, hr0, hr, s₁, hrun⟩ hstopped⟩
    choose a s' hrun using hfinished
    refine (h a s' hrun).congr rfl fun r hr0 hr => ?_
    rw [Program.pause_onRank_bind, hrun r hr0 hr]

/-- The root only reports something. -/
theorem quiet_root {t : Task Unit} {f : Except (Error Double) Unit → Program rankAccess τ}
    (ht : t.IsQuiet) (hsize : rootRank < size)
    (hpanic : ¬ (respond rootRank).TakesNotes → post [] none)
    (h : ∀ s₁, Concludes size respond (f (.ok ())) s₁ others s post) :
    Concludes size respond (t.run.bind f) s₀ others s post := by
  obtain ⟨l, rfl, hl⟩ := ht
  have hlocal := hl (respond rootRank) s₀
  -- the report is all that is asked of the model, and only a model that takes no notes ends it
  refine local_root hsize (fun s₁ hrun => ?_) fun a s₁ hrun => ?_
  · rcases hlocal with ⟨s', h⟩ | ⟨-, hnotes⟩
    · nomatch hrun.symm.trans h
    · exact hpanic hnotes
  · rcases hlocal with ⟨s', hfinished⟩ | ⟨⟨s', hstopped⟩, -⟩
    · injection hrun.symm.trans hfinished with ha
      rw [ha]
      exact h s₁
    · nomatch hrun.symm.trans hstopped

/-- The other ranks only report something. -/
theorem quiet_others {t : Rank → Task Unit}
    {g : Rank → Except (Error Double) Unit → Program rankAccess τ} (ht : ∀ r, (t r).IsQuiet)
    (hpanic : ∀ r, r ≠ rootRank → r < size → ¬ (respond r).TakesNotes → post [] none)
    (h : ∀ s', Concludes size respond root s₀ (fun r => g r (.ok ())) s' post) :
    Concludes size respond root s₀ (fun r => (t r).run.bind (g r)) s post := by
  choose l hl hquiet using ht
  obtain rfl : t = fun r => Task.ofLocal (l r) := funext hl
  have : Inhabited (Except (Error Double) Unit) := ⟨.ok ()⟩
  refine local_others (fun r hr0 hr s₁ hrun => ?_) fun a s' hrun => ?_
  · rcases hquiet r (respond r) (s r) with ⟨s', h⟩ | ⟨-, hnotes⟩
    · nomatch hrun.symm.trans h
    · exact hpanic r hr0 hr hnotes
  · refine (h s').congr rfl fun r hr0 hr => ?_
    rcases hquiet r (respond r) (s r) with ⟨s', h⟩ | ⟨⟨s', h⟩, -⟩
    · injection (hrun r hr0 hr).symm.trans h with ha
      rw [ha]
    · nomatch (hrun r hr0 hr).symm.trans h

/-- The root broadcasts a value. -/
theorem broadcast [Wire α] [Wire.Faithful α] {v : α}
    {f : Except (Error Double) α → Program rankAccess τ}
    {g : Rank → Except (Error Double) α → Program rankAccess τ} (hsize : rootRank < size)
    (hpanic : ¬ Wire.extent v < Wire.wordLimit → post [] none)
    (h : Concludes size respond (f (.ok v)) s₀ (fun r => g r (.ok v)) s fun transfers =>
      post (⟨.broadcast, rootRank, lead (Wire.toBytes v) fun _ => []⟩ :: transfers)) :
    Concludes size respond (((⟨rootRank, size⟩ : Place).broadcast (some v)).run.bind f) s₀
      (fun r => ((⟨r, size⟩ : Place).broadcast none).run.bind (g r)) s post := by
  by_cases hv : Wire.extent v < Wire.wordLimit
  case neg => exact of_panic_root hsize (Place.pause_broadcast_unfit hv _ _ _) (hpanic hv)
  obtain ⟨transfers, outcome, hlockstep, hpost⟩ := h
  have hpause : ∀ r < size, lead
      ((((⟨rootRank, size⟩ : Place).broadcast (some v)).run.bind f).pause (respond rootRank) s₀)
      (fun r => (((⟨r, size⟩ : Place).broadcast none).run.bind (g r)).pause (respond r) (s r)) r =
      (.broadcast (lead (Wire.toBytes v) (fun _ => []) r) fun reply =>
        (Task.received reply : Task α).run.bind (lead f g r), lead s₀ s r) := by
    intro r _
    by_cases hr0 : r = rootRank
    · subst hr0
      simp only [lead_root]
      exact Place.pause_broadcast_root hv _ _ _
    · simp only [lead_other _ _ hr0]
      exact Place.pause_broadcast_other hr0 _ _ _
  refine ⟨_, outcome, .broadcast hpause (hlockstep.congr fun r _ => ?_), hpost⟩
  -- every rank reads the value
  have hreceived : (Task.received (.ok (Wire.toBytes v)) : Task α) = pure v :=
    Task.decode_toBytes hv
  rw [lead_root, hreceived]
  by_cases hr0 : r = rootRank
  · subst hr0
    simp only [lead_root]
    rfl
  · simp only [lead_other _ _ hr0]
    rfl

/-- Every rank gives a value, and the root has them all. -/
theorem gather [Wire α] [Wire.Faithful α] {v₀ : α} {v : Rank → α}
    {f : Except (Error Double) (Option (List (Rank × α))) → Program rankAccess τ}
    {g : Rank → Except (Error Double) (Option (List (Rank × α))) → Program rankAccess τ}
    (hpanic : ∀ r < size, ¬ Wire.extent (lead v₀ v r) < Wire.wordLimit → post [] none)
    (h : Concludes size respond
      (f (.ok (some ((List.range size).map fun r => (r, lead v₀ v r))))) s₀
      (fun r => g r (.ok none)) s fun transfers =>
        post (⟨.gather, rootRank, fun r => Wire.toBytes (lead v₀ v r)⟩ :: transfers)) :
    Concludes size respond ((Place.gather v₀).run.bind f) s₀
      (fun r => (Place.gather (v r)).run.bind (g r)) s post := by
  by_cases hv : ∀ r < size, Wire.extent (lead v₀ v r) < Wire.wordLimit
  case neg =>
    simp only [not_forall] at hv
    -- a value too large for a message ends its rank
    obtain ⟨r, hr, hv⟩ := hv
    have hpost := hpanic r hr hv
    by_cases hr0 : r = rootRank
    · subst hr0
      rw [lead_root] at hv
      exact of_panic_root hr (Place.pause_gather_unfit hv _ _ _) hpost
    · rw [lead_other _ _ hr0] at hv
      exact of_panic_other hr0 hr (Place.pause_gather_unfit hv _ _ _) hpost
  obtain ⟨transfers, outcome, hlockstep, hpost⟩ := h
  have hpause : ∀ r < size, lead
      (((Place.gather v₀).run.bind f).pause (respond rootRank) s₀)
      (fun r => ((Place.gather (v r)).run.bind (g r)).pause (respond r) (s r)) r =
      (.gather (Wire.toBytes (lead v₀ v r)) fun reply =>
        (Task.collected reply : Task (Option (List (Rank × α)))).run.bind (lead f g r),
        lead s₀ s r) := by
    intro r hr
    have hfits := hv r hr
    by_cases hr0 : r = rootRank
    · subst hr0
      simp only [lead_root] at hfits ⊢
      exact Place.pause_gather hfits _ _ _
    · simp only [lead_other _ _ hr0] at hfits ⊢
      exact Place.pause_gather hfits _ _ _
  refine ⟨_, outcome, .gather hpause (hlockstep.congr fun r _ => ?_), hpost⟩
  by_cases hr0 : r = rootRank
  · subst hr0
    -- the root reads all values
    have hcollected : (Task.collected (.ok (some (Transfer.allParts size
        ⟨.gather, rootRank, fun r => Wire.toBytes (lead v₀ v r)⟩))) :
          Task (Option (List (Rank × α)))) =
          pure (some ((List.range size).map fun r => (r, lead v₀ v r))) := by
      show some <$> Task.decodeAll ((List.range size).map fun r =>
        (r, Wire.toBytes (lead v₀ v r))) = _
      rw [Task.decodeAll_map fun r hr => hv r (List.mem_range.mp hr), map_pure]
    rw [if_pos rfl, hcollected]
    simp only [lead_root]
    rfl
  · rw [if_neg hr0]
    simp only [lead_other _ _ hr0]
    rfl

end Concludes

/-! ## Conclusions over messages -/

/-- The group brings a rank its result, in whatever order the messages come: the rank never has
another one, no run goes on forever, and one that cannot go on has brought the result. -/
structure Crew.Brings (rules : Crew.Rules σ (τ × Nat)) (crew : Crew σ (τ × Nat)) (me : Rank)
    (result : τ) : Prop where
  past : ∀ reached, Reaches rules crew reached →
    (reached.hands me).past = [] ∨ ∃ count, (reached.hands me).past = [(result, count)]
  stuck : ∀ reached, Reaches rules crew reached → (∀ next, ¬ Step rules reached next) →
    ∃ count, (reached.hands me).past = [(result, count)]
  ends : ∀ reached, Reaches rules crew reached →
    Acc (fun next crew => Step rules crew next) reached

/-- A group that has its results in lockstep brings them to its ranks over messages. -/
theorem Lockstep.brings {size : Nat} {programs : Rank → Program rankAccess τ} {states : Rank → σ}
    {transfers : List Transfer} {results : Rank → τ} {me : Rank} (hme : me < size)
    (h : Lockstep size respond (fun r => (programs r).pause (respond r) (states r)) transfers
      (some results)) (count : Nat) :
    (Crew.ofPrograms size count states programs).Brings (Crew.calmRules size respond) me
      (results me) where
  past _ hreaches := (h.past_eq hreaches hme).imp_right fun h => ⟨_, h⟩
  stuck _ hreaches hstuck := ⟨_, h.past_of_stuck hreaches hstuck hme⟩
  ends reached _ := (Crew.step_wellFounded _).apply reached

/-- A group that comes to these results brings them to its ranks over messages. -/
theorem Concludes.brings_all {size : Nat} {p : Rank → Program rankAccess τ} {s : Rank → σ}
    {results : Rank → τ}
    (h : Concludes size respond (p rootRank) (s rootRank) p s fun _ outcome =>
      outcome = some results) {me : Rank} (hme : me < size) (count : Nat) :
    (Crew.ofPrograms size count s p).Brings (Crew.calmRules size respond) me (results me) := by
  obtain ⟨transfers, _, hlockstep, rfl⟩ := h
  rw [lead_self fun r => (p r).pause (respond r) (s r)] at hlockstep
  exact hlockstep.brings hme count

/-- A group that concludes brings its root a result over messages. -/
theorem Concludes.brings {size : Nat} {programs : Rank → Program rankAccess τ} {states : Rank → σ}
    {good : τ → Prop} (hsize : rootRank < size)
    (h : Concludes size respond (programs rootRank) (states rootRank) programs states
      fun _ outcome => ∃ results, outcome = some results ∧ good (results rootRank)) :
    ∃ result, good result ∧ ∀ count, (Crew.ofPrograms size count states programs).Brings
      (Crew.calmRules size respond) rootRank result := by
  obtain ⟨transfers, _, hlockstep, results, rfl, hgood⟩ := h
  rw [lead_self fun r => (programs r).pause (respond r) (states r)] at hlockstep
  exact ⟨results rootRank, hgood, hlockstep.brings hsize⟩

end Nlp
