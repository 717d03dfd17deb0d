import Nlp.Proofs.Derivative.Expense
import Nlp.Proofs.Derivative.Round
import Nlp.Proofs.Group.Schedule
import Nlp.Solve.Workbench
import Mathlib.Algebra.BigOperators.Group.Finset.Piecewise

/-!
# Counted calls

Every rank counts the calls of its own model.  The counts of all ranks together, after some
requests of the root for Jacobians, are compared with what the Jacobians say they took.

## Main definitions

* `ModelCalls.total`, `Workbench.spent`: the calls of a rank, and of all ranks.
* `Work.tallied`: a program with its model calls counted at a workbench.
* `Work.jacobians`, `Work.session`: requests of the root, and a session of all ranks for them.

## Main results

* `Session.Spends.concludes`: what a program of the root spends, all ranks have counted.
* `Work.spent_jacobians`: the counts after a session.
-/

namespace Nlp

variable {σ τ α β : Type} {size : Nat} {respond : Rank → Responder σ}

/-- All calls. -/
def ModelCalls.total (n : ModelCalls) : Nat :=
  n.real + n.complex + n.gradient

theorem ModelCalls.total_add (n : ModelCalls) (c : ModelCall Double) :
    (n.add (.model c)).total = n.total + c.cost := by
  cases c <;> simp only [total, add, ModelCall.cost] <;> omega

namespace Workbench

/-- A workbench with one more call counted. -/
def called (w : Workbench) (c : RankCall) : Workbench :=
  { w with calls := w.calls.add c }

/-- A workbench without its counts. -/
def uncounted (w : Workbench) : Workbench :=
  { w with calls := .none }

/-- The model calls at all workbenches of a group. -/
def spent (size : Nat) (w : Rank → Workbench) : Nat :=
  ∑ r ∈ Finset.range size, (w r).calls.total

theorem spent_add {w w' : Rank → Workbench} {cost : Rank → Nat}
    (h : ∀ r < size, (w' r).calls.total = (w r).calls.total + cost r) :
    spent size w' = spent size w + ∑ r ∈ Finset.range size, cost r := by
  rw [spent, spent, ← Finset.sum_add_distrib]
  exact Finset.sum_congr rfl fun r hr => h r (Finset.mem_range.mp hr)

theorem spent_root {w₀ w₀' : Workbench} {w : Rank → Workbench} {n : Nat} (hsize : rootRank < size)
    (h : w₀'.calls.total = w₀.calls.total + n) :
    spent size (lead w₀' w) = spent size (lead w₀ w) + n := by
  have hcost : ∀ r < size, (lead w₀' w r).calls.total =
      (lead w₀ w r).calls.total + if r = rootRank then n else 0 := by
    intro r _
    by_cases hr : r = rootRank
    · subst hr
      rw [lead_root, lead_root, if_pos rfl, h]
    · rw [lead_other _ _ hr, lead_other _ _ hr, if_neg hr, Nat.add_zero]
  rw [spent_add hcost, Finset.sum_ite_eq', if_pos (Finset.mem_range.mpr hsize)]

end Workbench

/-! ## Counting -/

/-- A program over the model with its calls counted. -/
def Program.tallied : Program (modelAccess Double) α → Workbench →
    Program (modelAccess Double) (α × Workbench)
  | .done a, w => .done (a, w)
  | .call c next, w => .call c fun reply => (next reply).tallied (w.called (.model c))

/-- What is known of the results of a program is known of its runs. -/
theorem Program.Spends.run_tallied {respond : Responder σ} {good : Nat → α → Prop}
    {p : Program (modelAccess Double) α} {w w' : Workbench} {s s' : σ} {a : α}
    (h : p.Spends good w.calls.total)
    (hrun : (p.tallied w).run respond s = .finished (a, w') s') :
    good w'.calls.total a ∧ w'.uncounted = w.uncounted := by
  -- on the calls: the total of the workbench is the number the judgment carries along
  induction p generalizing w s with
  | done b =>
    obtain ⟨⟨rfl, rfl⟩, rfl⟩ : (b = a ∧ w = w') ∧ s = s' := by
      simpa [Program.tallied, Program.run] using hrun
    exact ⟨h, rfl⟩
  | call c next ih =>
    rw [Program.tallied, Program.run] at hrun
    rcases hreply : respond c s with ⟨_ | reply, s₁⟩
    · rw [hreply] at hrun
      cases hrun
    · rw [hreply] at hrun
      have hspends : (next reply).Spends good (w.called (.model c)).calls.total := by
        rw [Workbench.called, ModelCalls.total_add]
        exact h reply
      obtain ⟨hgood, hw⟩ := ih reply hspends hrun
      exact ⟨hgood, hw⟩

namespace Work

/-- A program of a rank with its model calls counted. -/
def tallied (p : Program rankAccess α) (w : Workbench) : Program rankAccess (α × Workbench) :=
  (p.interpret call).run w

@[simp] theorem tallied_done (a : α) (w : Workbench) :
    tallied (.done a) w = .done (a, w) := rfl

@[simp] theorem tallied_call (c : RankCall) (next : rankAccess.Reply c → Program rankAccess α)
    (w : Workbench) :
    tallied (.call c next) w = .call c fun reply => tallied (next reply) (w.called c) := rfl

theorem tallied_bind (p : Program rankAccess α) (f : α → Program rankAccess β) (w : Workbench) :
    tallied (p.bind f) w = (tallied p w).bind fun a => tallied (f a.1) a.2 := by
  induction p generalizing w with
  | done a => rfl
  | call c next ih => simp only [Program.bind_call, tallied_call, ih]

theorem tallied_onRank (p : Program (modelAccess Double) α) (w : Workbench) :
    tallied p.onRank w = (p.tallied w).onRank := by
  induction p generalizing w with
  | done a => rfl
  | call c next ih =>
    refine congrArg (Program.call (I := rankAccess) (.model c)) (funext fun reply => ?_)
    exact ih reply (w.called (.model c))

/-! ### Programs that cost nothing -/

/-- The program asks for nothing that is counted. -/
def IsFree (p : Program rankAccess α) : Prop :=
  ∀ w, tallied p w = p.bind fun a => .done (a, w)

theorem isFree_done (a : α) : IsFree (.done a) :=
  fun _ => rfl

theorem isFree_perform {c : RankCall} (h : ∀ n : ModelCalls, n.add c = n) :
    IsFree (Program.perform (I := rankAccess) c) := by
  intro w
  have hw : w.called c = w := by rw [Workbench.called, h]
  show Program.call (I := rankAccess) c (fun reply => .done (reply, w.called c)) = _
  rw [hw]
  rfl

theorem IsFree.bind {p : Program rankAccess α} {f : α → Program rankAccess β} (hp : IsFree p)
    (hf : ∀ a, IsFree (f a)) : IsFree (p.bind f) := by
  intro w
  rw [tallied_bind, hp, Program.bind_assoc, Program.bind_assoc]
  exact congrArg (Program.bind p) (funext fun a => hf a w)

theorem IsFree.andThen {t : Task α} {k : α → Task β} (ht : IsFree t.run)
    (hk : ∀ a, IsFree (k a).run) : IsFree (t >>= k).run := by
  rw [ExceptT.run_bind]
  refine ht.bind fun r => ?_
  cases r with
  | ok a => exact hk a
  | error e => exact isFree_done _

theorem isFree_ofReply {p : Program rankAccess (Except CommFault α)} (hp : IsFree p) :
    IsFree (Task.ofReply p).run := by
  refine hp.bind fun r => ?_
  cases r with
  | ok a => exact isFree_done _
  | error fault => exact isFree_done _

theorem isFree_note (event : Event Double) : IsFree (Task.note event).run :=
  (isFree_perform fun _ => rfl).bind fun _ => isFree_done _

section

variable [Wire α]

theorem isFree_encode (v : α) : IsFree (Task.encode v).run := by
  rw [Task.encode]
  split
  · exact isFree_done _
  · exact fun w => congrArg (Program.call (I := rankAccess) (.model (.outOfRange _ _)))
      (funext fun e => Empty.elim e)

theorem isFree_decode (bytes : Bytes) : IsFree (Task.decode bytes : Task α).run := by
  rw [Task.decode]
  split
  · exact isFree_done _
  · exact isFree_done _

theorem isFree_decodeAll (parts : Parts) :
    IsFree (Task.decodeAll parts : Task (List (Rank × α))).run := by
  induction parts with
  | nil => exact isFree_done _
  | cons part parts ih =>
    exact (isFree_decode part.2).andThen fun _ => ih.andThen fun _ => isFree_done _

theorem isFree_broadcast (here : Place) (v : Option α) : IsFree (here.broadcast v).run := by
  have hbytes : ∀ payload, IsFree (Task.broadcastBytes payload).run := fun payload =>
    isFree_ofReply (isFree_perform fun _ => rfl)
  have hdecode : ∀ bytes, IsFree (Task.decode bytes : Task α).run := isFree_decode
  unfold Place.broadcast
  cases here.isRoot with
  | false => exact (hbytes []).andThen hdecode
  | true =>
    cases v with
    | some v =>
      exact (isFree_encode v).andThen fun payload => (hbytes payload).andThen hdecode
    | none => exact isFree_done _

theorem isFree_gather (v : α) : IsFree (Place.gather v).run := by
  refine (isFree_encode v).andThen fun payload => ?_
  refine (isFree_ofReply (isFree_perform fun _ => rfl)).andThen fun parts => ?_
  cases parts with
  | some parts => exact (isFree_decodeAll parts).andThen fun _ => isFree_done _
  | none => exact isFree_done _

end

theorem tallied_ofExcept (r : Except (Error Double) α) (w : Workbench) :
    tallied (Task.ofExcept r).run w = .done (r, w) := by
  cases r with
  | ok a => rfl
  | error e => rfl

/-- What comes after a task that is not counted: a counted one if it has not failed, and then the
rest. -/
def andThen (k : α → Task β) (w : Workbench)
    (f : Except (Error Double) β × Workbench → Program rankAccess τ) :
    Except (Error Double) α → Program rankAccess τ
  | .ok a => (tallied (k a).run w).bind f
  | .error e => f (.error e, w)

@[simp] theorem andThen_ok (k : α → Task β) (w : Workbench)
    (f : Except (Error Double) β × Workbench → Program rankAccess τ) (a : α) :
    andThen k w f (.ok a) = (tallied (k a).run w).bind f := rfl

theorem tallied_bind_bind {t : Task α} (ht : IsFree t.run) (k : α → Task β) (w : Workbench)
    (f : Except (Error Double) β × Workbench → Program rankAccess τ) :
    (tallied (t >>= k).run w).bind f = t.run.bind (andThen k w f) := by
  rw [ExceptT.run_bind, Program.bind_eq, tallied_bind, ht, Program.bind_assoc, Program.bind_assoc]
  refine congrArg t.run.bind (funext fun r => ?_)
  cases r with
  | ok a => rfl
  | error e => rfl

theorem tallied_lift_bind_bind (p : Program rankAccess α) (k : α → Task β) (w : Workbench)
    (f : Except (Error Double) β × Workbench → Program rankAccess τ) :
    (tallied ((ExceptT.lift p : Task α) >>= k).run w).bind f =
      (tallied p w).bind fun a => (tallied (k a.1).run a.2).bind f := by
  rw [ExceptT.run_bind, ExceptT.run_lift, map_eq_pure_bind, Program.bind_eq, Program.bind_eq,
    tallied_bind, tallied_bind, Program.bind_assoc, Program.bind_assoc]
  rfl

end Work

/-! ## Sessions with counts -/

namespace Session

open Workbench Work

variable {problems : Rank → Problem Double} {q : Request} {rounds served n : Nat}
  {w₀ : Workbench} {w : Rank → Workbench} {s₀ : σ} {s : Rank → σ}
  {post : Option (Rank → τ) → Prop}

theorem tallied_ownBlock_bind (problem : Problem Double) (q : Request) (here : Place)
    (w : Workbench) (f : ColumnReport × Workbench → Program rankAccess τ) :
    (tallied (ownBlock problem q.kernel q.x q.partition here) w).bind f =
      ((q.block problem here).run.tallied w).onRank.bind fun a => f (report a.1, a.2) := by
  rw [ownBlock_eq, tallied_bind, tallied_onRank, Program.bind_assoc]
  rfl

theorem isFree_complain (r : Rank) (report : ColumnReport) : IsFree (complain r report).run := by
  cases report with
  | ok columns => exact isFree_done _
  | error reason => exact isFree_note _

/-- The columns of a round are those of all blocks. -/
theorem length_of_verdict {results : Rank → Except (Error Double) (List (Column Double))}
    {columns : List (Column Double)}
    (h : verdict (byRank size fun r => report (results r)) = .ok columns) :
    ∃ blocks : Rank → List (Column Double), (∀ r < size, results r = .ok (blocks r)) ∧
      columns.length = ∑ r ∈ Finset.range size, (blocks r).length := by
  rcases Request.ok_or_error size results with ⟨blocks, hblocks⟩ | ⟨r, hr, e, hresult⟩
  · refine ⟨blocks, hblocks, ?_⟩
    rw [verdict_eq_ok hblocks] at h
    obtain rfl := Except.ok.inj h
    rw [List.length_flatMap]
    rfl
  · rw [verdict_eq_error hr hresult] at h
    nomatch h

/-- A rank that serves its session, with its calls counted. -/
def serving (problems : Rank → Problem Double) (size rounds served : Nat) (w : Rank → Workbench)
    (g : Rank → Except (Error Double) Nat × Workbench → Program rankAccess τ) (r : Rank) :
    Program rankAccess τ :=
  (tallied (serveFrom (problems r) ⟨r, size⟩ rounds served).run (w r)).bind (g r)

section

variable {g : Rank → Except (Error Double) Nat × Workbench → Program rankAccess τ}

/-- A rank that can count no further request is ended, but one on its own counts none. -/
theorem serving_concludes_of_succ {root : Program rankAccess τ} (hpanic : post none)
    (h : ∀ rounds served, Concludes size respond root s₀
      (serving problems size (rounds + 1) served w g) s fun _ => post) :
    Concludes size respond root s₀ (serving problems size rounds served w g) s fun _ => post := by
  cases rounds with
  | succ rounds => exact h rounds served
  | zero =>
    by_cases hother : ∃ r, r ≠ rootRank ∧ r < size
    · obtain ⟨r, hr0, hr⟩ := hother
      exact .of_panic_other hr0 hr (Program.pause_outOfRange (respond r) _ _ _ (s r)) hpanic
    · exact (h 0 served).congr rfl fun r hr0 hr => absurd ⟨r, hr0, hr⟩ hother

/-- One round: the ranks have counted as many calls as there are columns. -/
theorem tallied_request_concludes_succ
    {f : Except (Error Double) (List (Column Double)) × Workbench → Program rankAccess τ}
    (hsize : rootRank < size) (hpanic : post none)
    (h : ∀ result w₀' w' s₁ s', w₀'.uncounted = w₀.uncounted →
      (∀ columns, result = .ok columns →
        spent size (lead w₀' w') = spent size (lead w₀ w) + columns.length) →
      Concludes size respond (f (result, w₀')) s₁
        (serving problems size rounds (served + 1) w' g) s' fun _ => post) :
    Concludes size respond
      ((tallied (request (problems rootRank) q.kernel q.x q.partition ⟨rootRank, size⟩).run
        w₀).bind f) s₀ (serving problems size (rounds + 1) served w g) s fun _ => post := by
  have hbroadcast : ∀ r, serving problems size (rounds + 1) served w g r =
      ((⟨r, size⟩ : Place).broadcast none).run.bind
        (andThen (obey (problems r) ⟨r, size⟩ rounds served) (w r) (g r)) := by
    intro r
    rw [serving, serveFrom_succ, tallied_bind_bind (isFree_broadcast _ _)]
  rw [request_root, tallied_bind_bind (isFree_broadcast _ _), funext hbroadcast]
  refine .broadcast hsize (fun _ => hpanic) ?_
  -- every rank evaluates its share
  simp only [andThen_ok, obey_command, tallied_lift_bind_bind, tallied_ownBlock_bind]
  have : Inhabited (Except (Error Double) (List (Column Double)) × Workbench) := ⟨.ok [], w₀⟩
  refine .local_root hsize (fun _ _ => hpanic) fun own s₁ hown => ?_
  refine .local_others (fun _ _ _ _ _ => hpanic) fun others s' hothers => ?_
  have hcounted : ∀ r < size,
      (∀ columns, (lead own others r).1 = .ok columns →
        (lead own others r).2.calls.total = (lead w₀ w r).calls.total + columns.length) ∧
      (lead own others r).2.uncounted = (lead w₀ w r).uncounted := by
    intro r hr
    by_cases hr0 : r = rootRank
    · subst hr0
      simp only [lead_root]
      exact (q.kernel.spends_columns (problems rootRank) q.x _).run_tallied hown
    · simp only [lead_other _ _ hr0]
      exact (q.kernel.spends_columns (problems r) q.x _).run_tallied (hothers r hr0 hr)
  -- the others report a failure of their own before they hand it to the root
  simp only [answer, tallied_bind_bind (isFree_complain _ _)]
  refine .quiet_others (fun r => isQuiet_complain r _) (fun _ _ _ _ => hpanic) fun s'' => ?_
  simp only [andThen_ok, tallied_bind_bind (isFree_gather _)]
  have hreports : ∀ r, report (lead own others r).1 =
      lead (report own.1) (fun r => report (others r).1) r :=
    apply_lead (fun a => report a.1) own others
  refine .gather (fun _ _ _ => hpanic) ?_
  have hrest := h (verdict (byRank size fun r => report (lead own others r).1)) own.2
    (fun r => (others r).2) s₁ s'' ?_ ?_
  · simp only [hreports, byRank] at hrest
    simp only [andThen_ok, tallied_ofExcept]
    exact hrest
  · simpa using (hcounted rootRank hsize).2
  · intro columns hcolumns
    obtain ⟨blocks, hblocks, hlength⟩ := length_of_verdict hcolumns
    rw [hlength, ← spent_add fun r hr => (hcounted r hr).1 _ (hblocks r hr)]
    exact congrArg (spent size) (funext fun r => (apply_lead Prod.snd own others r).symm)

/-- The end of a session costs nothing. -/
theorem tallied_release_concludes {error : Option (Error Double)}
    {f : Except (Error Double) Unit × Workbench → Program rankAccess τ} (hsize : rootRank < size)
    (hpanic : post none)
    (h : ∀ s' served', Concludes size respond (f (.ok (), w₀)) s₀
      (fun r => g r (released served' error, w r)) s' fun _ => post) :
    Concludes size respond ((tallied (release ⟨rootRank, size⟩ error).run w₀).bind f) s₀
      (serving problems size rounds served w g) s fun _ => post := by
  refine serving_concludes_of_succ hpanic fun rounds served => ?_
  have hbroadcast : ∀ r, serving problems size (rounds + 1) served w g r =
      ((⟨r, size⟩ : Place).broadcast none).run.bind
        (andThen (obey (problems r) ⟨r, size⟩ rounds served) (w r) (g r)) := by
    intro r
    rw [serving, serveFrom_succ, tallied_bind_bind (isFree_broadcast _ _)]
  rw [release_root, tallied_bind_bind (isFree_broadcast _ _), funext hbroadcast]
  refine .broadcast hsize (fun _ => hpanic) ?_
  simp only [andThen_ok]
  cases error with
  | none =>
    simp only [releaseCommand, obey, tallied_bind_bind (isFree_note _)]
    exact .quiet_others (fun r => Task.isQuiet_note _) (fun _ _ _ _ => hpanic) fun s' => h s' served
  | some e =>
    rw [releaseCommand_some]
    exact h s served

/-- Whatever the root asks for, all ranks together have counted what it spends. -/
theorem Spends.concludes {good : Nat → α → Prop} {p : Program rankAccess α}
    {k : α × Workbench → Program rankAccess τ} (hsize : rootRank < size)
    (hp : Spends (problems rootRank) ⟨rootRank, size⟩ good n p) (hpanic : post none)
    (hn : spent size (lead w₀ w) = n)
    (h : ∀ a w₀' w' s₁ s' rounds' served', good (spent size (lead w₀' w')) a →
      w₀'.uncounted = w₀.uncounted →
      Concludes size respond (k (a, w₀')) s₁ (serving problems size rounds' served' w' g) s'
        fun _ => post) :
    Concludes size respond ((tallied p w₀).bind k) s₀ (serving problems size rounds served w g) s
      fun _ => post := by
  -- on the requests: what a round costs is the columns of all ranks, if it has succeeded
  induction hp generalizing w₀ w s₀ s rounds served with
  | done ha => exact h _ w₀ w s₀ s rounds served (hn ▸ ha) rfl
  | @model n c next _ ih =>
    have hcall : (tallied (.call (I := rankAccess) (.model c) next) w₀).bind k =
        (Program.perform (I := modelAccess Double) c).onRank.bind fun reply =>
          (tallied (next reply) (w₀.called (.model c))).bind k := rfl
    rw [hcall]
    refine .local_root hsize (fun _ _ => hpanic) fun reply s₁ _ => ih reply ?_ h
    rw [spent_root hsize (w₀.calls.total_add c), hn]
  | request _ _ hok herror =>
    rw [tallied_bind, Program.bind_assoc]
    refine serving_concludes_of_succ hpanic fun rounds served => ?_
    refine tallied_request_concludes_succ hsize hpanic fun result w₁ w' s₁ s' hw₁ hcolumns => ?_
    have hrest : ∀ a w₀' w'' s₂ s'' rounds' served', good (spent size (lead w₀' w'')) a →
        w₀'.uncounted = w₁.uncounted →
        Concludes size respond (k (a, w₀')) s₂ (serving problems size rounds' served' w'' g) s''
          fun _ => post :=
      fun a w₀' w'' s₂ s'' rounds' served' ha hw => h a w₀' w'' s₂ s'' rounds' served' ha
        (hw.trans hw₁)
    cases result with
    | ok columns => exact hok columns (by rw [hcolumns columns rfl, hn]) hrest
    | error e => exact herror e _ rfl hrest

end

end Session

/-! ## Requests for Jacobians -/

namespace Work

open Workbench

/-- The Jacobians at some points, with or without values known there, one after another. -/
def jacobians (here : Place) :
    List (List Double × Option (Evaluation Double)) → Work (List (Jacobian Double))
  | [] => return []
  | (x, known) :: requests => do
    let J ← jacobianAt x known here
    let Js ← jacobians here requests
    return J :: Js

/-- The error of a result, if it is one. -/
def errorOf : Except (Error Double) α → Option (Error Double)
  | .ok _ => none
  | .error e => some e

/-- Work of the root in a session: the other ranks serve the root until it is done. -/
def session (work : Work α) (here : Place) : Work (Option α) :=
  if here.isRoot then do
    let result ← ExceptT.lift work.run
    task (Session.release here (errorOf result))
    ofExcept (some <$> result)
  else do
    let w ← getThe Workbench
    let _ ← task (Session.serve w.problem here)
    return none

variable {w₀ : Workbench} {w : Rank → Workbench}

theorem run_bind (t : Work α) (f : α → Work β) (w : Workbench) :
    (t >>= f).run.run w = (t.run.run w).bind fun
      | (.ok a, w) => (f a).run.run w
      | (.error e, w) => .done (.error e, w) := by
  show (t.run.run w).bind _ = _
  refine congrArg (Program.bind _) (funext fun a => ?_)
  rcases a with ⟨_ | a, w⟩
  · rfl
  · rfl

theorem run_ofExcept (r : Except (Error Double) α) (w : Workbench) :
    (ofExcept r : Work α).run.run w = .done (r, w) := by
  cases r with
  | ok a => rfl
  | error e => rfl

theorem run_jacobianAt (x : List Double) (known : Option (Evaluation Double)) (here : Place)
    (w : Workbench) :
    (jacobianAt x known here).run.run w =
      (tallied ((w.engine.jacobianAt w.problem x known here).run.run w.memory) w).bind fun a =>
        .done (a.1.1, { a.2 with memory := a.1.2 }) := by
  show ((tallied _ w).bind fun a => .done (Except.ok a.1, a.2)).bind _ = _
  rw [Program.bind_assoc]
  refine congrArg (Program.bind _) (funext fun a => ?_)
  exact run_ofExcept a.1.1 { a.2 with memory := a.1.2 }

theorem run_task (t : Task α) (w : Workbench) :
    (task t).run.run w = tallied t.run w := by
  show ((tallied t.run w).bind fun a => .done (Except.ok a.1, a.2)).bind _ = _
  rw [Program.bind_assoc, ← Program.bind_pure (tallied t.run w), Program.bind_assoc]
  exact congrArg (Program.bind _) (funext fun a => run_ofExcept a.1 a.2)

theorem run_lift (work : Work α) (w : Workbench) :
    (ExceptT.lift work.run : Work (Except (Error Double) α)).run.run w =
      (work.run.run w).bind fun a => .done (.ok a.1, a.2) := rfl

theorem run_get_bind (f : Workbench → Work α) (w : Workbench) :
    ((getThe Workbench : Work Workbench) >>= f).run.run w = (f w).run.run w := rfl

theorem session_root (work : Work α) (w : Workbench) :
    (session work ⟨rootRank, size⟩).run.run w = (work.run.run w).bind fun a =>
      (tallied (Session.release ⟨rootRank, size⟩ (errorOf a.1)).run a.2).bind fun
        | (.ok (), w) => .done (some <$> a.1, w)
        | (.error e, w) => .done (.error e, w) := by
  have hroot : (⟨rootRank, size⟩ : Place).isRoot = true := rfl
  rw [session, hroot, if_pos rfl, run_bind, run_lift, Program.bind_assoc]
  refine congrArg (Program.bind _) (funext fun a => ?_)
  rw [Program.bind_done]
  dsimp only
  rw [run_bind, run_task]
  refine congrArg (Program.bind _) (funext fun b => ?_)
  rcases b with ⟨_ | _, w⟩
  · rfl
  · exact run_ofExcept (some <$> a.1) w

theorem session_other (work : Work α) {r : Rank} (hr : r ≠ rootRank) (w : Workbench) :
    (session work ⟨r, size⟩).run.run w =
      (tallied (Session.serve w.problem ⟨r, size⟩).run w).bind fun
        | (.ok _, w) => .done (.ok none, w)
        | (.error e, w) => .done (.error e, w) := by
  have hother : (⟨r, size⟩ : Place).isRoot = false := decide_eq_false hr
  rw [session, hother, if_neg Bool.false_ne_true, run_get_bind, run_bind, run_task]
  refine congrArg (Program.bind _) (funext fun b => ?_)
  rcases b with ⟨_ | _, w⟩
  · rfl
  · rfl

/-- The calls with which some requests find out about the model: those of the first one. -/
def probes (w : Workbench) : List (List Double × Option (Evaluation Double)) → Nat
  | [] => 0
  | _ :: _ => w.engine.probes w.memory

/-- The root has its Jacobians, and the others have counted their share of the calls. -/
theorem jacobians_concludes {problems : Rank → Problem Double}
    {requests : List (List Double × Option (Evaluation Double))} {rounds served : Nat}
    {s₀ : σ} {s : Rank → σ} {post : Option (Rank → τ) → Prop}
    {k : Except (Error Double) (List (Jacobian Double)) × Workbench → Program rankAccess τ}
    {g : Rank → Except (Error Double) Nat × Workbench → Program rankAccess τ}
    (hsize : rootRank < size) (hproblem : problems rootRank = w₀.problem) (hpanic : post none)
    (h : ∀ result w₀' w' s₁ s' rounds' served', (∀ Js, result = .ok Js →
        Js.length = requests.length ∧
        spent size (lead w₀' w') = spent size (lead w₀ w) +
          (Js.map Jacobian.evaluations).sum + probes w₀ requests) →
      Concludes size respond (k (result, w₀')) s₁
        (Session.serving problems size rounds' served' w' g) s' fun _ => post) :
    Concludes size respond
      (((jacobians ⟨rootRank, size⟩ requests).run.run w₀).bind k) s₀
      (Session.serving problems size rounds served w g) s fun _ => post := by
  induction requests generalizing w₀ w s₀ s rounds served k with
  | nil =>
    refine h (.ok []) w₀ w s₀ s rounds served ?_
    rintro _ ⟨⟩
    exact ⟨rfl, rfl⟩
  | cons request requests ih =>
    obtain ⟨x, known⟩ := request
    rw [jacobians, run_bind, run_jacobianAt, Program.bind_assoc, Program.bind_assoc, ← hproblem]
    refine (w₀.engine.spends_jacobianAt (problems rootRank) x known ⟨rootRank, size⟩ _
      w₀.memory).concludes hsize hpanic rfl ?_
    rintro ⟨_ | J, memory⟩ w₁ w' s₁ s' rounds' served' hspent hw₁
    · exact h (.error _) _ w' s₁ s' rounds' served' nofun
    obtain ⟨hcalls, hmemory⟩ := hspent J rfl
    simp only [Program.bind_done]
    rw [run_bind, Program.bind_assoc]
    have hsame : w₁.problem = w₀.problem := (congrArg Workbench.problem hw₁ :)
    have hengine : w₁.engine = w₀.engine := (congrArg Workbench.engine hw₁ :)
    refine ih (hproblem.trans hsame.symm) fun result w₂ w'' s₂ s'' rounds'' served'' hrest => ?_
    rcases result with e | Js
    · exact h (.error e) w₂ w'' s₂ s'' rounds'' served'' nofun
    obtain ⟨hlength, hrest⟩ := hrest Js rfl
    -- what the engine has found out it remembers, so the later requests find out nothing
    have hknown : probes { w₁ with memory } requests = 0 := by
      cases requests with
      | nil => rfl
      | cons _ _ => exact hengine ▸ hmemory
    have hkept : spent size (lead { w₁ with memory } w') = spent size (lead w₁ w') :=
      spent_root (n := 0) hsize rfl
    refine h (.ok (J :: Js)) w₂ w'' s₂ s'' rounds'' served'' ?_
    rintro _ ⟨⟩
    refine ⟨congrArg (· + 1) hlength, ?_⟩
    rw [hrest, hkept, hcalls, hknown, List.map_cons, List.sum_cons, probes]
    omega

/-- What a rank makes of the end of its part in a session. -/
def leave : Except (Error Double) Nat × Workbench →
    Program rankAccess (Except (Error Double) (Option α) × Workbench)
  | (.ok _, w) => .done (.ok none, w)
  | (.error e, w) => .done (.error e, w)

/-- The part of a rank in a session in which the root asks for Jacobians. -/
def asking (requests : List (List Double × Option (Evaluation Double))) (here : Place)
    (w : Workbench) :
    Program rankAccess (Except (Error Double) (Option (List (Jacobian Double))) × Workbench) :=
  (session (jacobians here requests) here).run.run w

/-- If the root has a Jacobian for every request, all ranks have counted what these say they took,
and what it took to find out about the model. -/
def Accounted (size : Nat) (requests : List (List Double × Option (Evaluation Double)))
    (benches : Rank → Workbench)
    (results : Rank → Except (Error Double) (Option (List (Jacobian Double))) × Workbench) : Prop :=
  ∀ Js, (results rootRank).1 = .ok (some Js) →
    Js.length = requests.length ∧
    spent size (fun r => (results r).2) = spent size benches +
      (Js.map Jacobian.evaluations).sum + probes (benches rootRank) requests

theorem asking_concludes {requests : List (List Double × Option (Evaluation Double))}
    {benches : Rank → Workbench} {states : Rank → σ} (hsize : rootRank < size) :
    Concludes size respond (asking requests ⟨rootRank, size⟩ (benches rootRank)) (states rootRank)
      (fun r => asking requests ⟨r, size⟩ (benches r)) states
      fun _ outcome => ∀ results, outcome = some results →
        Accounted size requests benches results := by
  have hothers : ∀ r, r ≠ rootRank → asking requests ⟨r, size⟩ (benches r) =
      Session.serving (fun r => (benches r).problem) size Session.countLimit 0 benches
        (fun _ => leave) r := by
    intro r hr
    rw [asking, session_other _ hr]
    refine congrArg (Program.bind _) (funext fun b => ?_)
    rcases b with ⟨_ | _, w⟩
    · rfl
    · rfl
  refine Concludes.congr ?_ (congrArg (fun p => Program.pause _ p _) (session_root _ _))
    fun r hr _ => by rw [hothers r hr]
  refine jacobians_concludes hsize rfl nofun fun result w₀ w s₁ s' rounds served hresult => ?_
  refine Session.tallied_release_concludes hsize nofun fun s'' served' => ?_
  have hleave : ∀ r, ∃ b : Except (Error Double) (Option (List (Jacobian Double))),
      leave (Session.released served' (errorOf result), w r) = .done (b, w r) := by
    intro r
    cases result with
    | ok Js => exact ⟨_, rfl⟩
    | error e => exact ⟨_, rfl⟩
  -- whatever the session has come to, the other ranks leave with their workbenches unchanged
  choose b hb using hleave
  simp only [hb]
  refine .done ?_
  rintro _ ⟨⟩ Js hJs
  obtain rfl : result = .ok Js := by
    cases result with
    | ok Js' => exact congrArg _ (Option.some.inj (Except.ok.inj hJs))
    | error e => nomatch hJs
  obtain ⟨hlength, hspent⟩ := hresult Js rfl
  refine ⟨hlength, ?_⟩
  rw [lead_self] at hspent
  rw [← hspent]
  exact congrArg (spent size) (funext fun r => apply_lead Prod.snd _ (fun r => (b r, w r)) r)

/-- Any number of requests for Jacobians, in any mode, and the calls they take.  Where no rank is
ended by its model, every rank comes to one result, in whatever order the messages come; and if
every request has been successful, the calls that all models have been asked for are those of all
Jacobians, and one more if the first request has had to find out about the model. -/
theorem spent_jacobians {requests : List (List Double × Option (Evaluation Double))}
    {benches : Rank → Workbench} {states : Rank → σ} (hsize : rootRank < size)
    (hcalm : ∀ reached, Crew.Reaches (Crew.calmRules size respond)
      (Crew.ofPrograms size 0 states fun r => asking requests ⟨r, size⟩ (benches r)) reached →
      ∀ r < size, ∀ untold, (reached.hands r).stage ≠ .unwinding untold) :
    ∃ results last, Accounted size requests benches results ∧
      ∀ reached, Crew.Reaches (Crew.calmRules size respond)
        (Crew.ofPrograms size 0 states fun r => asking requests ⟨r, size⟩ (benches r)) reached →
        (∀ r < size, (reached.hands r).past = [] ∨
          (reached.hands r).past = [(results r, last)]) ∧
        ((∀ next, ¬ Crew.Step (Crew.calmRules size respond) reached next) →
          ∀ r < size, (reached.hands r).past = [(results r, last)]) := by
  have hconcludes : Concludes size respond (asking requests ⟨rootRank, size⟩ (benches rootRank))
      (states rootRank) (fun r => asking requests ⟨r, size⟩ (benches r)) states
      fun _ outcome => ∀ results, outcome = some results →
        Accounted size requests benches results := asking_concludes hsize
  obtain ⟨transfers, outcome, hlockstep, haccounted⟩ := hconcludes
  rw [lead_self fun r => (asking requests ⟨r, size⟩ (benches r)).pause (respond r) (states r)]
    at hlockstep
  obtain ⟨results, rfl⟩ := hlockstep.exists_results hsize hcalm
  refine ⟨results, 0 + transfers.length, haccounted results rfl, fun reached hreaches => ?_⟩
  exact ⟨fun r hr => hlockstep.past_eq hreaches hr,
    fun hstuck r hr => hlockstep.past_of_stuck hreaches hstuck hr⟩

/-- A workbench at which nobody knows yet whether the model takes complex arguments. -/
def fresh (mode : Mode) : Workbench where
  problem := Session.slope
  history := ⟨[]⟩
  engine := .new (.complexStep 1) mode
  memory := none
  calls := .none

/-- A Jacobian of two columns takes three calls. -/
theorem probe_not_counted :
    ∃ J w, Session.level.Gives ((jacobianAt [0, 0] none .single).run.run (fresh .sequential)).alone
      (.ok J, w) ∧ J.evaluations = 2 ∧ w.calls = ⟨0, 3, 0⟩ :=
  ⟨_, _, rfl, rfl, rfl⟩

/-- The root has two Jacobians, of two columns each. -/
def hasTwo : Pause (Except (Error Double) (Option (List (Jacobian Double))) × Workbench) → Bool
  | .done (.ok (some Js), _) => Js.map Jacobian.evaluations == [2, 2]
  | _ => false

theorem spent_two_jacobians :
    ∃ Js results, (results rootRank).1 = .ok (some Js) ∧ Js.map Jacobian.evaluations = [2, 2] ∧
      Accounted 2 [([0, 0], none), ([1, 0], none)] (fun _ => fresh .parallel) results ∧
      spent 2 (fun r => (results r).2) = 5 := by
  have hend : Lockstep.comesToEnd 2 (fun _ => Session.level.responder) 5 (fun r =>
      (asking [([0, 0], none), ([1, 0], none)] ⟨r, 2⟩ (fresh .parallel)).pause
        Session.level.responder ()) = true := by
    decide +kernel
  have htwo : hasTwo (Lockstep.ending 2 (fun _ => Session.level.responder) 5 (fun r =>
      (asking [([0, 0], none), ([1, 0], none)] ⟨r, 2⟩ (fresh .parallel)).pause
        Session.level.responder ()) rootRank).1 = true := by
    decide +kernel
  have hsize : rootRank < 2 := Nat.zero_lt_two
  have : Nonempty (Except (Error Double) (Option (List (Jacobian Double))) × Workbench) :=
    ⟨.ok none, fresh .parallel⟩
  obtain ⟨transfers, results, hresults, hlockstep⟩ := Lockstep.of_comesToEnd hend
  obtain ⟨results', last, haccounted, hreached⟩ := spent_jacobians hsize
    fun reached hreaches r hr untold => hlockstep.not_unwinding hreaches hr untold
  -- what the theorem knows of the results is known of those of the run
  have hsame : results' rootRank = results rootRank :=
    congrArg Prod.fst (hlockstep.eq_of_past hsize fun reached hreaches hstuck =>
      (hreached reached hreaches).2 hstuck rootRank hsize)
  rw [hresults rootRank hsize, ← hsame] at htwo
  obtain ⟨Js, hJs, htwo⟩ : ∃ Js, (results' rootRank).1 = .ok (some Js) ∧
      Js.map Jacobian.evaluations = [2, 2] := by
    rcases hpair : results' rootRank with ⟨_ | _ | Js, w⟩
    · rw [hpair] at htwo
      nomatch htwo
    · rw [hpair] at htwo
      nomatch htwo
    · rw [hpair] at htwo
      exact ⟨Js, rfl, beq_iff_eq.mp htwo⟩
  refine ⟨Js, results', hJs, htwo, haccounted, ?_⟩
  rw [(haccounted Js hJs).2, htwo]
  rfl

end Work

end Nlp
