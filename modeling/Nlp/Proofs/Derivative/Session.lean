import Nlp.Derivative.Engine
import Nlp.Proofs.Contract
import Nlp.Proofs.Group.Conclusion

/-!
# Sessions in lockstep

The three parts of a session, each as the collectives the whole group meets at: the handshake, the
rounds in which the root asks for columns and every rank reports its block, and the release.

## Main definitions

* `Session.Request`, `Session.Request.block`: what the root asks for, and a rank's share of it.
* `Session.greeting`, `Session.Request.round`, `Session.farewell`: the collectives of a session.

## Main results

* `Session.handshake_concludes`, `Session.request_concludes`, `Session.release_concludes`: the rules
  for the parts of a session.
-/

namespace Nlp.Session

variable {σ τ : Type} {size : Nat} {respond : Rank → Responder σ} {s₀ : σ} {s : Rank → σ}
  {post : List Transfer → Option (Rank → τ) → Prop}

/-! ## Collectives of a session -/

/-- The root broadcasts a value. -/
def announce {α : Type} [Wire α] (v : α) : Transfer :=
  ⟨.broadcast, rootRank, lead (Wire.toBytes v) fun _ => []⟩

/-- Every rank gives the root a value. -/
def returns {α : Type} [Wire α] (v : Rank → α) : Transfer :=
  ⟨.gather, rootRank, fun r => Wire.toBytes (v r)⟩

/-- The values of all ranks, in order. -/
def byRank {α : Type} (size : Nat) (v : Rank → α) : List (Rank × α) :=
  (List.range size).map fun r => (r, v r)

/-- How a layout differs from the root's, in words. -/
def difference (rootSnapshot : Snapshot Double) (problem : Problem Double) : Option String :=
  (rootSnapshot.mismatch? problem.toSnapshot).map LayoutMismatch.message

/-- What the ranks say about their layouts. -/
def ack (problems : Rank → Problem Double) : Rank → Option String :=
  lead none fun r => difference (problems rootRank).toSnapshot (problems r)

/-- The collectives of a handshake. -/
def greeting (problems : Rank → Problem Double) : List Transfer :=
  [announce (problems rootRank).toSnapshot, returns (ack problems)]

/-- What the root makes of the acknowledgements. -/
def welcome (acks : List (Rank × Option String)) : Except (Error Double) Unit :=
  match mismatches acks with
  | [] => .ok ()
  | failures => .error (.derivativeEvaluation failures)

/-- What the root asks for. -/
structure Request where
  /-- The point. -/
  x : List Double
  /-- The perturbation scheme. -/
  kernel : Kernel Double
  /-- Which rank evaluates which columns. -/
  partition : Partition

/-- A request as the root sends it. -/
def Request.command (q : Request) : Command :=
  .columns q.x q.kernel q.partition

/-- A rank's share of a request. -/
def Request.block (q : Request) (problem : Problem Double) (here : Place) :
    Local Double (List (Column Double)) :=
  q.kernel.columns problem q.x (q.partition.columns q.x.length here.size here.rank)

/-- The ranks, from these states of their models, come to these results of their shares. -/
def Request.Answered (q : Request) (size : Nat) (respond : Rank → Responder σ)
    (problems : Rank → Problem Double) (states : Rank → σ)
    (results : Rank → Except (Error Double) (List (Column Double))) : Prop :=
  ∀ r < size, ∃ s', (q.block (problems r) ⟨r, size⟩).run.run (respond r) (states r) =
    .finished (results r) s'

/-- A result as it is reported. -/
def report (result : Except (Error Double) (List (Column Double))) : ColumnReport :=
  result.mapError Error.message

/-- Nothing ends a rank while it takes part in a request. -/
structure Request.Bearable (q : Request) (size : Nat) (respond : Rank → Responder σ)
    (problems : Rank → Problem Double) (states : Rank → σ) : Prop where
  command : Wire.extent q.command < Wire.wordLimit
  answered : ∃ results, q.Answered size respond problems states results ∧
    ∀ r < size, Wire.extent (report (results r)) < Wire.wordLimit
  notes : ∀ r < size, (respond r).TakesNotes

namespace Request

variable {q : Request} {problems : Rank → Problem Double} {states : Rank → σ}

theorem Bearable.not_stopped (h : q.Bearable size respond problems states) {r : Rank}
    (hr : r < size) (s' : σ) :
    (q.block (problems r) ⟨r, size⟩).run.run (respond r) (states r) ≠ .stopped s' := by
  obtain ⟨results, hanswered, -⟩ := h.answered
  obtain ⟨s'', hfinished⟩ := hanswered r hr
  rw [hfinished]
  exact nofun

/-- Whatever the ranks come to has a message, as they come to one thing only. -/
theorem Bearable.extent_report {results : Rank → Except (Error Double) (List (Column Double))}
    (h : q.Bearable size respond problems states)
    (hanswered : q.Answered size respond problems states results) {r : Rank} (hr : r < size) :
    Wire.extent (report (results r)) < Wire.wordLimit := by
  obtain ⟨results', hanswered', hfits⟩ := h.answered
  obtain ⟨s', hfinished⟩ := hanswered r hr
  obtain ⟨s'', hfinished'⟩ := hanswered' r hr
  injection hfinished.symm.trans hfinished' with heq
  exact heq ▸ hfits r hr

theorem answered_lead {own : Except (Error Double) (List (Column Double))} {s₁ : σ}
    {others : Rank → Except (Error Double) (List (Column Double))} {s' : Rank → σ}
    (hown : (q.block (problems rootRank) ⟨rootRank, size⟩).run.run (respond rootRank) s₀ =
      .finished own s₁)
    (hothers : ∀ r, r ≠ rootRank → r < size →
      (q.block (problems r) ⟨r, size⟩).run.run (respond r) (s r) = .finished (others r) (s' r)) :
    q.Answered size respond problems (lead s₀ s) (lead own others) := by
  intro r hr
  by_cases hr0 : r = rootRank
  · subst hr0
    simp only [lead_root]
    exact ⟨s₁, hown⟩
  · simp only [lead_other _ _ hr0]
    exact ⟨s' r, hothers r hr0 hr⟩

end Request

/-- The collectives of one request. -/
def Request.round (q : Request) (report : Rank → ColumnReport) : List Transfer :=
  [announce q.command, returns report]

/-- What the root makes of the reports. -/
def verdict (reports : List (Rank × ColumnReport)) : Except (Error Double) (List (Column Double)) :=
  match reportFailures reports with
  | [] => .ok (reportColumns reports)
  | failures => .error (.derivativeEvaluation failures)

/-- The collective that ends a session. -/
def farewell (error : Option (Error Double)) : Transfer :=
  announce (releaseCommand error)

/-- The failures of an error, as the other ranks are told. -/
def reasons : Error Double → List RankFailure
  | .derivativeEvaluation failures => failures
  | e => [⟨rootRank, e.message⟩]

theorem releaseCommand_some (e : Error Double) : releaseCommand (some e) = .abort (reasons e) := by
  cases e with
  | derivativeEvaluation failures => rfl
  | _ => rfl

/-- What a rank makes of the end of its session. -/
def released (served : Nat) : Option (Error Double) → Except (Error Double) Nat
  | none => .ok served
  | some e => .error (.derivativeEvaluation (reasons e))

/-! ## The handshake -/

/-- What the root does when it knows all acknowledgements. -/
def settle (size : Nat) (acks : List (Rank × Option String)) : Task Unit :=
  match mismatches acks with
  | [] => Task.note (.sessionEstablished size)
  | failures => throw (.derivativeEvaluation failures)

theorem handshake_root (problem : Problem Double) :
    handshake problem ⟨rootRank, size⟩ = (do
      let _ ← (⟨rootRank, size⟩ : Place).broadcast (some problem.toSnapshot)
      match ← Place.gather (none : Option String) with
      | none => throw (.communication .noAcknowledgements)
      | some acks => settle size acks) := rfl

/-- What a rank says about the layout of the root. -/
def remark (r : Rank) : Option String → Task Unit
  | some reason => Task.note (.layoutDiffers r reason)
  | none => pure ()

theorem isQuiet_remark (r : Rank) (mismatch : Option String) : (remark r mismatch).IsQuiet := by
  cases mismatch with
  | none => exact Task.isQuiet_pure
  | some reason => exact Task.isQuiet_note _

/-- What a rank does when it knows the root's layout. -/
def acknowledge (r : Rank) (mismatch : Option String) : Task Unit := do
  remark r mismatch
  let _ ← Place.gather mismatch

theorem handshake_other (problem : Problem Double) {r : Rank} (hr : r ≠ rootRank) :
    handshake problem ⟨r, size⟩ = (do
      let rootSnapshot : Snapshot Double ← (⟨r, size⟩ : Place).broadcast none
      acknowledge r (difference rootSnapshot problem)) := by
  have hother : (⟨r, size⟩ : Place).isRoot = false := decide_eq_false hr
  rw [handshake, hother]
  refine congrArg (_ >>= ·) (funext fun rootSnapshot => ?_)
  rw [acknowledge, difference]
  cases (rootSnapshot.mismatch? problem.toSnapshot).map LayoutMismatch.message with
  | none => rfl
  | some reason => rfl

/-- The root learns of all layouts that differ from its own; the other ranks go on in any case. -/
theorem handshake_concludes {problems : Rank → Problem Double}
    {f : Except (Error Double) Unit → Program rankAccess τ}
    {g : Rank → Except (Error Double) Unit → Program rankAccess τ} (hsize : rootRank < size)
    (hpanic : Wire.extent (problems rootRank).toSnapshot < Wire.wordLimit ∧
        (∀ r < size, Wire.extent (ack problems r) < Wire.wordLimit) ∧
        (∀ r < size, (respond r).TakesNotes) ∨ ∀ transfers, post transfers none)
    (h : ∀ s₁ s', Concludes size respond (f (welcome (byRank size (ack problems)))) s₁
      (fun r => g r (.ok ())) s' fun transfers => post (greeting problems ++ transfers)) :
    Concludes size respond ((handshake (problems rootRank) ⟨rootRank, size⟩).run.bind f) s₀
      (fun r => (handshake (problems r) ⟨r, size⟩).run.bind (g r)) s post := by
  rw [handshake_root, Task.run_bind_bind]
  -- the other ranks hear the snapshot, and then report what differs
  have hothers : ∀ r, r ≠ rootRank → (handshake (problems r) ⟨r, size⟩).run.bind (g r) =
      ((⟨r, size⟩ : Place).broadcast none).run.bind (Task.andThen (fun rootSnapshot =>
        acknowledge r (difference rootSnapshot (problems r))) (g r)) := by
    intro r hr
    rw [handshake_other _ hr, Task.run_bind_bind]
  refine Concludes.congr (.broadcast hsize (fun hsnapshot => ?_) ?_) rfl fun r hr _ => by
    rw [hothers r hr]
  · exact hpanic.elim (fun hb => absurd hb.1 hsnapshot) (· _)
  simp only [Task.andThen_ok, acknowledge, Task.run_bind_bind]
  refine .quiet_others (fun r => isQuiet_remark r _)
    (fun r _ hr hnotes => hpanic.elim (fun hb => absurd (hb.2.2 r hr) hnotes) (· _)) fun s' => ?_
  simp only [Task.andThen_ok, Task.run_bind_bind]
  refine .gather
    (fun r hr hack => hpanic.elim (fun hb => absurd (hb.2.1 r hr) hack) (· _)) ?_
  simp only [Task.andThen_ok]
  show Concludes size respond ((settle size (byRank size (ack problems))).run.bind f) s₀
    (fun r => g r (.ok ())) s' fun transfers => post (greeting problems ++ transfers)
  rw [settle]
  rw [welcome] at h
  cases hmismatches : mismatches (byRank size (ack problems)) with
  | nil =>
    rw [hmismatches] at h
    exact .quiet_root (Task.isQuiet_note _) hsize
      (fun hnotes => hpanic.elim (fun hb => absurd (hb.2.2 _ hsize) hnotes) (· _)) fun s₁ => h s₁ s'
  | cons failure failures =>
    rw [hmismatches] at h
    exact h s₀ s'

/-! ## The rounds -/

theorem ownBlock_eq (problem : Problem Double) (q : Request) (here : Place) :
    ownBlock problem q.kernel q.x q.partition here =
      (q.block problem here).run.onRank.bind fun result =>
        .done (report result) := by
  refine congrArg (Program.bind _) (funext fun result => ?_)
  cases result with
  | ok columns => rfl
  | error e => rfl

/-- A rank reports a failure. -/
def complain (r : Rank) : ColumnReport → Task Unit
  | .error reason => Task.note (.columnsFailed r reason)
  | .ok _ => pure ()

theorem isQuiet_complain (r : Rank) (report : ColumnReport) : (complain r report).IsQuiet := by
  cases report with
  | ok columns => exact Task.isQuiet_pure
  | error reason => exact Task.isQuiet_note _

/-- What a rank does with a command. -/
def obey (problem : Problem Double) (here : Place) (rounds served : Nat) : Command → Task Nat
  | .columns x kernel partition => do
    let report ← ExceptT.lift (ownBlock problem kernel x partition here)
    complain here.rank report
    let _ ← Place.gather report
    serveFrom problem here rounds (served + 1)
  | .shutdown => do
    Task.note (.released here.rank served)
    return served
  | .abort failures => throw (.derivativeEvaluation failures)

theorem serveFrom_succ (problem : Problem Double) (here : Place) (rounds served : Nat) :
    serveFrom problem here (rounds + 1) served = (do
      let command ← here.broadcast (none : Option Command)
      obey problem here rounds served command) := by
  rw [serveFrom]
  refine congrArg (_ >>= ·) (funext fun command => ?_)
  cases command with
  | columns x kernel partition =>
    refine congrArg (_ >>= ·) (funext fun report => ?_)
    cases report with
    | ok columns => rfl
    | error reason => rfl
  | shutdown => rfl
  | abort failures => rfl

theorem request_root (problem : Problem Double) (q : Request) (here : Place) :
    request problem q.kernel q.x q.partition here = (do
      let _ ← here.broadcast (some q.command)
      let own ← ExceptT.lift (ownBlock problem q.kernel q.x q.partition here)
      match ← Place.gather own with
      | none => throw (.communication .noReports)
      | some reports => Task.ofExcept (verdict reports)) := by
  refine congrArg (_ >>= ·) (funext fun _ => congrArg (_ >>= ·) (funext fun own =>
    congrArg (_ >>= ·) (funext fun gathered => ?_)))
  cases gathered with
  | none => rfl
  | some reports =>
    show (match reportFailures reports with
      | [] => _
      | failures => _) = Task.ofExcept (verdict reports)
    rw [verdict]
    cases reportFailures reports with
    | nil => rfl
    | cons failure failures => rfl

/-- What a rank does with its result in a round. -/
def answer (problem : Problem Double) (here : Place) (rounds served : Nat)
    (own : ColumnReport) : Task Nat := do
  complain here.rank own
  let _ ← Place.gather own
  serveFrom problem here rounds (served + 1)

theorem obey_command (problem : Problem Double) (here : Place) (rounds served : Nat)
    (q : Request) :
    obey problem here rounds served q.command = (do
      let own ← ExceptT.lift (ownBlock problem q.kernel q.x q.partition here)
      answer problem here rounds served own) := rfl

section

variable {problems : Rank → Problem Double} {q : Request} {rounds served : Nat}
  {f : Except (Error Double) (List (Column Double)) → Program rankAccess τ}
  {g : Rank → Except (Error Double) Nat → Program rankAccess τ}

theorem request_concludes_succ (hsize : rootRank < size)
    (hpanic : q.Bearable size respond problems (lead s₀ s) ∨ ∀ transfers, post transfers none)
    (h : ∀ results s₁ s', q.Answered size respond problems (lead s₀ s) results →
      Concludes size respond (f (verdict (byRank size fun r => report (results r)))) s₁
        (fun r => (serveFrom (problems r) ⟨r, size⟩ rounds (served + 1)).run.bind (g r)) s'
        fun transfers => post (q.round (fun r => report (results r)) ++ transfers)) :
    Concludes size respond
      ((request (problems rootRank) q.kernel q.x q.partition ⟨rootRank, size⟩).run.bind f) s₀
      (fun r => (serveFrom (problems r) ⟨r, size⟩ (rounds + 1) served).run.bind (g r)) s post := by
  have hpost : ¬ q.Bearable size respond problems (lead s₀ s) → ∀ transfers, post transfers none :=
    fun hb => hpanic.resolve_left hb
  rw [request_root, Task.run_bind_bind]
  simp only [serveFrom_succ, Task.run_bind_bind]
  refine .broadcast hsize (fun hcommand => hpost (fun hb => hcommand hb.command) _) ?_
  -- every rank evaluates its share
  simp only [Task.andThen_ok, obey_command, Task.run_lift_bind_bind, ownBlock_eq,
    Program.bind_assoc, Program.bind_done]
  have : Inhabited (Except (Error Double) (List (Column Double))) := ⟨.ok []⟩
  refine .local_root hsize (fun s₁ hstopped => hpost (fun hb => ?_) _) fun own s₁ hown => ?_
  · exact hb.not_stopped hsize s₁ (by rwa [lead_root])
  refine .local_others (fun r hr0 hr s₁ hstopped => hpost (fun hb => ?_) _)
    fun others s' hothers => ?_
  · exact hb.not_stopped hr s₁ (by rwa [lead_other _ _ hr0])
  have hanswered := Request.answered_lead hown hothers
  -- the others report a failure of their own before they hand it to the root
  simp only [answer, Task.run_bind_bind]
  refine .quiet_others (fun r => isQuiet_complain r _)
    (fun r _ hr hnotes => hpost (fun hb => hnotes (hb.notes r hr)) _) fun s'' => ?_
  simp only [Task.andThen_ok, Task.run_bind_bind]
  have hreports : ∀ r, report (lead own others r) =
      lead (report own) (fun r => report (others r)) r := apply_lead report own others
  refine .gather (fun r hr hreport => hpost (fun hb => ?_) _) ?_
  · rw [← hreports] at hreport
    exact hreport (hb.extent_report hanswered hr)
  · have hrest := h _ s₁ s'' hanswered
    simp only [hreports, byRank] at hrest
    simp only [Task.andThen_ok, Task.run_ofExcept_bind]
    exact hrest

/-- A rank that can count no further request is ended. -/
theorem pause_serveFrom_zero (respond : Responder σ) (problem : Problem Double) (here : Place)
    (served : Nat) (g : Except (Error Double) Nat → Program rankAccess τ) (s : σ) :
    (((serveFrom problem here 0 served).run.bind g).pause respond s).1 = .panic :=
  Program.pause_outOfRange respond _ _ _ s

/-- A rank on its own counts no requests. -/
theorem concludes_of_succ {root : Program rankAccess τ}
    (hpanic : (1 < size → rounds ≠ 0) ∨ post [] none)
    (h : ∀ rounds' served', (1 < size → rounds' + 1 = rounds) → Concludes size respond root s₀
      (fun r => (serveFrom (problems r) ⟨r, size⟩ (rounds' + 1) served').run.bind (g r)) s post) :
    Concludes size respond root s₀
      (fun r => (serveFrom (problems r) ⟨r, size⟩ rounds served).run.bind (g r)) s post := by
  cases rounds with
  | succ rounds => exact h rounds served fun _ => rfl
  | zero =>
    by_cases hother : ∃ r, r ≠ rootRank ∧ r < size
    · obtain ⟨r, hr0, hr⟩ := hother
      have hsize : 1 < size := Nat.lt_of_le_of_lt (Nat.pos_of_ne_zero hr0) hr
      exact .of_panic_other hr0 hr (pause_serveFrom_zero _ _ _ _ _ _)
        (hpanic.resolve_left fun h => h hsize rfl)
    · have hsize : ¬ 1 < size := fun hlt => hother ⟨1, Nat.one_ne_zero, hlt⟩
      refine (h 0 served fun hlt => absurd hlt hsize).congr rfl fun r hr0 hr => ?_
      exact absurd ⟨r, hr0, hr⟩ hother

/-- One round: the root has all columns, or all failures, and the others await the next command. -/
theorem request_concludes (hsize : rootRank < size)
    (hpanic : (1 < size → rounds ≠ 0) ∧ q.Bearable size respond problems (lead s₀ s) ∨
      ∀ transfers, post transfers none)
    (h : ∀ results s₁ s' rounds' served', (1 < size → rounds' + 1 = rounds) →
      q.Answered size respond problems (lead s₀ s) results →
      Concludes size respond (f (verdict (byRank size fun r => report (results r)))) s₁
        (fun r => (serveFrom (problems r) ⟨r, size⟩ rounds' served').run.bind (g r)) s'
        fun transfers => post (q.round (fun r => report (results r)) ++ transfers)) :
    Concludes size respond
      ((request (problems rootRank) q.kernel q.x q.partition ⟨rootRank, size⟩).run.bind f) s₀
      (fun r => (serveFrom (problems r) ⟨r, size⟩ rounds served).run.bind (g r)) s post :=
  concludes_of_succ (hpanic.imp And.left (· [])) fun rounds' served' hrounds =>
    request_concludes_succ hsize (hpanic.imp_left And.right) fun results s₁ s' hanswered =>
      h results s₁ s' rounds' (served' + 1) hrounds hanswered

/-! ## The release -/

theorem release_root (error : Option (Error Double)) (here : Place) :
    release here error = (do
      let _ ← here.broadcast (some (releaseCommand error))) := rfl

/-- The release: the others end their sessions with the root's failures, if there are any. -/
theorem release_concludes {error : Option (Error Double)}
    {f : Except (Error Double) Unit → Program rankAccess τ} (hsize : rootRank < size)
    (hpanic : (1 < size → rounds ≠ 0) ∧ Wire.extent (releaseCommand error) < Wire.wordLimit ∧
        (∀ r < size, (respond r).TakesNotes) ∨ ∀ transfers, post transfers none)
    (h : ∀ s' served', Concludes size respond (f (.ok ())) s₀
      (fun r => g r (released served' error)) s' fun transfers =>
        post (farewell error :: transfers)) :
    Concludes size respond ((release ⟨rootRank, size⟩ error).run.bind f) s₀
      (fun r => (serveFrom (problems r) ⟨r, size⟩ rounds served).run.bind (g r)) s post := by
  refine concludes_of_succ (hpanic.imp And.left (· [])) fun rounds served _ => ?_
  rw [release_root, Task.run_bind_bind]
  simp only [serveFrom_succ, Task.run_bind_bind]
  refine .broadcast hsize (fun hcommand => hpanic.elim (fun hb => absurd hb.2.1 hcommand) (· [])) ?_
  simp only [Task.andThen_ok]
  cases error with
  | none =>
    simp only [releaseCommand, obey, Task.run_bind_bind]
    refine .quiet_others (fun r => Task.isQuiet_note _)
      (fun r _ hr hnotes => hpanic.elim (fun hb => absurd (hb.2.2 r hr) hnotes) (· _)) fun s' => ?_
    exact h s' served
  | some e =>
    rw [releaseCommand_some]
    rw [farewell, releaseCommand_some] at h
    exact h s served

end

/-! ## Any number of rounds -/

/-- The collectives of some requests, each of which every rank has answered from some state of its
model. -/
inductive Rounds (size : Nat) (respond : Rank → Responder σ) (problems : Rank → Problem Double) :
    List Request → List Transfer → Prop
  | nil : Rounds size respond problems [] []
  | cons {q : Request} {qs : List Request} {transfers : List Transfer} {states : Rank → σ}
      {results : Rank → Except (Error Double) (List (Column Double))}
      (hanswered : q.Answered size respond problems states results)
      (hrest : Rounds size respond problems qs transfers) :
    Rounds size respond problems (q :: qs) (q.round (fun r => report (results r)) ++ transfers)

/-- The program asks its model, and the group for columns, and nothing else; its results satisfy
`good`. -/
inductive Asks (problem : Problem Double) (here : Place) {α : Type} (good : α → Prop) :
    Program rankAccess α → Prop
  | done {a : α} (h : good a) : Asks problem here good (.done a)
  | model {c : ModelCall Double} {next : (modelAccess Double).Reply c → Program rankAccess α}
      (h : ∀ reply, Asks problem here good (next reply)) :
    Asks problem here good (.call (I := rankAccess) (.model c) next)
  | request {q : Request}
      {next : Except (Error Double) (List (Column Double)) → Program rankAccess α}
      (h : ∀ result, Asks problem here good (next result)) :
    Asks problem here good
      ((request problem q.kernel q.x q.partition here).run.bind next)

namespace Asks

variable {problem : Problem Double} {here : Place} {α β : Type}

theorem mono {good good' : α → Prop} (himp : ∀ a, good a → good' a) {p : Program rankAccess α}
    (h : Asks problem here good p) : Asks problem here good' p := by
  induction h with
  | done h => exact .done (himp _ h)
  | model _ ih => exact .model ih
  | request _ ih => exact .request ih

theorem bind {good : β → Prop} {p : Program rankAccess α} {f : α → Program rankAccess β}
    (h : Asks problem here (fun a => Asks problem here good (f a)) p) :
    Asks problem here good (p.bind f) := by
  induction h with
  | done h => exact h
  | model _ ih => exact .model ih
  | request _ ih =>
    rw [Program.bind_assoc]
    exact .request ih

theorem onRank (p : Program (modelAccess Double) α) :
    Asks problem here (fun _ => True) p.onRank := by
  induction p with
  | done a => exact .done trivial
  | call c next ih => exact .model ih

end Asks

/-- All results of a program that asks its model and the group for columns. -/
def asking (problem : Problem Double) (here : Place) : Always (Program rankAccess) where
  holds p good := Asks problem here good p
  pure _ h := .done h
  bind _ _ h := h.bind
  mono _ himp h := h.mono himp

/-- Whatever the root asks for, the others answer, and await its next command. -/
theorem Asks.concludes {problems : Rank → Problem Double} {rounds served : Nat} {α : Type}
    {good : α → Prop} {p : Program rankAccess α} {k : α → Program rankAccess τ}
    {g : Rank → Except (Error Double) Nat → Program rankAccess τ} (hsize : rootRank < size)
    (hp : Asks (problems rootRank) ⟨rootRank, size⟩ good p)
    (hpanic : ∀ transfers, post transfers none)
    (h : ∀ a s₁ s' rounds' served' qs asked, good a → Rounds size respond problems qs asked →
      Concludes size respond (k a) s₁
        (fun r => (serveFrom (problems r) ⟨r, size⟩ rounds' served').run.bind (g r)) s'
        fun transfers => post (asked ++ transfers)) :
    Concludes size respond (p.bind k) s₀
      (fun r => (serveFrom (problems r) ⟨r, size⟩ rounds served).run.bind (g r)) s post := by
  -- on the requests of the root: each is a round in which the others serve
  induction hp generalizing s₀ s rounds served post with
  | done ha => exact h _ s₀ s rounds served [] [] ha .nil
  | @model c next _ ih =>
    have hcall : (Program.call (I := rankAccess) (.model c) next).bind k =
        (Program.perform (I := modelAccess Double) c).onRank.bind fun reply =>
          (next reply).bind k := rfl
    rw [hcall]
    exact .local_root hsize (fun _ _ => hpanic _) fun reply s₁ _ => ih reply hpanic h
  | request _ ih =>
    rw [Program.bind_assoc]
    refine request_concludes hsize (.inr hpanic)
      fun results s₁ s' rounds' served' _ hanswered => ih _ (fun _ => hpanic _) ?_
    intro a s₁ s' rounds' served' qs asked ha hrounds
    have hrest := h a s₁ s' rounds' served' _ _ ha (.cons hanswered hrounds)
    simp only [List.append_assoc] at hrest
    exact hrest

end Nlp.Session
