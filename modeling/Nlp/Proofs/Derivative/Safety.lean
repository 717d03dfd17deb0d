import Nlp.Proofs.Derivative.Partition
import Nlp.Proofs.Derivative.Round
import Nlp.Proofs.Derivative.Unaided

/-!
# What cannot go wrong with derivatives

Points, evaluations, derivatives and baselines may have any length and models may answer anything:
an engine uses no index that its list does not have.  A request for a Jacobian fails or has a matrix
of the declared shape, and a rank that serves answers every command for columns with a report, until
it is released or a call fails.

What no list of a machine can do is left out of this: a message may have a count that is no word,
and a session more requests than can be counted.

## Main definitions

* `Program.halt`: the call at which a run has stopped.
* `ModelCall.InRange`: a call that is no index outside its list.
* `Problem.Shapes`: a Jacobian of the declared shape.
* `Session.Duty`, `Session.Responsive`: what is next for a rank that serves, and a rank that does
  it.

## Main results

* `Program.Meets.run_or_halt`: what becomes of a run.
* `Engine.staying_jacobianAt`: a request stays in range, and its Jacobian has the declared shape.
* `Session.responsive_serveFrom`: a rank that serves does what is next.
* `Engine.sound_on_any_data`: both together, for every handler.
-/

namespace Nlp

variable {σ τ α β : Type}

/-! ## Runs that stop -/

namespace Program

variable {I : Interface} {ρ : Type}

/-- The call at which the run of a program is stopped, if it is. -/
def halt (handler : (c : I.Call) → σ → Option (I.Reply c) × σ) : Program I ρ → σ → Option I.Call
  | done _, _ => none
  | call c next, s =>
    match handler c s with
    | (some reply, s) => (next reply).halt handler s
    | (none, _) => some c

/-- A program comes to a result that has the postcondition, or is stopped at a call of the contract,
where any reply is allowed. -/
theorem Meets.run_or_halt {C : Contract I} {post : ρ → Prop} {p : Program I ρ}
    (hreplies : ∀ c reply, C.replies c reply) (h : p.Meets C post)
    (handler : (c : I.Call) → σ → Option (I.Reply c) × σ) (s : σ) :
    (∃ r s', p.run handler s = .finished r s' ∧ post r) ∨
      ∃ c s', p.halt handler s = some c ∧ p.run handler s = .stopped s' ∧ C.asks c := by
  induction p generalizing s with
  | done r => exact .inl ⟨r, s, rfl, h⟩
  | call c next ih =>
    rw [run, halt]
    rcases handler c s with ⟨_ | reply, s'⟩
    · exact .inr ⟨c, s', rfl, rfl, h.1⟩
    · exact ih reply (h.2 reply (hreplies c reply)) s'

end Program

/-! ## Calls in range -/

/-- The call is no index outside its list.  Among ranks that tell each other something, a count may
be no word. -/
def ModelCall.InRange (grouped : Prop) : ModelCall Double → Prop
  | .outOfRange index size => grouped ∧ size = Wire.wordLimit ∧ size ≤ index
  | _ => True

/-- A rank that stays in range may tell its group anything. -/
def Conduct.inRange (grouped : Prop) : Conduct :=
  ⟨ModelCall.InRange grouped, fun _ => True⟩

variable {grouped : Prop} {here : Place} {problem : Problem Double} {x : List Double}

theorem Conduct.asks_inRange {c : ModelCall Double} (h : Nlp.inRange.asks c) :
    (inRange grouped).asks c := by
  cases c with
  | outOfRange index size => exact absurd rfl (h index size)
  | _ => trivial

theorem Conduct.sparesWords_inRange (h : grouped) : (inRange grouped).SparesWords :=
  fun _ hcount => ⟨h, rfl, hcount⟩

/-- What needs no index stays in range. -/
theorem Program.Meets.ofModel_inRange {p : Program (modelAccess Double) α} {post : α → Prop}
    (h : p.Meets inRange post) : p.Meets (Conduct.inRange grouped).ofModel post :=
  h.weaken (fun _ => Conduct.asks_inRange) fun _ _ _ => trivial

theorem Session.ranging_block (q : Request) (problem : Problem Double) (here : Place) :
    ranging.holds (q.block problem here) fun columns =>
      columns.map Prod.fst = q.partition.columns q.x.length here.size here.rank :=
  Engine.ranging_columns fun _ hj => q.partition.lt_of_mem_columns hj

/-! ## Requests to an engine -/

/-- The Jacobian has a row for the objective and for every constraint, and a column for every
variable. -/
def Problem.Shapes (problem : Problem α) (J : Jacobian α) : Prop :=
  J.matrix.rows = 1 + problem.constraints.length ∧ J.matrix.cols = problem.vars.length

namespace Engine

variable {e : Engine}

/-- The results, errors apart, of requests that stay in range. -/
abbrev staying (e : Engine) : Always Request :=
  unaidedRequest (.inRange (e.mode = .parallel))

theorem Request.IsLocal.staying {t : Request α} (ht : t.IsLocal) :
    e.staying.holds t fun _ => True := by
  intro memory _
  obtain ⟨l, hl, hmeets⟩ := ht memory
  show (t.run.run memory).Meets _ _
  rw [hl]
  exact unaided_onRank
    (hmeets.ofModel_inRange.mono fun _ _ => ⟨fun _ _ => trivial, trivial⟩)

theorem staying_columns (e : Engine) (kernel : Kernel Double) :
    (unaidedTask (.inRange (e.mode = .parallel))).holds (e.columns problem kernel x here)
      fun _ => True := by
  by_cases hmode : e.mode = .parallel
  · rw [columns, hmode]
    let q : Session.Request := ⟨x, kernel, e.partition⟩
    have hblock := Session.ranging_block q problem here
    exact Session.unaided_request (Conduct.sparesWords_inRange rfl) (q := q) (fun _ => trivial)
      trivial (hblock.ofModel_inRange.mono fun _ _ => trivial)
  · obtain ⟨l, hl, hranging, -⟩ := columns_of_ne_parallel hmode problem kernel x here
    rw [hl]
    exact Task.unaided_ofLocal hranging.ofModel_inRange

theorem staying_assemble (e : Engine) (kernel : Kernel Double) (evaluations : Nat) :
    e.staying.holds (e.assemble problem kernel x here evaluations) problem.Shapes := by
  refine e.staying.seq (unaided_ofTask (e.staying_columns kernel)) fun columns => ?_
  refine unaided_ofTask ?_
  rintro J hJ
  have hcolumnwise := (Jacobian.ofColumns_eq_ok.mp hJ).2
  exact ⟨hcolumnwise.rows, hcolumnwise.cols⟩

/-- A request stays in range, and its Jacobian has the declared shape. -/
theorem staying_jacobianAt (e : Engine) (problem : Problem Double) (x : List Double)
    (known : Option (Evaluation Double)) (here : Place) :
    e.staying.holds (e.jacobianAt problem x known here) problem.Shapes := by
  rw [jacobianAt_eq]
  refine e.staying.ite (fun _ => unaided_throw _ _) fun _ => ?_
  refine e.staying.ite (fun _ => unaided_throw _ _) fun _ => ?_
  refine e.staying.seq (isLocal_note _).staying fun _ => ?_
  refine e.staying.seq isLocal_resolve.staying fun scheme => ?_
  cases scheme with
  | analytic =>
    exact unaided_ofTask
      (Task.unaided_ofLocal (ranging_analyticJacobian problem x).ofModel_inRange)
  | forward step =>
    exact e.staying.seq (isLocal_baseline known).staying fun baseline => e.staying_assemble _ _
  | complex step => exact e.staying_assemble _ _

end Engine

/-! ## Reports of a rank that serves -/

/-- The report is an error, or has these columns. -/
def ColumnReport.Covers (report : ColumnReport) (js : List Nat) : Prop :=
  ∀ columns, report = .ok columns → columns.map Prod.fst = js

namespace Session

/-- What is next for a rank that serves, after so many requests. -/
inductive Duty where
  /-- It waits for a command. -/
  | listen (served : Nat)
  /-- It owes a report on these columns. -/
  | report (served : Nat) (columns : List Nat)
  /-- The session is over for the rank, with this result. -/
  | over (result : Except (Error Double) Nat)

/-- Why the first part that is no report cannot be read. -/
def badReport? : Parts → Option Wire.Fault
  | [] => none
  | part :: parts =>
    match (Wire.ofBytes part.2 : Except Wire.Fault ColumnReport) with
    | .ok _ => badReport? parts
    | .error fault => some fault

namespace Duty

/-- What is next after a broadcast.  A command for columns wants a report; any other command is the
end, and so is a failure. -/
def heard (here : Place) (served : Nat) : Except CommFault Bytes → Duty
  | .error fault => .over (.error (.communication fault))
  | .ok bytes =>
    match (Wire.ofBytes bytes : Except Wire.Fault Command) with
    | .ok (.columns x _ partition) =>
      .report served (partition.columns x.length here.size here.rank)
    | .ok .shutdown => .over (.ok served)
    | .ok (.abort failures) => .over (.error (.derivativeEvaluation failures))
    | .error fault => .over (.error (.communication (.encoding fault)))

/-- What is next after a gather: the next command, unless the gather has failed.  A rank that is not
the root has no parts, but if it had it would read them. -/
def reported (served : Nat) : Except CommFault (Option Parts) → Duty
  | .error fault => .over (.error (.communication fault))
  | .ok parts =>
    match badReport? (parts.getD []) with
    | none => .listen (served + 1)
    | some fault => .over (.error (.communication (.encoding fault)))

/-- The calls of its model that a rank makes before it does what is next.  It waits for a command
without any, and ends with events only; and for a report it asks what it likes.  No call is an index
outside its list, but there may be more requests than can be counted, and a report with a count that
is no word. -/
def Allows : Duty → ModelCall Double → Prop
  | .listen served, c => c = .outOfRange served countLimit ∧ countLimit ≤ served
  | .report _ js, .outOfRange index size => size = Wire.wordLimit ∧ size ≤ index ∧
      ∃ report : ColumnReport, report.Covers js ∧ Wire.extent report = index
  | .report _ _, _ => True
  | .over _, c => ∃ event, c = .note event

end Duty

/-- Whatever it is answered, the rank does what is next, one thing after another, and nothing else
with its group: it listens for a command, answers a command for columns with a report on them, and
listens again; and it ends when the session is over for it, and not before. -/
def Responsive (here : Place) : Duty → Program rankAccess (Except (Error Double) Nat) → Prop
  | duty, .done result => duty = .over result
  | duty, .call (.model c) next => duty.Allows c ∧ ∀ reply, Responsive here duty (next reply)
  | duty, .call (.broadcast _) next =>
    ∃ served, duty = .listen served ∧
      ∀ reply, Responsive here (.heard here served reply) (next reply)
  | duty, .call (.gather payload) next =>
    ∃ served js report, duty = .report served js ∧ payload = Wire.toBytes report ∧
      ColumnReport.Covers report js ∧
      ∀ reply, Responsive here (.reported served reply) (next reply)

variable {served : Nat} {js : List Nat}

theorem responsive_onRank_bind {p : Program (modelAccess Double) α} {post : α → Prop}
    {f : α → Program rankAccess (Except (Error Double) Nat)} (hp : p.Meets inRange post)
    (hf : ∀ a, post a → Responsive here (.report served js) (f a)) :
    Responsive here (.report served js) (p.onRank.bind f) := by
  induction p with
  | done a => exact hf a hp
  | call c next ih =>
    refine ⟨?_, fun reply => ih reply (hp.2 reply trivial)⟩
    cases c with
    | outOfRange index size => exact absurd rfl (hp.1 index size)
    | _ => trivial

/-- A rank other than the root listens for a command, and goes on as it has heard. -/
theorem responsive_broadcast (hother : here.rank ≠ rootRank)
    {g : Except (Error Double) Command → Program rankAccess (Except (Error Double) Nat)}
    (herror : ∀ e, Responsive here (.over (.error e)) (g (.error e)))
    (hcommand : ∀ bytes command, Wire.ofBytes bytes = .ok command →
      Responsive here (.heard here served (.ok bytes)) (g (.ok command))) :
    Responsive here (.listen served) ((here.broadcast (none : Option Command)).run.bind g) := by
  have hroot : here.isRoot = false := decide_eq_false hother
  rw [Place.broadcast, hroot]
  refine ⟨served, rfl, fun reply => ?_⟩
  cases reply with
  | error fault => exact herror _
  | ok bytes =>
    show Responsive here _ ((Task.decode bytes : Task Command).run.bind g)
    cases hread : (Wire.ofBytes bytes : Except Wire.Fault Command) with
    | ok command =>
      rw [Task.decode, hread]
      exact hcommand bytes command hread
    | error fault =>
      rw [Task.decode, Duty.heard, hread]
      exact herror _

/-- Parts are read up to the first that is no report. -/
theorem exists_run_decodeAll (parts : Parts) :
    ∃ r, (Task.decodeAll parts : Task (List (Rank × ColumnReport))).run = .done r ∧
      match badReport? parts with
      | none => ∃ reports, r = .ok reports
      | some fault => r = .error (.communication (.encoding fault)) := by
  induction parts with
  | nil => exact ⟨_, rfl, [], rfl⟩
  | cons part parts ih =>
    obtain ⟨r, hrun, hr⟩ := ih
    rw [Task.decodeAll, badReport?, Task.decode]
    cases hread : (Wire.ofBytes part.2 : Except Wire.Fault ColumnReport) with
    | error fault => exact ⟨_, rfl, rfl⟩
    | ok report =>
      dsimp only
      rw [pure_bind, ExceptT.run_bind, hrun, Program.bind_eq, Program.bind_done]
      cases hbad : badReport? parts with
      | none =>
        rw [hbad] at hr
        obtain ⟨reports, rfl⟩ := hr
        exact ⟨_, rfl, _, rfl⟩
      | some fault =>
        rw [hbad] at hr
        obtain rfl := hr
        exact ⟨_, rfl, rfl⟩

/-- The report that is owed is given. -/
theorem responsive_gather {report : ColumnReport}
    {g : Except (Error Double) (Option (List (Rank × ColumnReport))) →
      Program rankAccess (Except (Error Double) Nat)}
    (hreport : report.Covers js)
    (hok : ∀ gathered, Responsive here (.listen (served + 1)) (g (.ok gathered)))
    (herror : ∀ e, Responsive here (.over (.error e)) (g (.error e))) :
    Responsive here (.report served js) ((Place.gather report).run.bind g) := by
  -- a report that is too long for a message panics, which is the exit that is allowed
  by_cases hfits : Wire.extent report < Wire.wordLimit
  · have hgather : (Place.gather report).run.bind g =
        .call (I := rankAccess) (.gather (Wire.toBytes report)) fun reply =>
          (Task.collected reply : Task (Option (List (Rank × ColumnReport)))).run.bind g := by
      rw [Place.gather, Task.encode_of_lt hfits]
      show Program.call _ _ = _
      refine congrArg (Program.call _) (funext fun reply => ?_)
      rcases reply with fault | _ | parts
      · rfl
      · rfl
      · exact congrArg (fun t : Task (Option (List (Rank × ColumnReport))) => t.run.bind g)
          (map_eq_pure_bind some (Task.decodeAll parts)).symm
    rw [hgather]
    refine ⟨served, js, report, rfl, rfl, hreport, fun reply => ?_⟩
    rcases reply with fault | _ | parts
    · exact herror _
    · exact hok _
    · obtain ⟨r, hrun, hr⟩ := exists_run_decodeAll parts
      show Responsive here (match badReport? parts with
        | none => .listen (served + 1)
        | some fault => .over (.error (.communication (.encoding fault))))
          ((some <$> Task.decodeAll parts : Task _).run.bind g)
      rw [ExceptT.run_map, hrun]
      cases hbad : badReport? parts with
      | none =>
        rw [hbad] at hr
        obtain ⟨reports, rfl⟩ := hr
        exact hok _
      | some fault =>
        rw [hbad] at hr
        obtain rfl := hr
        exact herror _
  · rw [Place.gather, Task.encode, if_neg hfits]
    exact ⟨⟨rfl, Nat.le_of_not_lt hfits, report, hreport, rfl⟩, fun reply => reply.elim⟩

theorem responsive_complain {report : ColumnReport}
    {g : Except (Error Double) Unit → Program rankAccess (Except (Error Double) Nat)}
    (hg : Responsive here (.report served js) (g (.ok ()))) :
    Responsive here (.report served js) ((complain here.rank report).run.bind g) := by
  cases report with
  | ok columns => exact hg
  | error reason => exact ⟨trivial, fun _ => hg⟩

/-- A rank that serves does what is next. -/
theorem responsive_serveFrom (problem : Problem Double) (hother : here.rank ≠ rootRank)
    {rounds : Nat} (hcount : countLimit ≤ rounds + served)
    {f : Except (Error Double) Nat → Program rankAccess (Except (Error Double) Nat)}
    (hf : ∀ r, Responsive here (.over r) (f r)) :
    Responsive here (.listen served) ((serveFrom problem here rounds served).run.bind f) := by
  -- on the rounds: every round that is served is counted, up to the limit of the counter
  induction rounds generalizing served with
  | zero =>
    rw [Nat.zero_add] at hcount
    exact ⟨⟨rfl, hcount⟩, fun reply => reply.elim⟩
  | succ rounds ih =>
    rw [serveFrom_succ, Task.run_bind_bind]
    refine responsive_broadcast hother (fun e => hf _) fun bytes command hread => ?_
    rw [Task.andThen_ok, Duty.heard, hread]
    cases command with
    | columns x kernel partition =>
      let q : Request := ⟨x, kernel, partition⟩
      have hserved : countLimit ≤ rounds + (served + 1) := by omega
      show Responsive here _ ((obey problem here rounds served q.command).run.bind f)
      rw [obey_command, Task.run_lift_bind_bind, ownBlock_eq, Program.bind_assoc]
      refine responsive_onRank_bind (ranging_block q problem here) fun result hresult => ?_
      have hreport : (report result).Covers (partition.columns x.length here.size here.rank) := by
        intro columns heq
        cases result with
        | ok columns' =>
          obtain rfl := Except.ok.inj heq
          exact hresult _ rfl
        | error e => cases heq
      rw [Program.bind_done, answer, Task.run_bind_bind]
      refine responsive_complain ?_
      rw [Task.andThen_ok, Task.run_bind_bind]
      exact responsive_gather hreport (fun _ => ih hserved) fun e => hf _
    | shutdown => exact ⟨⟨_, rfl⟩, fun _ => hf _⟩
    | abort failures => exact hf _

end Session

/-- Whatever a model and a group answer, and whatever lengths points, baselines and answers have: a
request for a Jacobian comes to an error or to a matrix of the declared shape, unless a call is not
answered, which is no index outside a list; and a rank other than the root that serves answers every
command for columns with a report, until the session is over for it. -/
theorem Engine.sound_on_any_data :
    (∀ (e : Engine) (problem : Problem Double) (x : List Double)
        (known : Option (Evaluation Double)) (here : Place) (memory : Memory) {σ : Type}
        (handler : (c : RankCall) → σ → Option (rankAccess.Reply c) × σ) (s : σ),
      let request := (e.jacobianAt problem x known here).run.run memory
      (∃ result memory' s', request.run handler s = .finished (result, memory') s' ∧
        ∀ J, result = .ok J → problem.Shapes J) ∨
      ∃ call s', request.halt handler s = some call ∧ request.run handler s = .stopped s' ∧
        ∀ c, call = .model c → c.InRange (e.mode = .parallel)) ∧
    ∀ (problem : Problem Double) (here : Place), here.rank ≠ rootRank →
      Session.Responsive here (.listen 0) (Session.serve problem here).run := by
  constructor
  · intro e problem x known here memory σ handler s request
    have hstaying : request.Meets (Conduct.inRange (e.mode = .parallel)).unaided _ :=
      e.staying_jacobianAt problem x known here memory trivial
    rcases hstaying.run_or_halt (fun _ _ => trivial) handler s with
      ⟨⟨result, memory'⟩, s', hrun, hpost⟩ | ⟨call, s', hhalt, hrun, hasks⟩
    · exact .inl ⟨result, memory', s', hrun, hpost.1⟩
    · refine .inr ⟨call, s', hhalt, hrun, ?_⟩
      rintro c rfl
      exact hasks
  · intro problem here hother
    have hserve : Session.Responsive here (.listen 0)
        ((Session.serve problem here).run.bind .done) :=
      Session.responsive_serveFrom problem hother (Nat.le_refl Session.countLimit) fun _ => rfl
    rwa [Program.bind_pure] at hserve

namespace Session

/-- The calls of a rank that is told these commands, with what it has passed to its gathers. -/
def instructed (m : Model Double) : (c : RankCall) → List Command × List Bytes →
    Option (rankAccess.Reply c) × List Command × List Bytes
  | .model c, s => (m.answer c, s)
  | .broadcast _, (commands, told) =>
    (commands.head?.map fun command => .ok (Wire.toBytes command), commands.tail, told)
  | .gather payload, (commands, told) => (some (.ok none), commands, told ++ [payload])

/-- A command with a point that is too long, one with a step of zero and a baseline without rows,
and the end of the session. -/
def oddCommands : List Command :=
  [.columns [0, 0, 0] (.complex 1) .contiguous,
    .columns [0, 0] (.forward 0 ⟨.nan, []⟩) .contiguous, .shutdown]

/-- The second of two ranks answers both commands, and is released after them. -/
theorem odd_commands_answered :
    (⟨1, 2⟩ : Place).rank ≠ rootRank ∧
      Responsive ⟨1, 2⟩ (.listen 0) (serve slope ⟨1, 2⟩).run ∧
      (serve slope ⟨1, 2⟩).run.run (instructed level) (oddCommands, []) =
        .finished (.ok 2) ([], [
          Wire.toBytes (.error "Shape mismatch for x: expected 2, found 3" : ColumnReport),
          Wire.toBytes (.ok [(1, [.nan])] : ColumnReport)]) :=
  ⟨by decide, Engine.sound_on_any_data.2 slope ⟨1, 2⟩ (by decide), rfl⟩

end Session

end Nlp
