import Nlp.Proofs.Derivative.Columns
import Nlp.Proofs.Derivative.Jacobian
import Nlp.Proofs.Derivative.Partition
import Nlp.Proofs.Derivative.Session

/-!
# One round of a session

The root asks for the columns of a Jacobian, every rank answers with its block, and the root puts
the columns together. What the root has in the end depends on what each rank makes of its own
columns only.

## Main definitions

* `Session.Request.Makes`: what a rank makes of a column it owns.
* `Session.Request.Outcome`: what a round comes to.
* `Session.Request.Feasible`: a round that can be carried out.
* `Session.Request.jacobian`: a request, with the Jacobian of its columns.
* `Session.hold`: a program of the root in a session with the others.

## Main results

* `Session.verdict_eq_ok`, `Session.verdict_eq_error`: what the root makes of the reports.
* `Session.Request.Answered.outcome`: a round comes to what its ranks make of their columns.
* `Session.Request.jacobian_concludes`: the rule for a round.
* `Session.hold_brings`: a session of the root, over messages.
-/

namespace Nlp.Session

variable {σ τ α : Type} {size : Nat}

/-! ## What the root makes of the reports -/

/-- The failure of a rank, if its result is one. -/
def failure? (r : Rank) : Except (Error Double) (List (Column Double)) → Option RankFailure
  | .ok _ => none
  | .error e => some ⟨r, e.message⟩

theorem failure?_eq_some {r : Rank} {result : Except (Error Double) (List (Column Double))}
    {f : RankFailure} :
    failure? r result = some f ↔ f.rank = r ∧ ∃ e, result = .error e ∧ f.reason = e.message := by
  cases result with
  | ok columns => exact ⟨nofun, fun ⟨_, _, h, _⟩ => nomatch h⟩
  | error e =>
    constructor
    · rintro ⟨⟩
      exact ⟨rfl, e, rfl, rfl⟩
    · rintro ⟨rfl, _, ⟨⟩, hreason⟩
      exact congrArg (fun reason => some (RankFailure.mk f.rank reason)) hreason.symm

/-- The failures of a round, by rank. -/
def failures (size : Nat) (results : Rank → Except (Error Double) (List (Column Double))) :
    List RankFailure :=
  (List.range size).filterMap fun r => failure? r (results r)

section

variable {results : Rank → Except (Error Double) (List (Column Double))}

theorem mem_failures {f : RankFailure} :
    f ∈ failures size results ↔
      f.rank < size ∧ ∃ e, results f.rank = .error e ∧ f.reason = e.message := by
  simp only [failures, List.mem_filterMap, List.mem_range, failure?_eq_some]
  constructor
  · rintro ⟨_, hr, rfl, hfailure⟩
    exact ⟨hr, hfailure⟩
  · rintro ⟨hr, hfailure⟩
    exact ⟨f.rank, hr, rfl, hfailure⟩

theorem failures_ascending : ((failures size results).map RankFailure.rank).Pairwise (· < ·) := by
  refine List.pairwise_map.mpr (List.Pairwise.filterMap _ ?_ List.pairwise_lt_range)
  intro r r' hlt f hf f' hf'
  obtain ⟨rfl, -⟩ := failure?_eq_some.mp hf
  obtain ⟨rfl, -⟩ := failure?_eq_some.mp hf'
  exact hlt

theorem reportFailures_byRank :
    reportFailures (byRank size fun r => report (results r)) = failures size results := by
  rw [reportFailures, byRank, List.filterMap_map, failures]
  refine List.filterMap_congr fun r _ => ?_
  rw [Function.comp_apply]
  cases results r with
  | ok columns => rfl
  | error e => rfl

theorem verdict_eq_error {r : Rank} {e : Error Double} (hr : r < size)
    (h : results r = .error e) :
    verdict (byRank size fun r => report (results r)) =
      .error (.derivativeEvaluation (failures size results)) := by
  rw [verdict, reportFailures_byRank]
  have hmem : (⟨r, e.message⟩ : RankFailure) ∈ failures size results :=
    mem_failures.mpr ⟨hr, e, h, rfl⟩
  cases hfailures : failures size results with
  | nil =>
    rw [hfailures] at hmem
    cases hmem
  | cons failure failures => rfl

theorem verdict_eq_ok {blocks : Rank → List (Column Double)}
    (h : ∀ r < size, results r = .ok (blocks r)) :
    verdict (byRank size fun r => report (results r)) =
      .ok ((List.range size).flatMap blocks) := by
  have hnone : failures size results = [] := by
    refine List.eq_nil_iff_forall_not_mem.mpr fun f hf => ?_
    obtain ⟨hr, e, hresult, -⟩ := mem_failures.mp hf
    rw [h f.rank hr] at hresult
    nomatch hresult
  rw [verdict, reportFailures_byRank, hnone]
  refine congrArg Except.ok ?_
  rw [reportColumns, byRank, List.flatMap_map]
  refine List.flatMap_congr fun r hr => ?_
  rw [h r (List.mem_range.mp hr)]
  rfl

end

/-! ## What a round comes to -/

namespace Request

section

variable (q : Request) (size : Nat) (problems : Rank → Problem Double)
  (respond : Rank → Responder σ) (states : Rank → σ)

/-- What a rank makes of a column of its block. -/
def Makes (r : Rank) (j : Nat) (result : Except (Error Double) (List Double)) : Prop :=
  q.kernel.Computes (problems r) q.x (respond r) (q.partition.columns q.x.length size r) (states r)
    j result

/-- The lowest column of a rank's block that fails, and its error. -/
def FailsAt (r : Rank) (j : Nat) (e : Error Double) : Prop :=
  q.kernel.FailsFirst (problems r) q.x (respond r) (q.partition.columns q.x.length size r)
    (states r) j e

/-- What the root has after a round. Where no rank has a column that fails, it has the Jacobian
whose columns are the owners'; otherwise it has the ranks with a column that fails, in ascending
order, each with the error of its lowest one in words. -/
inductive Outcome (evaluations : Nat) : Except (Error Double) (Jacobian Double) → Prop
  | ok {J : Jacobian Double}
      (hnone : ∀ r < size, ∀ j e, ¬ q.Makes size problems respond states r j (.error e))
      (hJ : J.Columnwise (1 + (problems rootRank).constraints.length) q.x.length evaluations
        fun j column => q.Makes size problems respond states (q.partition.owner q.x.length size j) j
          (.ok column)) :
    Outcome evaluations (.ok J)
  | error {failures : List RankFailure}
      (hsome : ∃ r < size, ∃ j e, q.Makes size problems respond states r j (.error e))
      (hascending : (failures.map RankFailure.rank).Pairwise (· < ·))
      (hfailures : ∀ f, f ∈ failures ↔ f.rank < size ∧
        ∃ j e, q.FailsAt size problems respond states f.rank j e ∧ f.reason = e.message) :
    Outcome evaluations (.error (.derivativeEvaluation failures))

end

variable {q : Request} {problems : Rank → Problem Double} {respond : Rank → Responder σ}
  {states : Rank → σ} {results : Rank → Except (Error Double) (List (Column Double))}

/-- The result of a rank, column by column. -/
theorem Answered.evaluates (h : q.Answered size respond problems states results)
    (hanswers : ∀ r < size, (respond r).Answers) (hwords : q.x.length + size ≤ 2 ^ 64) {r : Rank}
    (hr : r < size) :
    q.kernel.Evaluates (problems r) q.x (respond r) (q.partition.columns q.x.length size r)
      (states r) (results r) := by
  obtain ⟨s', hrun⟩ := h r hr
  obtain ⟨result, s'', hrun', hevaluates⟩ := q.kernel.run_columns (p := problems r) (hanswers r hr)
    (fun j hj => ((q.partition.mem_columns hr hwords).mp hj).1) (states r)
  obtain ⟨rfl, -⟩ := Program.Ending.finished.inj (hrun.symm.trans hrun')
  exact hevaluates

theorem nodup_columns (q : Request) (size : Nat) (r : Rank) :
    (q.partition.columns q.x.length size r).Nodup :=
  q.partition.nodup_columns _ _ _

theorem Answered.not_fails (h : q.Answered size respond problems states results)
    (hanswers : ∀ r < size, (respond r).Answers) (hwords : q.x.length + size ≤ 2 ^ 64) {r : Rank}
    (hr : r < size) {block : List (Column Double)} (hresult : results r = .ok block) (j : Nat)
    (e : Error Double) : ¬ q.Makes size problems respond states r j (.error e) := by
  have hevaluates := h.evaluates hanswers hwords hr
  rw [hresult] at hevaluates
  exact hevaluates.not_fails (q.nodup_columns size r) j e

theorem Answered.failsAt (h : q.Answered size respond problems states results)
    (hanswers : ∀ r < size, (respond r).Answers) (hwords : q.x.length + size ≤ 2 ^ 64) {r : Rank}
    (hr : r < size) {e : Error Double} (hresult : results r = .error e) :
    ∃ j, q.FailsAt size problems respond states r j e := by
  have hevaluates := h.evaluates hanswers hwords hr
  rw [hresult] at hevaluates
  exact hevaluates.failsFirst (q.partition.columns_ascending _ _ _)

/-- Where no rank fails, every column is there once, as its owner has it. -/
theorem Answered.verdict_ok (h : q.Answered size respond problems states results)
    (hanswers : ∀ r < size, (respond r).Answers) (hsize : 0 < size)
    (hwords : q.x.length + size ≤ 2 ^ 64) {blocks : Rank → List (Column Double)}
    (hblocks : ∀ r < size, results r = .ok (blocks r)) :
    ∃ columns, verdict (byRank size fun r => report (results r)) = .ok columns ∧
      (columns.map Prod.fst).Perm (List.range q.x.length) ∧
      ∀ c ∈ columns, c.1 < q.x.length ∧
        q.Makes size problems respond states (q.partition.owner q.x.length size c.1) c.1
          (.ok c.2) := by
  have hevaluates : ∀ r < size, q.kernel.Evaluates (problems r) q.x (respond r)
      (q.partition.columns q.x.length size r) (states r) (.ok (blocks r)) := fun r hr =>
    hblocks r hr ▸ h.evaluates hanswers hwords hr
  refine ⟨_, verdict_eq_ok hblocks, ?_, fun c hc => ?_⟩
  · have hindices : ((List.range size).flatMap blocks).map Prod.fst =
        (List.range size).flatMap fun r => q.partition.columns q.x.length size r := by
      rw [List.map_flatMap]
      exact List.flatMap_congr fun r hr => (hevaluates r (List.mem_range.mp hr)).1
    rw [hindices]
    exact q.partition.perm_columns hsize hwords
  · obtain ⟨r, hr, hc⟩ := List.mem_flatMap.mp hc
    have hr := List.mem_range.mp hr
    have hmakes := (hevaluates r hr).2 c hc
    obtain ⟨hj, rfl⟩ := (q.partition.mem_columns hr hwords).mp hmakes.mem
    exact ⟨hj, hmakes⟩

/-- Either no rank fails, or the root has the failures of all ranks that do. -/
theorem ok_or_error (size : Nat)
    (results : Rank → Except (Error Double) (List (Column Double))) :
    (∃ blocks : Rank → List (Column Double), ∀ r < size, results r = .ok (blocks r)) ∨
      ∃ r < size, ∃ e, results r = .error e := by
  by_cases hsome : ∃ r < size, ∃ e, results r = .error e
  · exact .inr hsome
  · have hblocks : ∀ r, ∃ block, r < size → results r = .ok block := by
      intro r
      cases hresult : results r with
      | ok block => exact ⟨block, fun _ => rfl⟩
      | error e => exact ⟨[], fun hr => absurd ⟨r, hr, e, hresult⟩ hsome⟩
    choose blocks hblocks using hblocks
    exact .inl ⟨blocks, hblocks⟩

/-- A round comes to what its ranks make of their columns. -/
theorem Answered.outcome (h : q.Answered size respond problems states results)
    (hanswers : ∀ r < size, (respond r).Answers) (hsize : 0 < size)
    (hwords : q.x.length + size ≤ 2 ^ 64)
    (hrows : ∀ r < size,
      (problems r).constraints.length = (problems rootRank).constraints.length)
    (hfits : q.kernel.Fits (1 + (problems rootRank).constraints.length)) (evaluations : Nat) :
    q.Outcome size problems respond states evaluations
      (verdict (byRank size fun r => report (results r)) >>= fun columns =>
        Jacobian.ofColumns (1 + (problems rootRank).constraints.length) q.x.length columns
          evaluations) := by
  -- either every rank has its block, and the blocks make a matrix, or some rank has failed
  rcases ok_or_error size results with ⟨blocks, hblocks⟩ | ⟨r, hr, e, hresult⟩
  · obtain ⟨columns, hverdict, honce, hmakes⟩ :=
      h.verdict_ok hanswers hsize hwords hblocks
    have hlengths : ∀ c ∈ columns,
        c.2.length = 1 + (problems rootRank).constraints.length := by
      intro c hc
      obtain ⟨hj, hc⟩ := hmakes c hc
      have howner := q.partition.owner_lt hsize hj
      rw [hc.length (hanswers _ howner) hj, hrows _ howner, hfits.height_eq]
    obtain ⟨J, hJ⟩ := Jacobian.exists_ofColumns_eq_ok honce hlengths evaluations
    rw [hverdict]
    show q.Outcome size problems respond states evaluations (Jacobian.ofColumns _ _ columns _)
    rw [hJ]
    refine .ok (fun r hr => h.not_fails hanswers hwords hr (hblocks r hr)) ?_
    refine (Jacobian.ofColumns_eq_ok_of_good honce (fun j column column' hc hc' => ?_)
      fun c hc => (hmakes c hc).2).mp hJ
    exact Except.ok.inj (hc.unique (q.nodup_columns size _) hc')
  · rw [verdict_eq_error hr hresult]
    obtain ⟨j, hj⟩ := h.failsAt hanswers hwords hr hresult
    refine .error ⟨r, hr, j, e, hj.1⟩ failures_ascending fun f => ?_
    rw [mem_failures]
    refine and_congr_right fun hf => ⟨?_, ?_⟩
    · rintro ⟨e, hresult, hreason⟩
      obtain ⟨j, hj⟩ := h.failsAt hanswers hwords hf hresult
      exact ⟨j, e, hj, hreason⟩
    · rintro ⟨j, e, hj, hreason⟩
      cases hresult : results f.rank with
      | ok block => exact absurd hj.1 (h.not_fails hanswers hwords hf hresult j e)
      | error e' =>
        obtain ⟨j', hj'⟩ := h.failsAt hanswers hwords hf hresult
        obtain rfl := hj.unique (q.nodup_columns size _) hj'
        exact ⟨e, rfl, hreason⟩

/-! ## A round over messages -/

/-- A round can be carried out: every model answers, and every number and text that is sent has a
message. -/
structure Feasible (q : Request) (size : Nat) (problems : Rank → Problem Double)
    (respond : Rank → Responder σ) (states : Rank → σ) : Prop where
  root : rootRank < size
  answers : ∀ r < size, (respond r).Answers
  columns : q.x.length + size ≤ 2 ^ 64
  rows : ∀ r < size, 1 + (problems r).constraints.length < Wire.wordLimit
  kernel : Wire.extent q.kernel < Wire.wordLimit
  reasons : ∀ r < size, ∀ j e, q.Makes size problems respond states r j (.error e) →
    Wire.extent e.message < Wire.wordLimit

theorem Feasible.length_lt (h : q.Feasible size problems respond states) :
    q.x.length < Wire.wordLimit :=
  (Nat.lt_add_of_pos_right h.root).trans_le h.columns

theorem extent_doubles {values : List Double} (h : values.length < Wire.wordLimit) :
    Wire.extent values < Wire.wordLimit :=
  Wire.extent_list_lt.mpr ⟨h, fun _ _ => Nat.two_pow_pos 64⟩

theorem length_columns_le (q : Request) {r : Rank} (hr : r < size)
    (hwords : q.x.length + size ≤ 2 ^ 64) :
    (q.partition.columns q.x.length size r).length ≤ q.x.length := by
  have hsubperm : (q.partition.columns q.x.length size r).Subperm (List.range q.x.length) := by
    refine List.subperm_of_subset (q.nodup_columns size r) fun j hj => ?_
    exact List.mem_range.mpr ((q.partition.mem_columns hr hwords).mp hj).1
  exact hsubperm.length_le.trans_eq List.length_range

theorem Feasible.extent_report (h : q.Feasible size problems respond states)
    (hanswered : q.Answered size respond problems states results) {r : Rank} (hr : r < size) :
    Wire.extent (report (results r)) < Wire.wordLimit := by
  have hevaluates := hanswered.evaluates h.answers h.columns hr
  cases hresult : results r with
  | error e =>
    obtain ⟨j, hj⟩ := hanswered.failsAt h.answers h.columns hr hresult
    exact h.reasons r hr j e hj.1
  | ok columns =>
    rw [hresult] at hevaluates
    obtain ⟨hindices, hmakes⟩ := hevaluates
    refine Wire.extent_list_lt.mpr ⟨?_, fun c hc => ?_⟩
    · have hlength := q.length_columns_le hr h.columns
      rw [← hindices, List.length_map] at hlength
      exact hlength.trans_lt h.length_lt
    · have hj := ((q.partition.mem_columns hr h.columns).mp (hmakes c hc).mem).1
      have hheight := (hmakes c hc).length (h.answers r hr) hj
      refine max_lt (hj.trans h.length_lt) (extent_doubles ?_)
      exact hheight ▸ (q.kernel.height_le _).trans_lt (h.rows r hr)

/-- Nothing ends a rank while it takes part in a round that can be carried out. -/
theorem Feasible.bearable (h : q.Feasible size problems respond states) :
    q.Bearable size respond problems states := by
  have hanswered : ∃ results, q.Answered size respond problems states results := by
    have hrun : ∀ r, ∃ result, r < size → ∃ s',
        (q.block (problems r) ⟨r, size⟩).run.run (respond r) (states r) = .finished result s' := by
      intro r
      by_cases hr : r < size
      · obtain ⟨result, s', hrun, -⟩ := q.kernel.run_columns (h.answers r hr)
          (fun j hj => ((q.partition.mem_columns hr h.columns).mp hj).1) (states r)
        exact ⟨result, fun _ => ⟨s', hrun⟩⟩
      · exact ⟨.ok [], fun hr' => absurd hr' hr⟩
    choose results hresults using hrun
    exact ⟨results, hresults⟩
  obtain ⟨results, hanswered⟩ := hanswered
  refine ⟨?_, ⟨results, hanswered, fun r hr => h.extent_report hanswered hr⟩, fun r hr => ?_⟩
  · exact max_lt (extent_doubles h.length_lt) h.kernel
  · intro event s
    exact Option.eq_some_of_isSome (h.answers r hr (.note event) s nofun)

/-- A request of the root, with the Jacobian of its columns. -/
def jacobian (q : Request) (problem : Problem Double) (evaluations : Nat) (here : Place) :
    Task (Jacobian Double) := do
  let columns ← request problem q.kernel q.x q.partition here
  liftM (Jacobian.ofColumns (1 + problem.constraints.length) problem.vars.length columns
    evaluations)

end Request

/-- A program of the root in a session: the others serve the root until it has its result. -/
def hold (problem : Problem Double) (p : Program rankAccess α) (here : Place) :
    Program rankAccess (Option α) :=
  if here.isRoot then
    p.bind fun a => (release here none).run.bind fun _ => .done (some a)
  else (serve problem here).run.bind fun _ => .done none

theorem hold_other (problem : Problem Double) (p : Program rankAccess α) {r : Rank}
    (hr : r ≠ rootRank) :
    hold problem p ⟨r, size⟩ =
      (serveFrom problem ⟨r, size⟩ countLimit 0).run.bind fun _ => .done none := by
  have hother : (⟨r, size⟩ : Place).isRoot = false := decide_eq_false hr
  rw [hold, hother]
  rfl

section

variable {problems : Rank → Problem Double} {respond : Rank → Responder σ} {s₀ : σ} {s : Rank → σ}
  {good : α → Prop}

theorem hold_concludes {p : Rank → Program rankAccess α}
    {post : List Transfer → Option (Rank → Option α) → Prop}
    (h : Concludes size respond
      ((p rootRank).bind fun a => (release ⟨rootRank, size⟩ none).run.bind fun _ => .done (some a))
      s₀ (fun r => (serveFrom (problems r) ⟨r, size⟩ countLimit 0).run.bind fun _ => .done none) s
      post) :
    Concludes size respond (hold (problems rootRank) (p rootRank) ⟨rootRank, size⟩) s₀
      (fun r => hold (problems r) (p r) ⟨r, size⟩) s post := by
  refine h.congr rfl fun r hr _ => ?_
  rw [hold_other _ _ hr]

/-- The root has brought a group to its end. -/
def Held (good : α → Prop) (_ : List Transfer) (outcome : Option (Rank → Option α)) : Prop :=
  ∃ results, outcome = some results ∧ ∃ a, results rootRank = some a ∧ good a

/-- The end of a session whose root has its result. -/
theorem held_of_result {rounds served : Nat} {a : α} (hsize : rootRank < size)
    (hanswers : ∀ r < size, (respond r).Answers) (hrounds : 1 < size → rounds ≠ 0)
    (hgood : good a) :
    Concludes size respond
      ((release ⟨rootRank, size⟩ none).run.bind fun _ => .done (some a)) s₀
      (fun r => (serveFrom (problems r) ⟨r, size⟩ rounds served).run.bind fun _ => .done none) s
      (Held good) := by
  have hnotes : ∀ r < size, (respond r).TakesNotes := fun r hr event s =>
    Option.eq_some_of_isSome (hanswers r hr (.note event) s nofun)
  refine release_concludes hsize (.inl ⟨hrounds, Nat.two_pow_pos 64, hnotes⟩) fun s' _ => ?_
  exact .done ⟨_, rfl, a, lead_root _ _, hgood⟩

/-- A session of the root, over messages. -/
theorem hold_brings {p : Rank → Program rankAccess α} {states : Rank → σ} (hsize : rootRank < size)
    (h : Concludes size respond
      ((p rootRank).bind fun a => (release ⟨rootRank, size⟩ none).run.bind fun _ => .done (some a))
      (states rootRank)
      (fun r => (serveFrom (problems r) ⟨r, size⟩ countLimit 0).run.bind fun _ => .done none) states
      (Held good)) :
    ∃ a, good a ∧ ∀ count, (Crew.ofPrograms size count states fun r =>
      hold (problems r) (p r) ⟨r, size⟩).Brings (Crew.calmRules size respond) rootRank
        (some a) := by
  have hall : Concludes size respond (hold (problems rootRank) (p rootRank) ⟨rootRank, size⟩)
      (states rootRank) (fun r => hold (problems r) (p r) ⟨r, size⟩) states (Held good) :=
    hold_concludes h
  have hbrings : ∃ result, (∃ a, result = some a ∧ good a) ∧ ∀ count,
      (Crew.ofPrograms size count states fun r => hold (problems r) (p r) ⟨r, size⟩).Brings
        (Crew.calmRules size respond) rootRank result :=
    Concludes.brings hsize hall
  obtain ⟨_, ⟨a, rfl, hgood⟩, hbrings⟩ := hbrings
  exact ⟨a, hgood, hbrings⟩

end

/-- A round that can be carried out comes to what the ranks make of their own columns. -/
theorem Request.jacobian_concludes {q : Request} {problems : Rank → Problem Double}
    {respond : Rank → Responder σ} {rounds served evaluations : Nat} {s₀ : σ} {s : Rank → σ}
    {k : Except (Error Double) (Jacobian Double) → Program rankAccess τ}
    {g : Rank → Except (Error Double) Nat → Program rankAccess τ}
    {post : Option (Rank → τ) → Prop} (h : q.Feasible size problems respond (lead s₀ s))
    (hrows : ∀ r < size,
      (problems r).constraints.length = (problems rootRank).constraints.length)
    (hx : q.x.length = (problems rootRank).vars.length)
    (hfits : q.kernel.Fits (1 + (problems rootRank).constraints.length))
    (hrounds : 1 < size → rounds ≠ 0)
    (hrest : ∀ result s₁ s' rounds' served', (1 < size → rounds' + 1 = rounds) →
      q.Outcome size problems respond (lead s₀ s) evaluations result →
      Concludes size respond (k result) s₁
        (fun r => (serveFrom (problems r) ⟨r, size⟩ rounds' served').run.bind (g r)) s'
        fun _ => post) :
    Concludes size respond
      ((q.jacobian (problems rootRank) evaluations ⟨rootRank, size⟩).run.bind k) s₀
      (fun r => (serveFrom (problems r) ⟨r, size⟩ rounds served).run.bind (g r)) s
      fun _ => post := by
  rw [Request.jacobian, Task.run_bind_bind]
  refine request_concludes h.root (.inl ⟨hrounds, h.bearable⟩)
    fun results s₁ s' rounds' served' hrounds' hanswered => ?_
  rw [Task.andThen_liftM]
  refine hrest _ s₁ s' rounds' served' hrounds' ?_
  rw [← hx]
  exact hanswered.outcome h.answers h.root h.columns hrows hfits evaluations

theorem one_lt_countLimit : 1 < countLimit := by
  decide

/-- A session of one round: the root ends it when it knows what the round comes to. -/
theorem Request.jacobian_held {q : Request} {problems : Rank → Problem Double}
    {respond : Rank → Responder σ} {s₀ : σ} {s : Rank → σ} (evaluations : Nat)
    (h : q.Feasible size problems respond (lead s₀ s))
    (hrows : ∀ r < size,
      (problems r).constraints.length = (problems rootRank).constraints.length)
    (hx : q.x.length = (problems rootRank).vars.length)
    (hfits : q.kernel.Fits (1 + (problems rootRank).constraints.length)) :
    Concludes size respond
      ((q.jacobian (problems rootRank) evaluations ⟨rootRank, size⟩).run.bind fun a =>
        (release ⟨rootRank, size⟩ none).run.bind fun _ => .done (some a)) s₀
      (fun r => (serveFrom (problems r) ⟨r, size⟩ countLimit 0).run.bind fun _ => .done none) s
      (Held (q.Outcome size problems respond (lead s₀ s) evaluations)) := by
  have hlimit := one_lt_countLimit
  refine jacobian_concludes h hrows hx hfits (fun _ => Nat.ne_of_gt (Nat.zero_lt_of_lt hlimit))
    fun result s₁ s' rounds' served' hrounds houtcome => ?_
  refine held_of_result h.root h.answers (fun hsize => ?_) houtcome
  have hrounds := hrounds hsize
  omega

/-! ## A problem and a model to try this on -/

/-- A problem with two variables and one constraint. -/
def slope : Problem Double where
  name := "slope"
  vars := [⟨"u", .continuous, 0, 1, 0⟩, ⟨"v", .continuous, 0, 1, 0⟩]
  objectives := ["cost"]
  constraints := [⟨"limit", .equality, 0⟩]

/-- A model that answers alike at all points. -/
def level : Model Double where
  evaluate _ := ⟨0, [0], 0⟩
  evaluateComplex _ := some ⟨⟨0, 0⟩, [⟨0, 0⟩], 0⟩
  gradient _ := none

theorem level_not_fails {k : Kernel Double} {x : List Double} (hx : x.length = 2) (j : Nat)
    (e : Error Double) : ¬ level.Gives (k.column slope x j).run (.error e) := by
  obtain ⟨a, b, rfl⟩ := List.length_eq_two.mp hx
  rcases j with _ | _ | j <;> cases k <;> exact nofun

end Nlp.Session
