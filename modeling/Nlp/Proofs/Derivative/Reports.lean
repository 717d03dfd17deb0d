import Nlp.Proofs.Derivative.Round
import Nlp.Proofs.Run

/-!
# Jacobians made of reports

Whatever reports the root is handed in a request (of missing ranks or of ranks too many, with
columns that are repeated, out of range, too short or too long, or with failures), it has a whole
Jacobian or an error, and never a Jacobian with a wrong column.

## Main definitions

* `Session.Request.gathered`: the request up to the reports.
* `Session.Complete`: some columns are those of a whole matrix.

## Main results

* `Session.perm_range_iff_count`: each index once, in two ways.
* `Session.verdict_of_success`, `Session.verdict_of_failure`: what the root makes of any reports.
* `Session.Request.jacobian_of_reports`: the Jacobian of any reports.
-/

namespace Nlp.Session

variable {σ : Type} {rows n : Nat} {columns : List (Column Double)}
  {reports : List (Rank × ColumnReport)}

/-! ## Columns of a whole matrix -/

/-- The columns are those of a matrix with `rows` rows and `n` columns: each index below `n` is
there once, no other one is there, and each column has an entry for every row. -/
structure Complete (rows n : Nat) (columns : List (Column Double)) : Prop where
  once : ∀ j, (columns.map Prod.fst).count j = if j < n then 1 else 0
  lengths : ∀ c ∈ columns, c.2.length = rows

theorem count_range (n j : Nat) : (List.range n).count j = if j < n then 1 else 0 := by
  split
  · next hj => exact List.count_eq_one_of_mem List.nodup_range (List.mem_range.mpr hj)
  · next hj => exact List.count_eq_zero_of_not_mem (mt List.mem_range.mp hj)

theorem perm_range_iff_count {indices : List Nat} :
    indices.Perm (List.range n) ↔ ∀ j, indices.count j = if j < n then 1 else 0 := by
  rw [List.perm_iff_count]
  exact forall_congr' fun j => by rw [count_range]

/-- A Jacobian comes of the columns of a whole matrix, and of no others. -/
theorem exists_ofColumns_iff_complete (evaluations : Nat) :
    (∃ J, Jacobian.ofColumns rows n columns evaluations = .ok J) ↔ Complete rows n columns := by
  constructor
  · rintro ⟨J, hJ⟩
    obtain ⟨honce, hcolumnwise⟩ := Jacobian.ofColumns_eq_ok.mp hJ
    refine ⟨perm_range_iff_count.mp honce, fun c hc => ?_⟩
    have hj : c.1 < n := List.mem_range.mp (honce.mem_iff.mp (List.mem_map_of_mem hc))
    have hcolumn := Jacobian.column_unique (honce.nodup_iff.mpr List.nodup_range) hc
      (hcolumnwise.column c.1 hj)
    rw [hcolumn, J.matrix.length_column (hcolumnwise.cols.symm ▸ hj), hcolumnwise.rows]
  · rintro ⟨honce, hlengths⟩
    exact Jacobian.exists_ofColumns_eq_ok (perm_range_iff_count.mpr honce) hlengths evaluations

/-- The entries of a column of a Jacobian are those of the column it is made of. -/
theorem getElem?_of_ofColumns {evaluations : Nat} {J : Jacobian Double}
    (hJ : Jacobian.ofColumns rows n columns evaluations = .ok J) {c : Column Double}
    (hc : c ∈ columns) (i : Nat) (hi : i < J.matrix.rows) (hj : c.1 < J.matrix.cols) :
    c.2[i]? = some J.matrix.entries[i][c.1] := by
  obtain ⟨honce, hcolumnwise⟩ := Jacobian.ofColumns_eq_ok.mp hJ
  have hcolumn := Jacobian.column_unique (honce.nodup_iff.mpr List.nodup_range) hc
    (hcolumnwise.column c.1 (hcolumnwise.cols ▸ hj))
  rw [hcolumn, Matrix.column_eq_map _ hj, List.getElem?_map]
  simp [hi]

/-! ## Any reports -/

theorem mem_reportFailures {f : RankFailure} :
    f ∈ reportFailures reports ↔ (f.rank, .error f.reason) ∈ reports := by
  rw [reportFailures, List.mem_filterMap]
  constructor
  · rintro ⟨⟨r, report⟩, hmem, hf⟩
    cases report with
    | ok columns => cases hf
    | error reason =>
      obtain rfl := Option.some.inj hf
      exact hmem
  · exact fun hmem => ⟨_, hmem, rfl⟩

/-- In the order of their ranks, reports have their failures in that order. -/
theorem reportFailures_ascending (hranks : (reports.map Prod.fst).Pairwise (· < ·)) :
    ((reportFailures reports).map RankFailure.rank).Pairwise (· < ·) := by
  refine List.pairwise_map.mpr (List.Pairwise.filterMap _ ?_ (List.pairwise_map.mp hranks))
  rintro ⟨r, _ | _⟩ ⟨r', _ | _⟩ hlt f hf f' hf'
  · obtain rfl := Option.some.inj hf
    obtain rfl := Option.some.inj hf'
    exact hlt
  · nomatch hf'
  · nomatch hf
  · nomatch hf

theorem verdict_of_failure {p : Rank × ColumnReport} {reason : String} (hmem : p ∈ reports)
    (hp : p.2 = .error reason) :
    verdict reports = .error (.derivativeEvaluation (reportFailures reports)) := by
  have hfailure : (⟨p.1, reason⟩ : RankFailure) ∈ reportFailures reports :=
    mem_reportFailures.mpr (hp ▸ hmem)
  rw [verdict]
  cases hfailures : reportFailures reports with
  | nil =>
    rw [hfailures] at hfailure
    cases hfailure
  | cons failure failures => rfl

theorem verdict_of_success (h : ∀ p ∈ reports, ∃ columns, p.2 = .ok columns) :
    verdict reports = .ok (reportColumns reports) := by
  have hnone : reportFailures reports = [] := by
    refine List.eq_nil_iff_forall_not_mem.mpr fun f hf => ?_
    obtain ⟨columns, hcolumns⟩ := h _ (mem_reportFailures.mp hf)
    nomatch hcolumns
  rw [verdict, hnone]

/-! ## A request -/

/-- The request of the root up to the reports it is handed. -/
def Request.gathered (q : Request) (problem : Problem Double) (here : Place) :
    Task (Option (List (Rank × ColumnReport))) := do
  let _ ← here.broadcast (some q.command)
  let own ← ExceptT.lift (ownBlock problem q.kernel q.x q.partition here)
  Place.gather own

theorem Request.jacobian_eq (q : Request) (problem : Problem Double) (evaluations : Nat)
    (here : Place) :
    q.jacobian problem evaluations here = (do
      match ← q.gathered problem here with
      | none => throw (.communication .noReports)
      | some reports =>
        Task.ofExcept (verdict reports) >>= fun columns => liftM (Jacobian.ofColumns
          (1 + problem.constraints.length) problem.vars.length columns evaluations)) := by
  rw [jacobian, request_root, gathered]
  simp only [bind_assoc]
  refine congrArg (_ >>= ·) (funext fun _ => congrArg (_ >>= ·) (funext fun own =>
    congrArg (_ >>= ·) (funext fun gathered => ?_)))
  cases gathered with
  | none => rfl
  | some reports => rfl

/-- What comes of the reports, once the root has them. -/
theorem Request.run_jacobian {q : Request} {problem : Problem Double} {here : Place}
    {handler : (c : RankCall) → σ → Option (rankAccess.Reply c) × σ} {s s' : σ}
    (h : (q.gathered problem here).run.run handler s = .finished (.ok (some reports)) s')
    (evaluations : Nat) :
    (q.jacobian problem evaluations here).run.run handler s =
      .finished (verdict reports >>= fun columns => Jacobian.ofColumns
        (1 + problem.constraints.length) problem.vars.length columns evaluations) s' := by
  rw [jacobian_eq, Program.run_except_bind, h]
  show Program.run (I := rankAccess) handler (ExceptT.run (Task.ofExcept (verdict reports) >>=
    fun columns => liftM (Jacobian.ofColumns (1 + problem.constraints.length) problem.vars.length
      columns evaluations))) s' = _
  cases verdict reports with
  | error e => rfl
  | ok columns =>
    show Program.run (I := rankAccess) handler (ExceptT.run (liftM (Jacobian.ofColumns _ _ columns
      evaluations))) s' = .finished (Jacobian.ofColumns _ _ columns evaluations) s'
    cases Jacobian.ofColumns (1 + problem.constraints.length) problem.vars.length columns
      evaluations <;> rfl

/-- The Jacobian of any reports. There is one exactly if no rank reports a failure and the reported
columns are those of a whole matrix, and then it has the reported columns, whoever reported them;
otherwise there is an error, which lists the failures if there are any. -/
theorem Request.jacobian_of_reports {q : Request} {problem : Problem Double} {here : Place}
    {handler : (c : RankCall) → σ → Option (rankAccess.Reply c) × σ} {s s' : σ}
    (h : (q.gathered problem here).run.run handler s = .finished (.ok (some reports)) s')
    (hranks : (reports.map Prod.fst).Pairwise (· < ·)) (evaluations : Nat) :
    ∃ result, (q.jacobian problem evaluations here).run.run handler s = .finished result s' ∧
      ((∃ J, result = .ok J) ↔
        (∀ p ∈ reports, ∃ columns, p.2 = .ok columns) ∧
          Complete (1 + problem.constraints.length) problem.vars.length
            (reportColumns reports)) ∧
      (∀ J, result = .ok J →
        J.matrix.rows = 1 + problem.constraints.length ∧ J.matrix.cols = problem.vars.length ∧
          J.evaluations = evaluations ∧
          ∀ c ∈ reportColumns reports, ∀ i (hi : i < J.matrix.rows) (hj : c.1 < J.matrix.cols),
            c.2[i]? = some J.matrix.entries[i][c.1]) ∧
      ((∃ p ∈ reports, ∃ reason, p.2 = .error reason) →
        ∃ failures, result = .error (.derivativeEvaluation failures) ∧
          (failures.map RankFailure.rank).Pairwise (· < ·) ∧
          ∀ f, f ∈ failures ↔ (f.rank, .error f.reason) ∈ reports) := by
  refine ⟨_, q.run_jacobian h evaluations, ?_⟩
  -- the verdict asks first whether any rank has failed, and only then for the columns
  by_cases hsuccess : ∀ p ∈ reports, ∃ columns, p.2 = .ok columns
  · have hverdict := verdict_of_success hsuccess
    rw [hverdict]
    refine ⟨?_, fun J hJ => ?_, ?_⟩
    · exact (exists_ofColumns_iff_complete evaluations).trans (iff_and_self.mpr fun _ => hsuccess)
    · obtain ⟨-, hcolumnwise⟩ := Jacobian.ofColumns_eq_ok.mp hJ
      exact ⟨hcolumnwise.rows, hcolumnwise.cols, hcolumnwise.evaluations,
        fun c hc i hi hj => getElem?_of_ofColumns hJ hc i hi hj⟩
    · rintro ⟨p, hp, reason, hreason⟩
      obtain ⟨columns, hcolumns⟩ := hsuccess p hp
      exact absurd (hcolumns.symm.trans hreason) nofun
  · have hfailure : ∃ p ∈ reports, ∃ reason, p.2 = .error reason := by
      push Not at hsuccess
      obtain ⟨p, hp, hnone⟩ := hsuccess
      cases hreport : p.2 with
      | ok columns => exact absurd hreport (hnone columns)
      | error reason => exact ⟨p, hp, reason, hreport⟩
    obtain ⟨p, hp, reason, hreason⟩ := hfailure
    rw [verdict_of_failure hp hreason]
    refine ⟨⟨?_, ?_⟩, nofun, fun _ => ?_⟩
    · rintro ⟨J, hJ⟩
      nomatch hJ
    · exact fun hall => absurd hall.1 hsuccess
    · exact ⟨_, rfl, reportFailures_ascending hranks, fun f => mem_reportFailures⟩

/-- The calls of a root without a model of use, whose gather gives these reports. -/
def handed (reports : List (Rank × ColumnReport)) :
    (c : RankCall) → Unit → Option (rankAccess.Reply c) × Unit
  | .model (.note _), s => (some (), s)
  | .model (.evaluateComplex _), s => (some none, s)
  | .model _, s => (none, s)
  | .broadcast payload, s => (some (.ok payload), s)
  | .gather _, s => (some (.ok (some (reports.map fun (r, report) => (r, Wire.toBytes report)))), s)

/-- The columns of the problem, in one report of each of two ranks. -/
def slopeReports : List (Rank × ColumnReport) :=
  [(3, .ok [(1, [1, 0])]), (7, .ok [(0, [0, 1])])]

theorem slope_jacobian :
    ∃ J : Jacobian Double, ((⟨[0, 0], .complex 1, .contiguous⟩ : Request).jacobian slope 2
        ⟨rootRank, 8⟩).run.run (handed slopeReports) () = .finished (.ok J) () := by
  have hgathered : ((⟨[0, 0], .complex 1, .contiguous⟩ : Request).gathered slope
      ⟨rootRank, 8⟩).run.run (handed slopeReports) () = .finished (.ok (some slopeReports)) () := by
    rfl
  obtain ⟨result, hrun, hok, -⟩ := Request.jacobian_of_reports hgathered (by decide) 2
  have hcomplete : Complete 2 2 (reportColumns slopeReports) :=
    ⟨perm_range_iff_count.mp (by decide), by decide⟩
  have hsuccess : ∀ p ∈ slopeReports, ∃ columns, p.2 = .ok columns := by
    simp [slopeReports]
  obtain ⟨J, rfl⟩ := hok.mpr ⟨hsuccess, hcomplete⟩
  exact ⟨J, hrun⟩

end Nlp.Session
