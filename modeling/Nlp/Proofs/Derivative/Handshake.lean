import Nlp.Proofs.Derivative.Modes

/-!
# What a handshake is good for

The root takes the ranks of its group on exactly if all of them declare the same names in the same
order, and otherwise it knows who does not. Nothing else of a problem matters: after such a
handshake every rank makes columns of one length of whatever its model answers, so the columns of
a request always fit together.

## Main definitions

* `Problem.SameNames`: what two problems must have in common.
* `Session.greet`: a handshake and the broadcast that comes next.
* `Session.meet`: a handshake and a task of the root in the session it opens.
* `Session.Settled`: what the root can rely on after a round.

## Main results

* `Snapshot.mismatch?_eq_none_iff`: the comparison of two layouts is about the names only.
* `Session.rank_mismatches`: the root learns of exactly the ranks that differ.
* `Session.handshake_suffices`: over messages, what the handshake comes to and what comes after it.
-/

namespace Nlp

variable {σ α : Type} {size : Nat}

/-! ## Names -/

/-- Two problems declare entries of the same names in the same order. -/
structure Problem.SameNames (p p' : Problem Double) : Prop where
  vars : p.vars.map Variable.name = p'.vars.map Variable.name
  constraints : p.constraints.map Constraint.name = p'.constraints.map Constraint.name
  objectives : p.objectives = p'.objectives

namespace Problem.SameNames

variable {p p' : Problem Double}

theorem iff_and :
    p.SameNames p' ↔ p.vars.map Variable.name = p'.vars.map Variable.name ∧
      p.constraints.map Constraint.name = p'.constraints.map Constraint.name ∧
      p.objectives = p'.objectives :=
  ⟨fun h => ⟨h.vars, h.constraints, h.objectives⟩, fun h => ⟨h.1, h.2.1, h.2.2⟩⟩

instance : Decidable (p.SameNames p') :=
  decidable_of_iff _ iff_and.symm

theorem refl (p : Problem Double) : p.SameNames p :=
  ⟨rfl, rfl, rfl⟩

/-- As many names are as many entries. -/
theorem sameCounts (h : p.SameNames p') : p.SameCounts p' where
  vars := by simpa using congrArg List.length h.vars
  objectives := congrArg List.length h.objectives
  constraints := by simpa using congrArg List.length h.constraints

/-- The names of all entries in one list are enough, if it is known where each registry ends. -/
theorem iff_names_eq (h : p.SameCounts p') :
    p.SameNames p' ↔ p.toSnapshot.names = p'.toSnapshot.names := by
  have hvars : (p.vars.map Variable.name).length = (p'.vars.map Variable.name).length := by
    simpa using h.vars
  have hconstraints :
      (p.constraints.map Constraint.name).length = (p'.constraints.map Constraint.name).length := by
    simpa using h.constraints
  rw [iff_and, Snapshot.names, Snapshot.names]
  constructor
  · rintro ⟨hv, hc, ho⟩
    rw [hv, hc, ho]
  · intro hnames
    obtain ⟨hv, hnames⟩ := List.append_inj hnames hvars
    obtain ⟨hc, ho⟩ := List.append_inj hnames hconstraints
    exact ⟨hv, hc, ho⟩

end Problem.SameNames

/-- Two lists of one length differ in some place, or not at all. -/
theorem find?_zip_eq_none_iff {a b : List String} (h : a.length = b.length) :
    ((a.zip b).find? fun (x, y) => x != y) = none ↔ a = b := by
  -- on both lists, which are of the same length
  induction a generalizing b with
  | nil =>
    cases b with
    | nil => simp
    | cons y b => simp at h
  | cons x a ih =>
    cases b with
    | nil => simp at h
    | cons y b =>
      have hrest := ih (Nat.succ.inj h)
      by_cases hxy : x = y
      · subst hxy
        simpa using hrest
      · simp [hxy]

theorem Snapshot.mismatch?_eq_none_iff {p p' : Problem Double} :
    p.toSnapshot.mismatch? p'.toSnapshot = none ↔ p.SameNames p' := by
  constructor
  · intro h
    have hcounts := Session.sameCounts_of_mismatch? h
    have hlength : p.toSnapshot.names.length = p'.toSnapshot.names.length := by
      simp [Snapshot.names, hcounts.vars, hcounts.constraints, hcounts.objectives]
    apply (Problem.SameNames.iff_names_eq hcounts).mpr
    apply (find?_zip_eq_none_iff hlength).mp
    -- with equal counts only the names are left to compare
    simpa [mismatch?, hcounts.vars, hcounts.constraints, hcounts.objectives] using h
  · intro h
    have hcounts := h.sameCounts
    have hnames := (Problem.SameNames.iff_names_eq hcounts).mp h
    have hfind := (find?_zip_eq_none_iff rfl).mpr (Eq.refl p'.toSnapshot.names)
    simpa [mismatch?, hcounts.vars, hcounts.constraints, hcounts.objectives, hnames] using hfind

namespace Session

variable {respond : Rank → Responder σ} {problems : Rank → Problem Double}

/-! ## What the root learns -/

/-- The ranks whose layouts are not the root's, in ascending order. -/
def strangers (size : Nat) (problems : Rank → Problem Double) : List Rank :=
  (List.range size).filter fun r => ¬ (problems rootRank).SameNames (problems r)

theorem strangers_eq_nil_iff :
    strangers size problems = [] ↔
      ∀ r < size, (problems rootRank).SameNames (problems r) := by
  simp [strangers, List.filter_eq_nil_iff]

theorem isSome_ack (r : Rank) :
    (ack problems r).isSome = !decide ((problems rootRank).SameNames (problems r)) := by
  by_cases hr : r = rootRank
  · subst hr
    simp [ack, Problem.SameNames.refl]
  · rw [ack, lead_other _ _ hr, difference, Option.isSome_map]
    cases hmismatch : (problems rootRank).toSnapshot.mismatch? (problems r).toSnapshot with
    | none =>
      have hsame := Snapshot.mismatch?_eq_none_iff.mp hmismatch
      simp [hsame]
    | some mismatch =>
      have hdiffers : ¬ (problems rootRank).SameNames (problems r) := by
        intro hsame
        rw [Snapshot.mismatch?_eq_none_iff.mpr hsame] at hmismatch
        cases hmismatch
      simp [hdiffers]

/-- The failures among some acknowledgements are those of the ranks that have something to say. -/
theorem rank_mismatches_map (acks : Rank → Option String) (ranks : List Rank) :
    (mismatches (ranks.map fun r => (r, acks r))).map RankFailure.rank =
      ranks.filter fun r => (acks r).isSome := by
  induction ranks with
  | nil => rfl
  | cons r ranks ih =>
    rw [mismatches] at ih ⊢
    cases hack : acks r with
    | none => simpa [hack] using ih
    | some reason => simpa [hack] using ih

theorem rank_mismatches :
    (mismatches (byRank size (ack problems))).map RankFailure.rank = strangers size problems := by
  rw [byRank, rank_mismatches_map, strangers]
  simp only [isSome_ack, decide_not]

/-- What the root makes of a group. -/
theorem welcome_ack :
    (welcome (byRank size (ack problems)) = .ok () ↔
      ∀ r < size, (problems rootRank).SameNames (problems r)) ∧
    (welcome (byRank size (ack problems)) ≠ .ok () → ∃ failures,
      welcome (byRank size (ack problems)) = .error (.derivativeEvaluation failures) ∧
        failures.map RankFailure.rank = strangers size problems) := by
  have hranks : (mismatches (byRank size (ack problems))).map RankFailure.rank =
      strangers size problems := rank_mismatches
  rw [← strangers_eq_nil_iff, ← hranks, welcome]
  cases mismatches (byRank size (ack problems)) with
  | nil => simp
  | cons failure failures => simp

/-! ## What comes after a handshake -/

/-- Whatever the ranks have to say in a handshake has a message, and nothing ends them. -/
structure Greetable (size : Nat) (respond : Rank → Responder σ)
    (problems : Rank → Problem Double) : Prop where
  root : rootRank < size
  snapshot : Wire.extent (problems rootRank).toSnapshot < Wire.wordLimit
  acks : ∀ r < size, Wire.extent (ack problems r) < Wire.wordLimit
  notes : ∀ r < size, (respond r).TakesNotes

/-- A rank takes part in the broadcast after a handshake. -/
def hear (next : Command) (here : Place) (greeted : Except (Error Double) Unit) :
    Program rankAccess (Except (Error Double) Unit × Except (Error Double) Command) :=
  (here.broadcast (if here.isRoot then some next else none)).run.bind fun heard =>
    .done (greeted, heard)

/-- A rank's part of a handshake, and of the broadcast that comes next. -/
def greet (problem : Problem Double) (next : Command) (here : Place) :
    Program rankAccess (Except (Error Double) Unit × Except (Error Double) Command) :=
  (handshake problem here).run.bind (hear next here)

theorem hear_other (next : Command) {r : Rank} (hr : r ≠ rootRank)
    (greeted : Except (Error Double) Unit) :
    hear next ⟨r, size⟩ greeted = ((⟨r, size⟩ : Place).broadcast none).run.bind fun heard =>
      .done (greeted, heard) := by
  have hother : (⟨r, size⟩ : Place).isRoot = false := decide_eq_false hr
  rw [hear, hother]
  rfl

/-- What the ranks have after a handshake. -/
def greeted (size : Nat) (problems : Rank → Problem Double) : Rank → Except (Error Double) Unit :=
  lead (welcome (byRank size (ack problems))) fun _ => .ok ()

theorem hear_concludes (hsize : rootRank < size) {next : Command}
    (hnext : Wire.extent next < Wire.wordLimit) (own : Except (Error Double) Unit) (s₀ : σ)
    (s : Rank → σ) :
    Concludes size respond (hear next ⟨rootRank, size⟩ own) s₀
      (fun r => hear next ⟨r, size⟩ (.ok ())) s fun _ outcome =>
        outcome = some fun r => (lead own (fun _ => .ok ()) r, .ok next) := by
  have hheard : Concludes size respond
      (((⟨rootRank, size⟩ : Place).broadcast (some next)).run.bind fun heard => .done (own, heard))
      s₀ (fun r => ((⟨r, size⟩ : Place).broadcast none).run.bind fun heard => .done (.ok (), heard))
      s fun _ outcome => outcome = some fun r => (lead own (fun _ => .ok ()) r, .ok next) := by
    apply Concludes.broadcast hsize
    · intro hunfit
      exact absurd hnext hunfit
    · refine .done (congrArg some (funext fun r => ?_))
      exact (apply_lead (fun own => (own, Except.ok next)) _ _ r).symm
  refine hheard.congr rfl fun r hr _ => ?_
  rw [hear_other next hr]

/-- Whatever the handshake comes to, all ranks take part in the broadcast that comes next. -/
theorem greet_brings (h : Greetable size respond problems) {next : Command}
    (hnext : Wire.extent next < Wire.wordLimit) (states : Rank → σ) (count : Nat) {r : Rank}
    (hr : r < size) :
    (Crew.ofPrograms size count states fun r => greet (problems r) next ⟨r, size⟩).Brings
      (Crew.calmRules size respond) r (greeted size problems r, .ok next) := by
  have hall : Concludes size respond (greet (problems rootRank) next ⟨rootRank, size⟩)
      (states rootRank) (fun r => greet (problems r) next ⟨r, size⟩) states fun _ outcome =>
        outcome = some fun r => (greeted size problems r, .ok next) := by
    apply handshake_concludes h.root (.inl ⟨h.snapshot, h.acks, h.notes⟩)
    intro s₁ s'
    exact hear_concludes h.root hnext _ s₁ s'
  exact Concludes.brings_all (p := fun r => greet (problems r) next ⟨r, size⟩) hall hr count

/-- What the root can rely on after a round: a matrix of this shape, or the failures of ranks. -/
def Settled (rows n : Nat) : Except (Error Double) (Jacobian Double) → Prop
  | .error e => ∃ failures, e = .derivativeEvaluation failures
  | .ok J => J.matrix.rows = rows ∧ J.matrix.cols = n

/-- The root has what a kernel takes: nothing for complex step, and for forward differences the
values that its own model has given at the point. -/
inductive Prepared (problem : Problem Double) (respond : Responder σ) (x : List Double) :
    Kernel Double → Prop
  | complex (step : Double) : Prepared problem respond x (.complex step)
  | forward (step : Double) {values : Evaluation Double} {s s' : σ}
      (h : (problem.evaluate x).run.run respond s = .finished (.ok values) s') :
    Prepared problem respond x (.forward step (.ofEvaluation values))

/-- Values that have been checked are a baseline for all rows. -/
theorem Prepared.fits {problem : Problem Double} {respond : Responder σ} {x : List Double}
    {kernel : Kernel Double} (h : Prepared problem respond x kernel)
    (hanswers : respond.Answers) : kernel.Fits (1 + problem.constraints.length) := by
  cases h with
  | complex step => trivial
  | @forward step values s s' hrun =>
    obtain ⟨result, s'', hrun', hcheck⟩ := (problem.ranging_evaluate x).run_finished hanswers s
    obtain ⟨rfl, -⟩ := Program.Ending.finished.inj (hrun.symm.trans hrun')
    exact congrArg (1 + ·) (problem.length_of_checkEvaluation (hcheck values rfl))

namespace Request

variable {q : Request} {states : Rank → σ} {evaluations : Nat}

theorem Outcome.settled {result : Except (Error Double) (Jacobian Double)}
    (h : q.Outcome size problems respond states evaluations result) :
    Settled (1 + (problems rootRank).constraints.length) q.x.length result := by
  cases h with
  | ok hnone hJ => exact ⟨hJ.rows, hJ.cols⟩
  | error hsome hascending hfailures => exact ⟨_, rfl⟩

end Request

/-- A handshake, and a task of the root in the session it opens; the others serve the root. -/
def meet (problem : Problem Double) (t : Task α) (here : Place) :
    Program rankAccess (Option (Except (Error Double) α)) :=
  (handshake problem here).run.bind fun
    | .ok () => hold problem t.run here
    | .error e => hold problem (.done (.error e)) here

/-- A round in the session that a handshake has opened. -/
theorem meet_brings (h : Greetable size respond problems)
    (hsame : ∀ r < size, (problems rootRank).SameNames (problems r)) {q : Request}
    {evaluations : Nat} (hfeasible : ∀ states, q.Feasible size problems respond states)
    (hx : q.x.length = (problems rootRank).vars.length)
    (hprepared : Prepared (problems rootRank) (respond rootRank) q.x q.kernel)
    (states : Rank → σ) :
    ∃ result, Settled (1 + (problems rootRank).constraints.length)
        (problems rootRank).vars.length result ∧
      ∀ count, (Crew.ofPrograms size count states fun r => meet (problems r)
        (q.jacobian (problems r) evaluations ⟨r, size⟩) ⟨r, size⟩).Brings
          (Crew.calmRules size respond) rootRank (some result) := by
  have hanswers := (hfeasible states).answers
  have hfits := hprepared.fits (hanswers rootRank h.root)
  have hrows : ∀ r < size,
      (problems r).constraints.length = (problems rootRank).constraints.length :=
    fun r hr => (hsame r hr).sameCounts.constraints.symm
  have hall : Concludes size respond
      (meet (problems rootRank) (q.jacobian (problems rootRank) evaluations ⟨rootRank, size⟩)
        ⟨rootRank, size⟩) (states rootRank)
      (fun r => meet (problems r) (q.jacobian (problems r) evaluations ⟨r, size⟩) ⟨r, size⟩) states
      (Held (Settled (1 + (problems rootRank).constraints.length)
        (problems rootRank).vars.length)) := by
    apply handshake_concludes h.root (.inl ⟨h.snapshot, h.acks, h.notes⟩)
    intro s₁ s'
    rw [welcome_ack.1.mpr hsame]
    -- the models may have made something of their notes, so the states are new ones
    have hheld := Request.jacobian_held evaluations (hfeasible (lead s₁ s')) hrows hx hfits
    refine (hold_concludes (p := fun r => (q.jacobian (problems r) evaluations ⟨r, size⟩).run)
      hheld).mono ?_
    rintro transfers outcome ⟨results, houtcome, a, ha, hgood⟩
    exact ⟨results, houtcome, a, ha, hx ▸ hgood.settled⟩
  have hbrings : ∃ result, (∃ a, result = some a ∧ Settled _ _ a) ∧ ∀ count,
      (Crew.ofPrograms size count states fun r => meet (problems r)
        (q.jacobian (problems r) evaluations ⟨r, size⟩) ⟨r, size⟩).Brings
          (Crew.calmRules size respond) rootRank result :=
    Concludes.brings h.root hall
  obtain ⟨_, ⟨a, rfl, hsettled⟩, hbrings⟩ := hbrings
  exact ⟨a, hsettled, hbrings⟩

/-- **What a handshake is good for.** Whatever kinds, bounds, values and targets the problems of
the ranks have, the root's handshake comes to no error exactly if all ranks declare the same names
in the same order, and otherwise to the ranks that do not, in ascending order. Those of the others
come to no error, and all ranks are there for the next broadcast. After a handshake without an
error, and with a kernel that the root has prepared, a round at a point of the declared length
comes to a full matrix or to the failures of some ranks, whatever the models of the ranks answer. -/
theorem handshake_suffices (h : Greetable size respond problems) :
    (∃ own : Except (Error Double) Unit,
      (own = .ok () ↔ ∀ r < size, (problems rootRank).SameNames (problems r)) ∧
      (own ≠ .ok () → ∃ failures, own = .error (.derivativeEvaluation failures) ∧
        failures.map RankFailure.rank =
          (List.range size).filter fun r => ¬ (problems rootRank).SameNames (problems r)) ∧
      ∀ next, Wire.extent next < Wire.wordLimit → ∀ (states : Rank → σ) (count : Nat), ∀ r < size,
        (Crew.ofPrograms size count states fun r => greet (problems r) next ⟨r, size⟩).Brings
          (Crew.calmRules size respond) r (lead own (fun _ => .ok ()) r, .ok next)) ∧
    ((∀ r < size, (problems rootRank).SameNames (problems r)) →
      ∀ (q : Request) (evaluations : Nat) (states : Rank → σ),
        (∀ states, q.Feasible size problems respond states) →
        q.x.length = (problems rootRank).vars.length →
        Prepared (problems rootRank) (respond rootRank) q.x q.kernel →
        ∃ result, Settled (1 + (problems rootRank).constraints.length)
            (problems rootRank).vars.length result ∧
          ∀ count, (Crew.ofPrograms size count states fun r => meet (problems r)
            (q.jacobian (problems r) evaluations ⟨r, size⟩) ⟨r, size⟩).Brings
              (Crew.calmRules size respond) rootRank (some result)) := by
  obtain ⟨hok, herror⟩ := @welcome_ack size problems
  refine ⟨⟨welcome (byRank size (ack problems)), hok, herror, ?_⟩, ?_⟩
  · intro next hnext states count r hr
    exact greet_brings h hnext states count hr
  · intro hsame q evaluations states hfeasible hx hprepared
    exact meet_brings h hsame hfeasible hx hprepared states

/-- Three ranks: the first two declare the same names and nothing else alike, the third has another
name for its constraint. -/
def trio : Rank → Problem Double
  | 0 => slope
  | 1 => ⟨"tilt", [⟨"u", .integer, 0, 0, 0⟩, ⟨"v", .discrete, 1, 1, 1⟩], ["cost"],
      [⟨"limit", .inequality, 1⟩]⟩
  | _ => { slope with constraints := [⟨"bound", .equality, 0⟩] }

theorem greetable_trio {size : Nat} (hsize : rootRank < size) (hthree : size ≤ 3) :
    Greetable size (fun _ => level.responder) trio where
  root := hsize
  snapshot := by decide
  acks r hr := by
    obtain rfl | rfl | rfl : r = 0 ∨ r = 1 ∨ r = 2 := by omega
    · decide
    · decide
    · decide
  notes _ _ _ _ := rfl

theorem handshake_of_three :
    (∃ failures, failures.map RankFailure.rank = [2] ∧ ∀ count, ∀ r < 3,
      (Crew.ofPrograms 3 count (fun _ => ()) fun r => greet (trio r) .shutdown ⟨r, 3⟩).Brings
        (Crew.calmRules 3 fun _ => level.responder) r
        (lead (.error (.derivativeEvaluation failures)) (fun _ => .ok ()) r, .ok .shutdown)) ∧
    ∃ result, Settled 2 2 result ∧ ∀ count, (Crew.ofPrograms 2 count (fun _ => ()) fun r =>
      meet (trio r) ((⟨[0, 0], .complex 1, .contiguous⟩ : Request).jacobian (trio r) 2 ⟨r, 2⟩)
        ⟨r, 2⟩).Brings (Crew.calmRules 2 fun _ => level.responder) rootRank (some result) := by
  refine ⟨?_, ?_⟩
  · obtain ⟨⟨own, hok, herror, hbrings⟩, -⟩ :=
      handshake_suffices (greetable_trio (by decide : rootRank < 3) le_rfl)
    have hdiffers : ¬ ∀ r < 3, (trio rootRank).SameNames (trio r) := by decide
    obtain ⟨failures, rfl, hranks⟩ := herror fun h => hdiffers (hok.mp h)
    exact ⟨failures, hranks.trans (by decide), fun count r hr =>
      hbrings .shutdown (by decide) (fun _ => ()) count r hr⟩
  · have hsame : ∀ r < 2, (trio rootRank).SameNames (trio r) := by decide
    have hsend : Sendable level 2 slope :=
      ⟨by decide, by decide, by decide, fun k x j e hx h => absurd h (level_not_fails hx j e)⟩
    obtain ⟨-, hround⟩ := handshake_suffices (greetable_trio (by decide : rootRank < 2) (by decide))
    exact hround hsame ⟨[0, 0], .complex 1, .contiguous⟩ 2 (fun _ => ())
      (hsend.feasible (fun r hr => (hsame r hr).sameCounts) rfl trivial) rfl (.complex 1)

end Session

end Nlp
