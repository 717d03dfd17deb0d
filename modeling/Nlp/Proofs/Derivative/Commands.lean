import Nlp.Proofs.Derivative.Engine
import Nlp.Proofs.Derivative.Nearby
import Nlp.Proofs.Derivative.Session
import Nlp.Proofs.Group.Conduct
import Nlp.Proofs.Wire.RoundTrip

/-!
# Where the ranks of a session ask their models

The ranks other than the root evaluate columns as the root's commands have it.  As long as the root
takes derivatives at good points and by forward differences, so do they, for a command arrives as it
was sent.  The rules for the group cover commands; the layout that opens a session is no command,
and comes before all of them.

## Main definitions

* `Command.Nearby`: the commands that have ranks ask their models nearby.
* `Conduct.nearby`: the rules for a group whose models are asked nearby only.
* `keeping`, `keepingTask`: the programs and the tasks of a rank that keeps to them.

## Main results

* `Place.keeping_command`: commands arrive as they were sent.
* `Session.keeping_request`, `Session.keeping_serveFrom`: both sides of a round keep to the rules.
* `Session.begins_handshake`: a handshake is a beginning of its own.
* `Engine.keeping_jacobianAt`: a request for a Jacobian keeps to the rules.
-/

namespace Nlp

variable {good : List Double → Prop} {m : Method Double} {here : Place} {problem : Problem Double}
  {τ α : Type}

/-! ## The rules -/

/-- Columns are asked for by forward differences with the step of the method, and at a good
point. -/
def Command.Nearby (good : List Double → Prop) (m : Method Double) : Command → Prop
  | .columns x kernel _ =>
    good x ∧ ∃ step baseline, m = .finiteDifference step ∧ kernel = .forward step baseline
  | .shutdown | .abort _ => True

/-- The models are asked nearby, and a broadcast that can be read as a command is one that has
ranks ask nearby. -/
def Conduct.nearby (good : List Double → Prop) (m : Method Double) : Conduct where
  asks := ModelCall.Nearby good m
  tells bytes := ∀ command : Command, Wire.ofBytes bytes = .ok command → command.Nearby good m

/-- The results of programs of a rank that keeps to the rules. -/
abbrev keeping (good : List Double → Prop) (m : Method Double) (here : Place) :
    Always (Program rankAccess) :=
  Always.program ((Conduct.nearby good m).ofRank here)

/-- The results, errors apart, of tasks of a rank that keeps to the rules. -/
abbrev keepingTask (good : List Double → Prop) (m : Method Double) (here : Place) : Always Task :=
  (keeping good m here).except (Error Double)

/-! ## Tasks -/

theorem keeping_onRank {p : Program (modelAccess Double) α} {post : α → Prop}
    (h : p.Meets (Nearby good m) post) : (keeping good m here).holds p.onRank post := by
  have hmodel : ∀ c : ModelCall Double, c.Nearby good m →
      (keeping good m here).holds (Program.perform (I := rankAccess) (.model c)) fun _ => True :=
    fun c hc => ⟨hc, fun _ _ => trivial⟩
  exact h.interpret (keeping good m here) hmodel

/-- Also a task that fails keeps to the rules. -/
theorem keeping_run {t : Task α} {post : α → Prop} (h : (keepingTask good m here).holds t post) :
    (keeping good m here).holds t.run fun _ => True :=
  h.mono fun _ _ => trivial

namespace Task

theorem keeping_ofLocal {p : Local Double α} {post : α → Prop}
    (h : (nearing good m).holds p post) : (keepingTask good m here).holds (ofLocal p) post :=
  keeping_onRank h

theorem keeping_note (event : Event Double) :
    (keepingTask good m here).holds (note event) fun _ => True :=
  keeping_ofLocal (nearing_ask trivial)

/-- An event comes before the first broadcast, too. -/
theorem begins_note (event : Event Double) {f : Except (Error Double) Unit → Program rankAccess α}
    (hf : ∀ r, Conduct.Begins (Conduct.nearby good m) here (f r)) :
    Conduct.Begins (Conduct.nearby good m) here ((note event).run.bind f) :=
  ⟨trivial, fun _ => hf _⟩

theorem keeping_throw (e : Error Double) (post : α → Prop) :
    (keepingTask good m here).holds (throw e) post := by
  intro b hb
  cases hb

theorem keeping_ofExcept (r : Except (Error Double) α) :
    (keepingTask good m here).holds (ofExcept r) fun _ => True := by
  cases r with
  | ok a => exact (keepingTask good m here).pure a trivial
  | error e => exact keeping_throw e _

theorem keeping_liftM (r : Except (Error Double) α) :
    (keepingTask good m here).holds (liftM r) fun _ => True :=
  fun _ _ => trivial

theorem keeping_lift {p : Program rankAccess α} (h : (keeping good m here).holds p fun _ => True) :
    (keepingTask good m here).holds (ExceptT.lift p) fun _ => True :=
  (keeping good m here).map (h.mono fun _ _ _ _ => trivial)

theorem keeping_encode [Wire τ] (v : τ) :
    (keepingTask good m here).holds (encode v) fun bytes =>
      bytes = Wire.toBytes v ∧ Wire.extent v < Wire.wordLimit := by
  refine (keepingTask good m here).ite (fun hfits => ?_) fun _ => ?_
  · exact (keepingTask good m here).pure _ ⟨rfl, hfits⟩
  · exact ⟨trivial, fun reply => reply.elim⟩

theorem keeping_decode [Wire τ] (bytes : Bytes) :
    (keepingTask good m here).holds (decode bytes : Task τ) fun v =>
      Wire.ofBytes bytes = .ok v := by
  rw [decode]
  split
  · next v hv => exact (keepingTask good m here).pure v hv
  · exact keeping_throw _ _

theorem keeping_decodeAll [Wire τ] (parts : Parts) :
    (keepingTask good m here).holds (decodeAll parts : Task (List (Rank × τ))) fun _ => True := by
  induction parts with
  | nil => exact (keepingTask good m here).pure [] trivial
  | cons part parts ih =>
    refine (keepingTask good m here).chain (keeping_decode part.2) fun v _ => ?_
    exact (keepingTask good m here).seq ih fun vs => (keepingTask good m here).pure _ trivial

theorem keeping_broadcastBytes {payload : Bytes}
    (hpayload : here.rank = rootRank → (Conduct.nearby good m).tells payload) :
    (keepingTask good m here).holds (broadcastBytes payload) (Conduct.nearby good m).tells := by
  refine ⟨hpayload, fun reply hreply => ?_⟩
  cases reply with
  | ok bytes =>
    rintro _ ⟨⟩
    exact hreply bytes rfl
  | error fault =>
    intro bytes hbytes
    cases hbytes

theorem keeping_gatherBytes (payload : Bytes) :
    (keepingTask good m here).holds (gatherBytes payload) fun _ => True := by
  refine ⟨trivial, fun reply _ => ?_⟩
  cases reply with
  | ok parts => exact fun _ _ => trivial
  | error fault => exact fun _ _ => trivial

end Task

namespace Place

/-- A rank is told what the root may tell; the root has to keep to that. -/
theorem keeping_broadcast [Wire τ] {value : Option τ}
    (hvalue : here.rank = rootRank → ∀ v, value = some v → Wire.extent v < Wire.wordLimit →
      (Conduct.nearby good m).tells (Wire.toBytes v)) :
    (keepingTask good m here).holds (here.broadcast value) fun v =>
      ∃ bytes, (Conduct.nearby good m).tells bytes ∧ Wire.ofBytes bytes = .ok v := by
  have hdecode : ∀ bytes, (Conduct.nearby good m).tells bytes →
      (keepingTask good m here).holds (Task.decode bytes : Task τ) fun v =>
        ∃ bytes, (Conduct.nearby good m).tells bytes ∧ Wire.ofBytes bytes = .ok v :=
    fun bytes htells => (keepingTask good m here).mono _ (fun v hv => ⟨bytes, htells, hv⟩)
      (Task.keeping_decode bytes)
  rw [broadcast.eq_def]
  refine (keepingTask good m here).ite (fun hroot => ?_) fun hother => ?_
  · cases value with
    | none => exact (keepingTask good m here).chain (Task.keeping_throw _ _) hdecode
    | some v =>
      refine (keepingTask good m here).chain (Task.keeping_encode v) ?_
      rintro payload ⟨rfl, hfits⟩
      exact (keepingTask good m here).chain
        (Task.keeping_broadcastBytes fun hrank => hvalue hrank v rfl hfits) hdecode
  · exact (keepingTask good m here).chain
      (Task.keeping_broadcastBytes fun hrank => absurd (decide_eq_true hrank) hother) hdecode

/-- Commands of the root arrive as they were sent. -/
theorem keeping_command {value : Option Command}
    (hvalue : here.rank = rootRank → ∀ command ∈ value, command.Nearby good m) :
    (keepingTask good m here).holds (here.broadcast value) (Command.Nearby good m) := by
  refine (keepingTask good m here).mono _ ?_ (keeping_broadcast fun hroot command heq hfits => ?_)
  · rintro command ⟨bytes, htells, hread⟩
    exact htells command hread
  · intro command' hread
    rw [Wire.ofBytes_toBytes hfits] at hread
    cases hread
    exact hvalue hroot command heq

theorem keeping_gather [Wire τ] (v : τ) :
    (keepingTask good m here).holds (gather v) fun _ => True := by
  refine (keepingTask good m here).chain (Task.keeping_encode v) fun bytes _ => ?_
  refine (keepingTask good m here).seq (Task.keeping_gatherBytes bytes) fun parts => ?_
  cases parts with
  | none => exact (keepingTask good m here).pure none trivial
  | some parts =>
    exact (keepingTask good m here).seq (Task.keeping_decodeAll parts) fun _ =>
      (keepingTask good m here).pure _ trivial

/-- A broadcast of anything, followed by what keeps to the rules. -/
theorem begins_broadcast [Wire τ] {value : Option τ} (hvalue : here.isRoot → value ≠ none)
    {f : τ → Task α} (hf : ∀ v, (keepingTask good m here).holds (f v) fun _ => True) :
    Conduct.Begins (Conduct.nearby good m) here (here.broadcast value >>= f).run := by
  have hcall : ∀ payload : Bytes, Conduct.Begins (Conduct.nearby good m) here
      ((do let bytes ← Task.broadcastBytes payload; Task.decode bytes) >>= f : Task α).run := by
    intro payload reply
    cases reply with
    | ok bytes =>
      exact keeping_run
        ((keepingTask good m here).chain (Task.keeping_decode bytes) fun v _ => hf v)
    | error fault => trivial
  rw [broadcast.eq_def]
  cases hroot : here.isRoot with
  | false => exact hcall []
  | true =>
    cases value with
    | none => exact absurd rfl (hvalue hroot)
    | some v =>
      rw [if_pos rfl]
      dsimp only
      -- a command that is too long for a message panics before anything is sent
      by_cases hfits : Wire.extent v < Wire.wordLimit
      · rw [Task.encode_of_lt hfits]
        exact hcall (Wire.toBytes v)
      · rw [Task.encode, if_neg hfits]
        exact ⟨trivial, fun reply => reply.elim⟩

end Place

/-! ## Sessions -/

namespace Session

theorem keeping_ownBlock {kernel : Kernel Double} {x : List Double} {partition : Partition}
    (hcommand : (Command.columns x kernel partition).Nearby good m) :
    (keeping good m here).holds (ownBlock problem kernel x partition here) fun _ => True := by
  obtain ⟨hx, step, baseline, hm, rfl⟩ := hcommand
  refine (keeping good m here).seq (keeping_onRank ?_) fun result => ?_
  · exact (Kernel.nearing_columns problem hm baseline hx _).mono fun _ _ => trivial
  · cases result with
    | ok columns => trivial
    | error e => trivial

theorem keeping_request {kernel : Kernel Double} {x : List Double} {partition : Partition}
    (hcommand : (Command.columns x kernel partition).Nearby good m) :
    (keepingTask good m here).holds (request problem kernel x partition here) fun _ => True := by
  refine (keepingTask good m here).seq ?_ fun _ => ?_
  · refine (keepingTask good m here).mono _ (fun _ _ => trivial) (Place.keeping_command ?_)
    rintro - command ⟨⟩
    exact hcommand
  refine (keepingTask good m here).seq (Task.keeping_lift (keeping_ownBlock hcommand)) fun own => ?_
  refine (keepingTask good m here).seq (Place.keeping_gather own) fun gathered => ?_
  cases gathered with
  | none => exact Task.keeping_throw _ _
  | some reports =>
    dsimp only
    split
    · exact (keepingTask good m here).pure _ trivial
    · exact Task.keeping_throw _ _

/-- A rank that serves does what the commands say, which it relies on. -/
theorem keeping_serveFrom (hother : here.rank ≠ rootRank) (rounds served : Nat) :
    (keepingTask good m here).holds (serveFrom problem here rounds served) fun _ => True := by
  -- on the rounds: what a rank does with a command keeps to it, and then the rest follows
  induction rounds generalizing served with
  | zero => exact Task.keeping_ofLocal (nearing_outOfRange _ _)
  | succ rounds ih =>
    rw [serveFrom_succ]
    refine (keepingTask good m here).chain
      (Place.keeping_command fun hroot => absurd hroot hother) fun command hcommand => ?_
    cases command with
    | columns x kernel partition =>
      refine (keepingTask good m here).seq
        (Task.keeping_lift (keeping_ownBlock hcommand)) fun report => ?_
      refine (keepingTask good m here).seq ?_ fun _ => ?_
      · cases report with
        | ok columns => exact (keepingTask good m here).pure () trivial
        | error reason => exact Task.keeping_note _
      exact (keepingTask good m here).seq (Place.keeping_gather report) fun _ => ih (served + 1)
    | shutdown =>
      exact (keepingTask good m here).seq (Task.keeping_note _) fun _ =>
        (keepingTask good m here).pure served trivial
    | abort failures => exact Task.keeping_throw _ _

theorem keeping_release (error : Option (Error Double)) :
    (keepingTask good m here).holds (release here error) fun _ => True := by
  have hnearby : ∀ command ∈ some (releaseCommand error), command.Nearby good m := by
    intro command hcommand
    rw [← Option.mem_some_iff.mp hcommand]
    cases error with
    | none => trivial
    | some e =>
      rw [releaseCommand_some]
      trivial
  refine (keepingTask good m here).seq ?_ fun _ => (keepingTask good m here).pure () trivial
  exact (keepingTask good m here).mono _ (fun _ _ => trivial)
    (Place.keeping_command fun _ => hnearby)

/-- The handshake of a rank after the root's layout has come. -/
theorem keeping_acknowledge (mismatch : Option String) :
    (keepingTask good m here).holds (acknowledge here.rank mismatch) fun _ => True := by
  refine (keepingTask good m here).seq ?_ fun _ => ?_
  · cases mismatch with
    | none => exact (keepingTask good m here).pure () trivial
    | some reason => exact Task.keeping_note _
  · exact (keepingTask good m here).seq (Place.keeping_gather mismatch) fun _ =>
      (keepingTask good m here).pure () trivial

theorem keeping_settle (size : Nat) (acks : List (Rank × Option String)) :
    (keepingTask good m here).holds (settle size acks) fun _ => True := by
  rw [settle]
  split
  · exact Task.keeping_note _
  · exact Task.keeping_throw _ _

/-- A handshake opens with the root's layout. -/
theorem begins_handshake :
    Conduct.Begins (Conduct.nearby good m) here (handshake problem here).run := by
  obtain ⟨r, size⟩ := here
  by_cases hroot : r = rootRank
  · subst hroot
    rw [handshake_root]
    refine Place.begins_broadcast (fun _ => Option.some_ne_none _) fun _ => ?_
    refine (keepingTask good m _).seq (Place.keeping_gather _) fun acks => ?_
    cases acks with
    | none => exact Task.keeping_throw _ _
    | some acks => exact keeping_settle size acks
  · rw [handshake_other _ hroot]
    refine Place.begins_broadcast (fun h => absurd (of_decide_eq_true h) hroot) fun snapshot => ?_
    exact keeping_acknowledge _

/-- A rank that is only told something breaks no rule in a handshake. -/
theorem keeping_handshake (hother : here.rank ≠ rootRank) :
    (keepingTask good m here).holds (handshake problem here) fun _ => True := by
  obtain ⟨r, size⟩ := here
  rw [handshake_other _ hother]
  refine (keepingTask good m _).chain
    (Place.keeping_broadcast fun hroot => absurd hroot hother) fun snapshot _ => ?_
  exact keeping_acknowledge _

end Session

/-! ## Requests to an engine -/

namespace Engine

/-- The results, errors apart, of requests that keep to the rules. -/
abbrev keepingRequest (good : List Double → Prop) (m : Method Double) (here : Place) :
    Always Request :=
  ((keeping good m here).state fun _ : Memory => True).except (Error Double)

variable {x : List Double}

theorem keeping_ofTask {t : Task α} {post : α → Prop}
    (h : (keepingTask good m here).holds t post) :
    (keepingRequest good m here).holds (Request.ofTask t) post :=
  (keeping good m here).holds_lift_state t.run h

/-- The schemes of a method other than complex step. -/
def Scheme.Fits (m : Method Double) : Scheme → Prop
  | .forward step => m = .finiteDifference step
  | .complex _ => False
  | .analytic => True

theorem keeping_resolve {e : Engine} (hreal : ∀ step, e.method ≠ .complexStep step) :
    (keepingRequest good e.method here).holds (e.resolve problem x) (Scheme.Fits e.method) := by
  rw [resolve]
  cases hmethod : e.method with
  | finiteDifference step => exact (keepingRequest good _ here).pure _ rfl
  | analytic => exact (keepingRequest good _ here).pure _ trivial
  | complexStep step => exact absurd hmethod (hreal step)

theorem keeping_baseline (hx : good x) (known : Option (Evaluation Double)) :
    (keepingRequest good m here).holds (baseline problem x known) fun _ => True := by
  cases known with
  | some values => exact (keepingRequest good m here).pure _ trivial
  | none =>
    refine (keepingRequest good m here).seq
      (keeping_ofTask (Task.keeping_ofLocal (problem.nearing_evaluate (.inl hx)))) fun values => ?_
    exact (keepingRequest good m here).pure _ trivial

theorem keeping_columns (e : Engine) {kernel : Kernel Double}
    (hcommand : (Command.columns x kernel e.partition).Nearby good m) :
    (keepingTask good m here).holds (e.columns problem kernel x here) fun _ => True := by
  have hall : (nearing good m).holds (kernel.columns problem x (List.range x.length))
      fun _ => True := by
    obtain ⟨hx, step, baseline, hm, rfl⟩ := hcommand
    exact Kernel.nearing_columns problem hm baseline hx _
  rw [columns]
  cases e.mode with
  | sequential => exact Task.keeping_ofLocal hall
  | threads =>
    dsimp only
    split
    · exact keeping_onRank (Program.Meets.muted (fun _ => trivial) hall)
    · exact Task.keeping_ofLocal hall
  | parallel => exact Session.keeping_request hcommand

/-- A request for a Jacobian at a good point keeps to the rules, unless its method is complex
step. -/
theorem keeping_jacobianAt {e : Engine} (hreal : ∀ step, e.method ≠ .complexStep step)
    (hx : good x) (known : Option (Evaluation Double)) :
    (keepingRequest good e.method here).holds (e.jacobianAt problem x known here)
      fun _ => True := by
  have hthrow : ∀ error : Error Double, (keepingRequest good e.method here).holds
      (throw error : Request (Jacobian Double)) fun _ => True :=
    fun error _ _ => ⟨fun _ _ => trivial, trivial⟩
  rw [jacobianAt_eq]
  refine (keepingRequest good e.method here).ite (fun _ => hthrow _) fun _ => ?_
  refine (keepingRequest good e.method here).ite (fun _ => hthrow _) fun _ => ?_
  refine (keepingRequest good e.method here).seq (keeping_ofTask (Task.keeping_note _)) fun _ => ?_
  refine (keepingRequest good e.method here).chain (keeping_resolve hreal) fun scheme hscheme => ?_
  cases scheme with
  | analytic => exact keeping_ofTask (Task.keeping_ofLocal (nearing_analyticJacobian problem hx))
  | complex step => exact hscheme.elim
  | forward step =>
    refine (keepingRequest good e.method here).seq (keeping_baseline hx known) fun baseline => ?_
    refine (keepingRequest good e.method here).seq
      (keeping_ofTask (keeping_columns e ⟨hx, step, _, hscheme, rfl⟩)) fun columns => ?_
    exact keeping_ofTask (Task.keeping_liftM _)

end Engine

end Nlp
