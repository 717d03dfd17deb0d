import Nlp.Proofs.Contract
import Nlp.Proofs.Solver.Basic

/-!
# Runs on pure callbacks

Callbacks without state: values and Jacobian are functions of the point, which may fail.  A run on
them is an option, none where an index fell outside its vector, of a result or a failure.

## Main definitions

* `PureCallbacks`: the two functions, and `PureCallbacks.run`, a run on them.
* `PureCallbacks.ensures`: every result of a run has a property.

## Main results

* `PureCallbacks.run_bind_eq_ok`: a sequence has a result when both parts have.
* `PureCallbacks.of_run`, `PureCallbacks.run_eq_some`: from the judgments to the run itself.
* `PureCallbacks.run_interpret_of_yields`: an interpreted program comes to what it can come to.
-/

namespace Nlp

/-- A run that may fail has a result when both of its parts have. -/
theorem Run.yields_bind {α ε β γ : Type} {C : Contract (callbacks α ε)} {x : Run α ε β}
    {f : β → Run α ε γ} {c : γ} :
    (x >>= f).run.Yields C (.ok c) ↔
      ∃ b, x.run.Yields C (.ok b) ∧ (f b).run.Yields C (.ok c) := by
  rw [ExceptT.run_bind, Program.bind_eq, Program.yields_bind]
  constructor
  · rintro ⟨_ | b, hb, h⟩
    · cases h
    · exact ⟨b, hb, h⟩
  · rintro ⟨b, hb, h⟩
    exact ⟨.ok b, hb, h⟩

/-- Callbacks that depend on the point only. -/
structure PureCallbacks (α ε : Type) where
  /-- Objective and constraints at a point. -/
  evaluate : List α → Except ε (Values α)
  /-- The Jacobian at a point. -/
  jacobian : List α → Except ε (Matrix α)

namespace PureCallbacks

variable {α ε β γ : Type}

section

variable (P : PureCallbacks α ε)

/-- The answers to the calls of a run. -/
def answer : (c : (callbacks α ε).Call) → Option ((callbacks α ε).Reply c)
  | .evaluate x => some (P.evaluate x)
  | .jacobian x => some (P.jacobian x)
  | .report _ => some ()
  | .outOfRange _ _ => none

/-- A run on these callbacks. -/
def run (x : Run α ε β) : Option (Except (Failure α ε) β) :=
  x.run.interpret P.answer

@[simp] theorem run_pure (b : β) : P.run (pure b) = some (.ok b) := rfl

/-- A run goes on from the result of its first part, and fails where that fails. -/
theorem run_bind (x : Run α ε β) (f : β → Run α ε γ) :
    P.run (x >>= f) = (P.run x).bind fun
      | .ok b => P.run (f b)
      | .error e => some (.error e) := by
  unfold run
  rw [ExceptT.run_bind, Program.bind_eq, Program.interpret_bind]
  refine congrArg (Option.bind _) (funext fun r => ?_)
  cases r <;> rfl

end

variable {P : PureCallbacks α ε}

theorem run_bind_eq_ok {x : Run α ε β} {f : β → Run α ε γ} {c : γ} :
    P.run (x >>= f) = some (.ok c) ↔
      ∃ b, P.run x = some (.ok b) ∧ P.run (f b) = some (.ok c) := by
  rw [run_bind]
  rcases P.run x with _ | _ | b <;> simp

/-- A run whose first part has a result is its second part on that. -/
theorem run_bind_of_ok {x : Run α ε β} {f : β → Run α ε γ} {b : β} (h : P.run x = some (.ok b)) :
    P.run (x >>= f) = P.run (f b) := by
  rw [run_bind, h]
  rfl

/-- A run whose first part has gone astray has, too. -/
theorem run_bind_of_none {x : Run α ε β} {f : β → Run α ε γ} (h : P.run x = none) :
    P.run (x >>= f) = none := by
  rw [run_bind, h]
  rfl

theorem run_bind_state_eq_ok {σ : Type} {x : StateT σ (Run α ε) β} {f : β → StateT σ (Run α ε) γ}
    {s : σ} {c : γ × σ} :
    P.run ((x >>= f).run s) = some (.ok c) ↔
      ∃ b, P.run (x.run s) = some (.ok b) ∧ P.run ((f b.1).run b.2) = some (.ok c) :=
  run_bind_eq_ok

theorem run_evaluate {x : List α} {values : Values α} (h : P.evaluate x = .ok values) :
    P.run (Run.evaluate x) = some (.ok values) := by
  simp [run, Run.evaluate, Program.perform, answer, h]

theorem run_jacobian {x : List α} {a : Matrix α} (h : P.jacobian x = .ok a) :
    P.run (Run.jacobian x) = some (.ok a) := by
  simp [run, Run.jacobian, Program.perform, answer, h]

theorem run_shaped {a : Matrix α} {rows cols : Nat} {entries : Vector (Vector α cols) rows}
    (h : a.shaped? rows cols = some entries) :
    P.run (Run.shaped a rows cols) = some (.ok entries) := by
  rw [Run.shaped, h]
  rfl

/-- Whatever a run asks, it is answered as these callbacks answer. -/
def contract (P : PureCallbacks α ε) : Contract (callbacks α ε) where
  asks _ := True
  replies c reply := P.answer c = some reply

/-- Every result of the run has the property. -/
def ensures (P : PureCallbacks α ε) : Always (Run α ε) :=
  (Always.program P.contract).except (Failure α ε)

theorem of_run {x : Run α ε β} {post : β → Prop} (h : P.ensures.holds x post) {b : β}
    (hrun : P.run x = some (.ok b)) : post b :=
  Program.Meets.interpret Always.option (fun _ _ _ hreply => hreply) h _ hrun b rfl

/-- What a run comes to is what it can come to on these replies. -/
theorem run_eq_some {x : Run α ε β} {r : Except (Failure α ε) β} :
    P.run x = some r ↔ x.run.Yields P.contract r := by
  unfold run
  generalize x.run = p
  -- on the calls: each has one reply, or none
  induction p with
  | done r' => exact Option.some_inj.trans eq_comm
  | call c next ih =>
    simp only [Program.interpret_call, Option.bind_eq_bind, Option.bind_eq_some_iff, ih,
      Program.yields_call, contract]

theorem ensures_evaluate (x : List α) :
    P.ensures.holds (Run.evaluate x) fun values => P.evaluate x = .ok values := by
  refine ⟨trivial, fun reply hreply => ?_⟩
  obtain rfl := Option.some.inj hreply
  cases P.evaluate x with
  | error e => exact fun _ h => nomatch h
  | ok values =>
    rintro _ ⟨⟩
    rfl

theorem ensures_jacobian (x : List α) :
    P.ensures.holds (Run.jacobian x) fun matrix => P.jacobian x = .ok matrix := by
  refine ⟨trivial, fun reply hreply => ?_⟩
  obtain rfl := Option.some.inj hreply
  cases P.jacobian x with
  | error e => exact fun _ h => nomatch h
  | ok matrix =>
    rintro _ ⟨⟩
    rfl

theorem ensures_report (p : Progress α) :
    P.ensures.holds (Run.report p) fun _ => True :=
  ⟨trivial, fun _ _ _ _ => trivial⟩

theorem ensures_refuse (e : SolverError α) (post : β → Prop) :
    P.ensures.holds (Run.refuse e) post :=
  fun _ h => nomatch h

theorem ensures_outOfRange (index size : Nat) (post : β → Prop) :
    P.ensures.holds (Run.outOfRange index size) post :=
  ⟨trivial, fun e => nomatch e⟩

theorem ensures_shaped (a : Matrix α) (rows cols : Nat) :
    P.ensures.holds (Run.shaped a rows cols) fun entries => a.shaped? rows cols = some entries := by
  unfold Run.shaped
  split
  · next entries h => exact P.ensures.pure entries h
  · split
    · exact ensures_refuse _ _
    · exact ensures_refuse _ _

/-! ### Programs over the callbacks -/

section

variable {I : Interface} {ρ σ : Type} {C : Contract I}

/-- What a program can come to where all replies are those of the callbacks, it comes to. -/
theorem run_interpret_of_yields {answer : (c : I.Call) → Run α ε (I.Reply c)}
    (hanswer : ∀ c reply, C.replies c reply → P.run (answer c) = some (.ok reply))
    {p : Program I ρ} {r : ρ} (h : p.Yields C r) : P.run (p.interpret answer) = some (.ok r) := by
  induction p with
  | done r' =>
    obtain rfl := h
    rfl
  | call c next ih =>
    obtain ⟨reply, hreply, h⟩ := h
    exact run_bind_eq_ok.mpr ⟨reply, hanswer c reply hreply, ih reply h⟩

/-- The same of answers that keep a state with an invariant. -/
theorem run_interpret_state_of_yields {inv : σ → Prop}
    {answer : (c : I.Call) → StateT σ (Run α ε) (I.Reply c)}
    (hanswer : ∀ c reply s, inv s → C.replies c reply →
      ∃ s', inv s' ∧ P.run ((answer c).run s) = some (.ok (reply, s')))
    {p : Program I ρ} {r : ρ} (h : p.Yields C r) {s : σ} (hs : inv s) :
    ∃ s', inv s' ∧ P.run ((p.interpret answer).run s) = some (.ok (r, s')) := by
  -- on the calls of the program, with the invariant of the state
  induction p generalizing s with
  | done r' =>
    obtain rfl := h
    exact ⟨s, hs, rfl⟩
  | call c next ih =>
    obtain ⟨reply, hreply, h⟩ := h
    obtain ⟨s₁, hs₁, hrun⟩ := hanswer c reply s hs hreply
    obtain ⟨s₂, hs₂, hrest⟩ := ih reply h hs₁
    exact ⟨s₂, hs₂, run_bind_state_eq_ok.mpr ⟨_, hrun, hrest⟩⟩

end

end PureCallbacks

end Nlp
