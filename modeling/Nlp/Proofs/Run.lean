import Nlp.Program

/-!
# Runs part by part

A run of a sequence is the run of its first part, and from the result and the state that leaves the
run of the second.  Calls whose replies are known can be left out of a program, and of its runs.

## Main definitions

* `Program.Ending.result?`: the result of a run that has come to one.
* `Program.calls`: the calls of a run.
* `Program.absorb`: a program without the calls whose replies are known.

## Main results

* `Program.run_bind`: runs of programs.
* `Program.run_except_bind`: runs of programs that may fail.
* `Program.run_absorb`, `Program.calls_absorb`: runs without the calls whose replies are known.
-/

namespace Nlp.Program

variable {I : Interface} {σ α β ε : Type}
  (handler : (c : I.Call) → σ → Option (I.Reply c) × σ)

theorem run_bind (p : Program I α) (f : α → Program I β) (s : σ) :
    (p.bind f).run handler s =
      match p.run handler s with
      | .finished a s => (f a).run handler s
      | .stopped s => .stopped s := by
  induction p generalizing s with
  | done a => rfl
  | call c next ih =>
    rw [bind_call, run, run]
    rcases handler c s with ⟨_ | reply, s'⟩
    · rfl
    · exact ih reply s'

/-- A sequence that may fail goes on from the result of its first part. -/
theorem run_except_bind (p : ExceptT ε (Program I) α) (f : α → ExceptT ε (Program I) β) (s : σ) :
    (p >>= f).run.run handler s =
      match p.run.run handler s with
      | .finished (.ok a) s => (f a).run.run handler s
      | .finished (.error e) s => .finished (.error e) s
      | .stopped s => .stopped s := by
  rw [ExceptT.run_bind, bind_eq, run_bind]
  cases p.run.run handler s with
  | stopped s' => rfl
  | finished result s' =>
    cases result with
    | ok a => rfl
    | error e => rfl

/-- The calls of a run, up to the one at which it stops. -/
def calls (handler : (c : I.Call) → σ → Option (I.Reply c) × σ) : Program I α → σ → List I.Call
  | done _, _ => []
  | call c next, s =>
    c ::
      match handler c s with
      | (some reply, s) => (next reply).calls handler s
      | (none, _) => []

variable {handler}

/-- A sequence has come to its end where both of its parts have. -/
theorem run_bind_eq_finished {p : Program I α} {f : α → Program I β} {s s' : σ} {b : β} :
    (p.bind f).run handler s = .finished b s' ↔
      ∃ a s₁, p.run handler s = .finished a s₁ ∧ (f a).run handler s₁ = .finished b s' := by
  rw [run_bind]
  cases p.run handler s with
  | stopped s₁ => exact ⟨nofun, fun ⟨_, _, h, _⟩ => nomatch h⟩
  | finished a s₁ =>
    constructor
    · exact fun h => ⟨a, s₁, rfl, h⟩
    · rintro ⟨_, _, ⟨⟩, h⟩
      exact h

/-- The result, if the program came to one. -/
def Ending.result? : Ending α σ → Option α
  | .finished a _ => some a
  | .stopped _ => none

theorem Ending.exists_of_result? {ending : Ending α σ} {f : α → β} {b : β}
    (h : ending.result?.map f = some b) : ∃ a s, ending = .finished a s ∧ f a = b := by
  cases ending with
  | stopped s => cases h
  | finished a s => exact ⟨a, s, rfl, Option.some.inj h⟩

/-! ## Calls whose replies are known -/

/-- The program without the calls whose replies are known. -/
def absorb (known : (c : I.Call) → Option (I.Reply c)) : Program I α → Program I α
  | done r => done r
  | call c next =>
    match known c with
    | some reply => (next reply).absorb known
    | none => call c fun reply => (next reply).absorb known

variable {known : (c : I.Call) → Option (I.Reply c)}

theorem absorb_bind (p : Program I α) (f : α → Program I β) :
    (p.bind f).absorb known = (p.absorb known).bind fun r => (f r).absorb known := by
  induction p with
  | done r => rfl
  | call c next ih =>
    rw [bind_call, absorb, absorb]
    split
    · next reply _ => exact ih reply
    · exact congrArg (call c) (funext ih)

/-- A run does not depend on calls whose replies are known and which leave no trace. -/
theorem run_absorb (h : ∀ c reply, known c = some reply → ∀ s, handler c s = (some reply, s))
    (p : Program I α) (s : σ) : (p.absorb known).run handler s = p.run handler s := by
  -- on the calls: one whose reply is known would have left the state as it is
  induction p generalizing s with
  | done r => rfl
  | call c next ih =>
    rw [absorb]
    split
    · next reply hknown => rw [run, h c reply hknown s, ih]
    · rw [run, run]
      rcases handler c s with ⟨_ | reply, s'⟩
      · rfl
      · exact ih reply s'

/-- The other calls of a run are the same without them. -/
theorem calls_absorb (h : ∀ c reply, known c = some reply → ∀ s, handler c s = (some reply, s))
    (p : Program I α) (s : σ) :
    (p.absorb known).calls handler s = (p.calls handler s).filter fun c => (known c).isNone := by
  -- on the calls, of which just those with a known reply disappear
  induction p generalizing s with
  | done r => rfl
  | call c next ih =>
    rw [absorb]
    split
    · next reply hknown =>
      rw [calls, h c reply hknown s, List.filter_cons_of_neg (by simp [hknown]), ih]
    · next hknown =>
      rw [calls, calls, List.filter_cons_of_pos (by simp [hknown])]
      rcases handler c s with ⟨_ | reply, s'⟩
      · rfl
      · exact congrArg (c :: ·) (ih reply s')

end Nlp.Program
