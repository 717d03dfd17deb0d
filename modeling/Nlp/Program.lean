/-!
# Programs over an interface

A program is a tree of calls: it is finished, or it makes one call and goes on as the reply
says.  Solvers, derivative requests and rank sessions are programs, so that what they ask for,
in which order and at which points, is a fact about a definition and not about a run.

## Main definitions

* `Interface`: the calls a program may make and the type of each reply.
* `Program I ρ`: call trees with result `ρ`; a lawful monad.
* `Program.interpret`: a program carried out in another monad, such as programs over a lower
  interface with state and errors.
* `Program.run`: a program answered by a handler with state, which may also stop it.

## Main results

* `Program.bind_assoc` and the monad laws.
* `Program.interpret_bind`: interpretation follows the sequence of a program.
-/

namespace Nlp

/-- The calls a program may make, and what each is answered with. -/
structure Interface where
  /-- The calls. -/
  Call : Type
  /-- What a call is answered with. -/
  Reply : Call → Type

/-- A tree of calls over the interface `I` whose leaves hold results. -/
inductive Program (I : Interface) (ρ : Type) : Type where
  /-- The program is finished. -/
  | done (result : ρ)
  /-- The program makes a call and goes on with its reply. -/
  | call (c : I.Call) (next : I.Reply c → Program I ρ)

namespace Program

variable {I J : Interface} {ρ σ τ : Type}

/-- First `p`, then `f` of its result. -/
def bind : Program I ρ → (ρ → Program I σ) → Program I σ
  | done r, f => f r
  | call c next, f => call c fun reply => (next reply).bind f

instance : Monad (Program I) where
  pure := done
  bind := bind

/-- One call, whose reply is the result. -/
def perform (c : I.Call) : Program I (I.Reply c) :=
  call c done

/-! ## Monad laws -/

@[simp] theorem pure_eq_done (r : ρ) : (pure r : Program I ρ) = done r := rfl

@[simp] theorem bind_eq (p : Program I ρ) (f : ρ → Program I σ) : p >>= f = p.bind f := rfl

@[simp] theorem bind_done (r : ρ) (f : ρ → Program I σ) : (done r).bind f = f r := rfl

@[simp] theorem bind_call (c : I.Call) (next : I.Reply c → Program I ρ) (f : ρ → Program I σ) :
    (call c next).bind f = call c fun reply => (next reply).bind f := rfl

theorem bind_pure (p : Program I ρ) : p.bind done = p := by
  induction p with
  | done r => rfl
  | call c next ih => simp [ih]

theorem bind_assoc (p : Program I ρ) (f : ρ → Program I σ) (g : σ → Program I τ) :
    (p.bind f).bind g = p.bind fun r => (f r).bind g := by
  induction p with
  | done r => rfl
  | call c next ih => simp [ih]

instance : LawfulMonad (Program I) :=
  LawfulMonad.mk' (Program I) (fun p => bind_pure p) (fun _ _ => rfl) fun p f g =>
    bind_assoc p f g

/-! ## Interpretation and runs -/

/-- A program carried out in a monad that answers its calls. -/
@[specialize]
def interpret {m : Type → Type} [Monad m] (answer : (c : I.Call) → m (I.Reply c)) :
    Program I ρ → m ρ
  | done r => pure r
  | call c next => answer c >>= fun reply => (next reply).interpret answer

@[simp] theorem interpret_done {m : Type → Type} [Monad m] (answer : (c : I.Call) → m (I.Reply c))
    (r : ρ) : (done r).interpret answer = pure r := rfl

@[simp] theorem interpret_call {m : Type → Type} [Monad m] (answer : (c : I.Call) → m (I.Reply c))
    (c : I.Call) (next : I.Reply c → Program I ρ) :
    (call c next).interpret answer = answer c >>= fun reply => (next reply).interpret answer := rfl

theorem interpret_bind {m : Type → Type} [Monad m] [LawfulMonad m]
    (answer : (c : I.Call) → m (I.Reply c)) (p : Program I ρ) (f : ρ → Program I σ) :
    (p.bind f).interpret answer = p.interpret answer >>= fun r => (f r).interpret answer := by
  induction p with
  | done r => simp
  | call c next ih => simp [ih]

/-- How a run ended, with the state it left. -/
inductive Ending (ρ σ : Type) where
  /-- The program came to its result. -/
  | finished (result : ρ) (state : σ)
  /-- The handler stopped the program at a call. -/
  | stopped (state : σ)

/-- The run of a program whose calls are answered by `handler`; no answer stops it. -/
def run (handler : (c : I.Call) → σ → Option (I.Reply c) × σ) : Program I ρ → σ → Ending ρ σ
  | done r, s => .finished r s
  | call c next, s =>
    match handler c s with
    | (some reply, s) => (next reply).run handler s
    | (none, s) => .stopped s

end Program

end Nlp
