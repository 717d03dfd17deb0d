import Nlp.Proofs.Run

/-!
# Computations that are the same but for what does not count

Two programs are alike if nothing tells them apart but calls whose replies are known.  The relation
follows sequences, errors, states, and the interpretation of one interface in another, as long as
what does not count above does not count below either.

## Main definitions

* `Likeness m`: an equivalence of the computations in `m` that follows sequences.
* `Likeness.program`, `Likeness.except`, `Likeness.state`: likeness of programs, and of computations
  with errors and with state.

## Main results

* `Likeness.interpret`: programs that are alike stay alike when they are interpreted.
-/

namespace Nlp

/-- An equivalence of computations that follows sequences. -/
structure Likeness (m : Type → Type) [Monad m] where
  /-- The computations are alike. -/
  rel : {β : Type} → m β → m β → Prop
  /-- To be alike is an equivalence. -/
  equivalence : ∀ β : Type, Equivalence (rel (β := β))
  /-- Sequences are alike if their parts are. -/
  bind : ∀ {β γ : Type} {x y : m β} {f g : β → m γ},
    rel x y → (∀ b, rel (f b) (g b)) → rel (x >>= f) (y >>= g)

namespace Likeness

variable {m : Type → Type} [Monad m]

/-- Programs that are the same but for calls whose replies are known. -/
def program {I : Interface} (known : (c : I.Call) → Option (I.Reply c)) :
    Likeness (Program I) where
  rel p q := p.absorb known = q.absorb known
  equivalence _ := ⟨fun _ => rfl, Eq.symm, Eq.trans⟩
  bind {_ _ x y f g} h hf := by
    rw [Program.bind_eq, Program.bind_eq, Program.absorb_bind, Program.absorb_bind, h]
    exact congrArg _ (funext hf)

variable (L : Likeness m)

theorem refl {β : Type} (x : m β) : L.rel x x :=
  (L.equivalence β).refl x

variable {L}

theorem symm {β : Type} {x y : m β} (h : L.rel x y) : L.rel y x :=
  (L.equivalence β).symm h

theorem trans {β : Type} {x y z : m β} (h : L.rel x y) (h' : L.rel y z) : L.rel x z :=
  (L.equivalence β).trans h h'

variable (L)

/-- Computations with errors that are alike as computations without. -/
def except (ε : Type) : Likeness (ExceptT ε m) where
  rel x y := L.rel x.run y.run
  equivalence _ := ⟨fun x => L.refl x.run, L.symm, L.trans⟩
  bind {_ _ x y f g} h hf := by
    refine L.bind h fun r => ?_
    cases r with
    | ok b => exact hf b
    | error e => exact L.refl _

/-- Computations with state that are alike from every state. -/
def state (σ : Type) : Likeness (StateT σ m) where
  rel x y := ∀ s, L.rel (x.run s) (y.run s)
  equivalence _ :=
    ⟨fun x s => L.refl (x.run s), fun h s => L.symm (h s), fun h h' s => L.trans (h s) (h' s)⟩
  bind h hf s := L.bind (h s) fun r => hf r.1 r.2

variable {L}

theorem lift {σ β : Type} {x y : m β} (h : L.rel x y) :
    (L.state σ).rel (StateT.lift x) (StateT.lift y) :=
  fun _ => L.bind h fun _ => L.refl _

theorem ite {β : Type} {c : Prop} [Decidable c] {x x' y y' : m β} (h : c → L.rel x x')
    (h' : ¬ c → L.rel y y') : L.rel (if c then x else y) (if c then x' else y') := by
  split
  · next hc => exact h hc
  · next hc => exact h' hc

/-- What is like both branches is like the choice between them. -/
theorem either {β : Type} {c : Prop} [Decidable c] {x y z : m β} (hx : L.rel x z)
    (hy : L.rel y z) : L.rel (if c then x else y) z := by
  split
  · exact hx
  · exact hy

/-- Choices are alike, however they are made, if the branches of both are. -/
theorem either_either {β : Type} {c c' : Prop} [Decidable c] [Decidable c'] {x y x' y' z z' : m β}
    (hx : L.rel x z) (hy : L.rel y z) (hx' : L.rel x' z') (hy' : L.rel y' z') (h : L.rel z z') :
    L.rel (if c then x else y) (if c' then x' else y') :=
  L.trans (L.either hx hy) (L.trans h (L.symm (L.either hx' hy')))

/-- A computation that is like a constant need not be carried out. -/
theorem skip [LawfulMonad m] {β γ : Type} {x : m β} {b : β} (h : L.rel x (pure b)) (f : β → m γ) :
    L.rel (x >>= f) (f b) := by
  have hskip := L.bind h fun b => L.refl (f b)
  rwa [pure_bind] at hskip

section

variable [LawfulMonad m] {I : Interface} {known : (c : I.Call) → Option (I.Reply c)}
  {answer : (c : I.Call) → m (I.Reply c)} {ρ : Type}

/-- Calls whose replies are known need not be interpreted. -/
theorem interpret_absorb (h : ∀ c reply, known c = some reply → L.rel (answer c) (pure reply))
    (p : Program I ρ) : L.rel (p.interpret answer) ((p.absorb known).interpret answer) := by
  induction p with
  | done r => exact L.refl _
  | call c next ih =>
    rw [Program.absorb]
    split
    · next reply hknown => exact L.trans (L.skip (h c reply hknown) _) (ih reply)
    · exact L.bind (L.refl _) ih

/-- Programs that are the same but for calls whose replies are known stay alike when they are
interpreted. -/
theorem interpret (h : ∀ c reply, known c = some reply → L.rel (answer c) (pure reply))
    {p q : Program I ρ} (hpq : (program known).rel p q) :
    L.rel (p.interpret answer) (q.interpret answer) := by
  have hp := L.interpret_absorb h p
  rw [show p.absorb known = q.absorb known from hpq] at hp
  exact L.trans hp (L.symm (L.interpret_absorb h q))

end

end Likeness

end Nlp
