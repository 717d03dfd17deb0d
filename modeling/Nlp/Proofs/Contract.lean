import Nlp.Program

/-!
# Contracts of programs

What a program relies on and what it can be relied on for: a contract names the calls a program
may make and the replies it may be given, and a program meets a contract with a postcondition when
every run that is given such replies makes such calls only and ends in a result with that
property.  A postcondition carries over to whatever monad the calls are answered in, as long as
that monad can say that all its results have a property.

## Main definitions

* `Contract I`: the calls and the replies of an interface; `Contract.anything` asks for nothing.
* `Program.Meets C post`: the judgment, by recursion on the program.
* `Program.Yields C r`: on replies of the contract the program can come to this result;
  `Program.Makes C c`, to this call.
* `Always m`: a reading of "every result has this property" for the monad `m`, for options,
  programs, and computations with errors, be they covered or not, and with state.

## Main results

* `Program.meets_bind`, `Program.Meets.mono`: sequence and consequence.
* `Program.Meets.of_run`: the result of a run has the postcondition, if the handler keeps the
  contract.
* `Program.Meets.interpret`: the results of an interpreted program have its postcondition, if the
  answers keep the contract.
* `Program.Meets.yields`: the strongest postcondition; `Program.yields_interpret`, of an interpreted
  program.
-/

namespace Nlp

/-- A computation with errors has a result when all its parts have. -/
theorem bind_eq_ok {ε β γ : Type} {x : Except ε β} {f : β → Except ε γ} {c : γ} :
    x >>= f = .ok c ↔ ∃ b, x = .ok b ∧ f b = .ok c := by
  cases x with
  | error e => exact ⟨(nomatch ·), fun ⟨_, h, _⟩ => nomatch h⟩
  | ok b => exact ⟨fun h => ⟨b, rfl, h⟩, fun ⟨_, h, hf⟩ => Except.ok.inj h ▸ hf⟩

/-- A computation with errors fails when its first part does, or its second part after that. -/
theorem bind_eq_error {ε β γ : Type} {x : Except ε β} {f : β → Except ε γ} {e : ε} :
    x >>= f = .error e ↔ x = .error e ∨ ∃ b, x = .ok b ∧ f b = .error e := by
  cases x with
  | error e' =>
    constructor
    · intro h
      exact .inl (congrArg Except.error (Except.error.inj h))
    · rintro (h | ⟨b, h, -⟩)
      · exact congrArg Except.error (Except.error.inj h)
      · cases h
  | ok b =>
    constructor
    · intro h
      exact .inr ⟨b, rfl, h⟩
    · rintro (h | ⟨b', h, hf⟩)
      · cases h
      · obtain rfl := Except.ok.inj h
        exact hf

/-- What a program may ask, and what it may be answered. -/
structure Contract (I : Interface) where
  /-- The calls that may be made. -/
  asks : I.Call → Prop
  /-- The replies that may be given. -/
  replies : (c : I.Call) → I.Reply c → Prop

/-- Anything may be asked, and anything may be answered. -/
def Contract.anything (I : Interface) : Contract I :=
  ⟨fun _ => True, fun _ _ => True⟩

namespace Program

variable {I J : Interface} {ρ τ : Type}

/-- On replies the contract allows, the program makes calls the contract allows, and its result
satisfies `post`. -/
def Meets (C : Contract I) (post : ρ → Prop) : Program I ρ → Prop
  | done r => post r
  | call c next => C.asks c ∧ ∀ reply, C.replies c reply → (next reply).Meets C post

variable {C : Contract I} {post : ρ → Prop}

@[simp] theorem meets_done (r : ρ) : (done r : Program I ρ).Meets C post ↔ post r := Iff.rfl

@[simp] theorem meets_call (c : I.Call) (next : I.Reply c → Program I ρ) :
    (call c next).Meets C post ↔
      C.asks c ∧ ∀ reply, C.replies c reply → (next reply).Meets C post := Iff.rfl

@[simp] theorem meets_perform (c : I.Call) {post : I.Reply c → Prop} :
    (perform c).Meets C post ↔ C.asks c ∧ ∀ reply, C.replies c reply → post reply := Iff.rfl

/-- A sequence meets a contract part by part. -/
theorem meets_bind (p : Program I ρ) (f : ρ → Program I τ) {post : τ → Prop} :
    (p.bind f).Meets C post ↔ p.Meets C fun r => (f r).Meets C post := by
  induction p with
  | done r => rfl
  | call c next ih => simp only [bind_call, meets_call, ih]

/-- Where anything may be asked, there is nothing to keep to. -/
theorem meets_of_asks (hasks : ∀ c, C.asks c) (p : Program I ρ) : p.Meets C fun _ => True := by
  induction p with
  | done r => trivial
  | call c next ih => exact ⟨hasks c, fun reply _ => ih reply⟩

/-- The same where anything may be answered, too. -/
theorem meets_anything (p : Program I ρ) : p.Meets (.anything I) fun _ => True :=
  meets_of_asks (fun _ => trivial) p

theorem Meets.mono {post' : ρ → Prop} (himp : ∀ r, post r → post' r) {p : Program I ρ}
    (hp : p.Meets C post) : p.Meets C post' := by
  induction p with
  | done r => exact himp r hp
  | call c next ih => exact ⟨hp.1, fun reply hreply => ih reply (hp.2 reply hreply)⟩

/-- A contract that allows more calls and promises less is met, too. -/
theorem Meets.weaken {C' : Contract I} (hasks : ∀ c, C.asks c → C'.asks c)
    (hreplies : ∀ c reply, C'.replies c reply → C.replies c reply) {p : Program I ρ}
    (hp : p.Meets C post) : p.Meets C' post := by
  induction p with
  | done r => exact hp
  | call c next ih =>
    exact ⟨hasks c hp.1, fun reply hreply => ih reply (hp.2 reply (hreplies c reply hreply))⟩

/-- What a run comes to has the property, if it is answered as the contract has it. -/
theorem Meets.of_run {σ : Type} {handler : (c : I.Call) → σ → Option (I.Reply c) × σ}
    (hreplies : ∀ c s reply, (handler c s).1 = some reply → C.replies c reply) {s s' : σ}
    {p : Program I ρ} {r : ρ} (hp : p.Meets C post) (h : p.run handler s = .finished r s') :
    post r := by
  -- on the calls: what a reply has to satisfy is what the handler gives
  induction p generalizing s with
  | done r =>
    obtain ⟨rfl, -⟩ := Ending.finished.inj h
    exact hp
  | call c next ih =>
    rw [run] at h
    split at h
    · next reply s₁ hreply =>
      exact ih reply (hp.2 reply (hreplies c s reply (congrArg Prod.fst hreply))) h
    · cases h

/-- What a run comes to has the property, whatever it was answered. -/
theorem Meets.of_finished {σ : Type} {handler : (c : I.Call) → σ → Option (I.Reply c) × σ}
    {s s' : σ} {p : Program I ρ} {r : ρ} (hp : p.Meets (.anything I) post)
    (h : p.run handler s = .finished r s') : post r :=
  hp.of_run (fun _ _ _ _ => trivial) h

theorem Meets.and {post' : ρ → Prop} {p : Program I ρ} (hp : p.Meets C post)
    (hp' : p.Meets C post') : p.Meets C fun r => post r ∧ post' r := by
  induction p with
  | done r => exact ⟨hp, hp'⟩
  | call c next ih =>
    exact ⟨hp.1, fun reply hreply => ih reply (hp.2 reply hreply) (hp'.2 reply hreply)⟩

/-! ### Results a program can come to -/

/-- On some replies that the contract allows, the program comes to this result. -/
def Yields (C : Contract I) : Program I ρ → ρ → Prop
  | done r, r' => r' = r
  | call c next, r' => ∃ reply, C.replies c reply ∧ (next reply).Yields C r'

@[simp] theorem yields_done {r r' : ρ} : (done r : Program I ρ).Yields C r' ↔ r' = r := Iff.rfl

@[simp] theorem yields_call {c : I.Call} {next : I.Reply c → Program I ρ} {r : ρ} :
    (call c next).Yields C r ↔ ∃ reply, C.replies c reply ∧ (next reply).Yields C r := Iff.rfl

/-- A result of a sequence is one of its second part, on a result of the first. -/
theorem yields_bind {p : Program I ρ} {f : ρ → Program I τ} {t : τ} :
    (p.bind f).Yields C t ↔ ∃ r, p.Yields C r ∧ (f r).Yields C t := by
  induction p with
  | done r => simp
  | call c next ih =>
    simp only [bind_call, yields_call, ih]
    exact ⟨fun ⟨reply, hreply, r, hr, ht⟩ => ⟨r, ⟨reply, hreply, hr⟩, ht⟩,
      fun ⟨r, ⟨reply, hreply, hr⟩, ht⟩ => ⟨reply, hreply, r, hr, ht⟩⟩

/-- The strongest postcondition: the results are those the program can come to. -/
theorem Meets.yields {p : Program I ρ} (hp : p.Meets C post) : p.Meets C (p.Yields C) := by
  induction p with
  | done r => exact rfl
  | call c next ih =>
    exact ⟨hp.1, fun reply hreply =>
      (ih reply (hp.2 reply hreply)).mono fun r hr => ⟨reply, hreply, hr⟩⟩

/-- A result the program can come to has its postcondition. -/
theorem Meets.of_yields {p : Program I ρ} (hp : p.Meets C post) {r : ρ} (hr : p.Yields C r) :
    post r := by
  induction p with
  | done r' =>
    obtain rfl := hr
    exact hp
  | call c next ih =>
    obtain ⟨reply, hreply, hr⟩ := hr
    exact ih reply (hp.2 reply hreply) hr

/-- Where more replies are allowed, the program comes to the same results and maybe others. -/
theorem Yields.mono {C' : Contract I} (hreplies : ∀ c reply, C.replies c reply → C'.replies c reply)
    {p : Program I ρ} {r : ρ} (h : p.Yields C r) : p.Yields C' r := by
  induction p with
  | done r' => exact h
  | call c next ih =>
    obtain ⟨reply, hreply, h⟩ := h
    exact ⟨reply, hreplies c reply hreply, ih reply h⟩

/-! ### Calls a program can come to make -/

/-- On some replies that the contract allows, the program comes to make this call. -/
def Makes (C : Contract I) : Program I ρ → I.Call → Prop
  | done _, _ => False
  | call c next, c' => c' = c ∨ ∃ reply, C.replies c reply ∧ (next reply).Makes C c'

@[simp] theorem not_makes_done {r : ρ} {c : I.Call} : ¬ (done r : Program I ρ).Makes C c := id

@[simp] theorem makes_call {c c' : I.Call} {next : I.Reply c → Program I ρ} :
    (call c next).Makes C c' ↔ c' = c ∨ ∃ reply, C.replies c reply ∧ (next reply).Makes C c' :=
  Iff.rfl

/-- A call of a sequence is one of its first part, or one of its second part on a result of the
first. -/
theorem makes_bind {p : Program I ρ} {f : ρ → Program I τ} {c : I.Call} :
    (p.bind f).Makes C c ↔ p.Makes C c ∨ ∃ r, p.Yields C r ∧ (f r).Makes C c := by
  induction p with
  | done r => simp
  | call c' next ih =>
    simp only [bind_call, makes_call, yields_call, ih]
    constructor
    · rintro (hc | ⟨reply, hreply, hc | ⟨r, hr, hc⟩⟩)
      · exact .inl (.inl hc)
      · exact .inl (.inr ⟨reply, hreply, hc⟩)
      · exact .inr ⟨r, ⟨reply, hreply, hr⟩, hc⟩
    · rintro ((hc | ⟨reply, hreply, hc⟩) | ⟨r, ⟨reply, hreply, hr⟩, hc⟩)
      · exact .inl hc
      · exact .inr ⟨reply, hreply, .inl hc⟩
      · exact .inr ⟨reply, hreply, .inr ⟨r, hr, hc⟩⟩

end Program

/-! ## All results of a computation -/

/-- A reading of "every result has this property" in a monad: it holds of a returned value that
has the property, follows a sequence, and respects consequence. -/
structure Always (m : Type → Type) [Monad m] where
  /-- Every result of the computation has the property. -/
  holds : {β : Type} → m β → (β → Prop) → Prop
  /-- A returned value is the only result. -/
  pure : ∀ {β : Type} {post : β → Prop} (b : β), post b → holds (Pure.pure b) post
  /-- The results of a sequence are those of its second part on results of its first. -/
  bind : ∀ {β γ : Type} {post : γ → Prop} (x : m β) (f : β → m γ),
    (holds x fun b => holds (f b) post) → holds (x >>= f) post
  /-- A weaker property holds too. -/
  mono : ∀ {β : Type} {post post' : β → Prop} (x : m β),
    (∀ b, post b → post' b) → holds x post → holds x post'

namespace Always

variable {m : Type → Type} [Monad m]

/-- The result of an option, if there is one. -/
def option : Always Option where
  holds x post := ∀ b, x = some b → post b
  pure b hb b' h := by cases h; exact hb
  bind x f h b hb := by
    obtain ⟨a, ha, hfa⟩ := Option.bind_eq_some_iff.mp hb
    exact h a ha b hfa
  mono x himp h b hb := himp b (h b hb)

/-- The results of a program on the replies of a contract, with its calls within the contract. -/
def program {I : Interface} (C : Contract I) : Always (Program I) where
  holds p post := p.Meets C post
  pure _ hb := hb
  bind x f h := (Program.meets_bind x f).mpr h
  mono _ himp h := h.mono himp

/-- The results other than errors. -/
def except (A : Always m) (ε : Type) : Always (ExceptT ε m) where
  holds x post := A.holds x.run fun r => ∀ b, r = .ok b → post b
  pure b hb := A.pure _ fun b' h => by cases h; exact hb
  bind x f h := by
    refine A.bind _ _ (A.mono _ (fun r hr => ?_) h)
    cases r with
    | ok b => exact hr b rfl
    | error e => exact A.pure _ fun b' h => nomatch h
  mono x himp h := A.mono _ (fun r hr b hb => himp b (hr b hb)) h

/-- The results, and the errors, which have a property of their own. -/
def failing (A : Always m) (ε : Type) (bad : ε → Prop) : Always (ExceptT ε m) where
  holds x post := A.holds x.run fun
    | .ok b => post b
    | .error e => bad e
  pure b hb := A.pure _ hb
  bind x f h := by
    refine A.bind _ _ (A.mono _ (fun r hr => ?_) h)
    cases r with
    | ok b => exact hr
    | error e => exact A.pure _ hr
  mono x himp h := A.mono _ (fun r hr => by
    cases r with
    | ok b => exact himp b hr
    | error e => exact hr) h

/-- The results from states with an invariant, which they leave in force. -/
def state (A : Always m) {σ : Type} (inv : σ → Prop) : Always (StateT σ m) where
  holds x post := ∀ s, inv s → A.holds (x.run s) fun r => post r.1 ∧ inv r.2
  pure _ hb _ hs := A.pure _ ⟨hb, hs⟩
  bind _ _ h s hs := A.bind _ _ (A.mono _ (fun r hr => hr.1 r.2 hr.2) (h s hs))
  mono _ himp h s hs := A.mono _ (fun _ hr => ⟨himp _ hr.1, hr.2⟩) (h s hs)

/-- The second part relies on what the first one is sure of. -/
theorem chain (A : Always m) {β γ : Type} {post : β → Prop} {post' : γ → Prop} {x : m β}
    {f : β → m γ} (hx : A.holds x post) (hf : ∀ b, post b → A.holds (f b) post') :
    A.holds (x >>= f) post' :=
  A.bind x f (A.mono x hf hx)

/-- Whatever comes of the first part, the second one has the property. -/
theorem seq (A : Always m) {β γ : Type} {post : γ → Prop} {x : m β} {f : β → m γ}
    (hx : A.holds x fun _ => True) (hf : ∀ b, A.holds (f b) post) : A.holds (x >>= f) post :=
  A.chain hx fun b _ => hf b

theorem ite (A : Always m) {β : Type} {c : Prop} [Decidable c] {x y : m β} {post : β → Prop}
    (hx : c → A.holds x post) (hy : ¬ c → A.holds y post) :
    A.holds (if c then x else y) post := by
  split
  · next hc => exact hx hc
  · next hc => exact hy hc

theorem map [LawfulMonad m] (A : Always m) {β γ : Type} {f : β → γ} {x : m β} {post : γ → Prop}
    (h : A.holds x fun b => post (f b)) : A.holds (f <$> x) post := by
  rw [map_eq_pure_bind]
  exact A.bind _ _ (A.mono _ (fun b hb => A.pure (f b) hb) h)

theorem holds_lift_state (A : Always m) {σ β : Type} {inv : σ → Prop} {post : β → Prop} (x : m β)
    (h : A.holds x post) : (A.state inv).holds (StateT.lift x) post := fun s hs =>
  A.bind _ _ (A.mono _ (fun b hb => A.pure (b, s) ⟨hb, hs⟩) h)

end Always

namespace Program

variable {I : Interface} {ρ : Type} {m : Type → Type} [Monad m]

/-- The results of an interpreted program have its postcondition, if every answer keeps the
contract. -/
theorem Meets.interpret (A : Always m) {C : Contract I} {answer : (c : I.Call) → m (I.Reply c)}
    (hanswer : ∀ c, C.asks c → A.holds (answer c) (C.replies c)) {post : ρ → Prop}
    {p : Program I ρ} (hp : p.Meets C post) : A.holds (p.interpret answer) post := by
  induction p with
  | done r => exact A.pure r hp
  | call c next ih =>
    exact A.bind _ _ (A.mono _ (fun reply hreply => ih reply (hp.2 reply hreply))
      (hanswer c hp.1))

/-- The results of an interpreted program are those it can come to, if every answer is as the
contract has it. -/
theorem yields_interpret (A : Always m) {C : Contract I} (hasks : ∀ c, C.asks c)
    {answer : (c : I.Call) → m (I.Reply c)} (hanswer : ∀ c, A.holds (answer c) (C.replies c))
    (p : Program I ρ) : A.holds (p.interpret answer) (p.Yields C) :=
  (meets_of_asks hasks p).yields.interpret A fun c _ => hanswer c

end Program

end Nlp
