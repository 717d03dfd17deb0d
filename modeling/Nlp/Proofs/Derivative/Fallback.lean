import Nlp.Proofs.Derivative.Commands
import Nlp.Proofs.Derivative.Expense
import Nlp.Proofs.Derivative.Round
import Nlp.Proofs.Derivative.Unaided

/-!
# Complex step without a complex continuation

An engine finds out with its first request whether the model takes complex arguments, and remembers
it.  With a model that takes none, all its requests are those of an engine for forward differences
with the default step, if it may fall back on them, and fail otherwise.  One call of the model and
one warning are all the difference there is, over all requests.

## Main definitions

* `Engine.Demand`, `Engine.answers`: requests that are made of an engine, one after another.
* `DeclinesComplex`: a handler for a model that takes no complex arguments.
* `Program.Counts`: a bound of how many calls of a kind there are.

## Main results

* `Engine.absorb_answers`: but for what is known, the answers are those for forward differences.
* `Engine.counts_answers`: the model is asked for complex values once.
* `Engine.fallback_explained`: both, and what the other ranks are told.
-/

namespace Nlp

variable {σ α β : Type}

/-! ## Calls of a run -/

namespace Program

variable {I : Interface} {ρ τ : Type} {handler : (c : I.Call) → σ → Option (I.Reply c) × σ}

/-- A run makes calls of the contract only, if it is answered as the contract has it. -/
theorem Meets.of_mem_calls {C : Contract I} {post : ρ → Prop} {p : Program I ρ}
    (h : p.Meets C post)
    (hreplies : ∀ c s reply, (handler c s).1 = some reply → C.replies c reply) {s : σ}
    {c : I.Call} (hc : c ∈ p.calls handler s) : C.asks c := by
  induction p generalizing s with
  | done r => cases hc
  | call c' next ih =>
    rw [calls] at hc
    rcases List.mem_cons.mp hc with rfl | hc
    · exact h.1
    · split at hc
      · next reply s' hreply =>
        exact ih reply (h.2 reply (hreplies c' s reply (congrArg Prod.fst hreply))) hc
      · cases hc

/-- On replies the contract allows, the program makes calls the contract allows; with `n` already
spent, these cost no more than `most` altogether, and the results are good together with what is
spent by then. -/
def Counts (C : Contract I) (cost : I.Call → Nat) (most : Nat) (good : Nat → ρ → Prop) :
    Program I ρ → Nat → Prop
  | done r, n => good n r
  | call c next, n =>
    C.asks c ∧ n + cost c ≤ most ∧
      ∀ reply, C.replies c reply → (next reply).Counts C cost most good (n + cost c)

variable {C : Contract I} {cost : I.Call → Nat} {most n : Nat}

theorem Counts.mono {good good' : Nat → ρ → Prop} {p : Program I ρ}
    (himp : ∀ n r, good n r → good' n r) (h : p.Counts C cost most good n) :
    p.Counts C cost most good' n := by
  induction p generalizing n with
  | done r => exact himp n r h
  | call c next ih => exact ⟨h.1, h.2.1, fun reply hreply => ih reply (h.2.2 reply hreply)⟩

/-- The costs of a sequence add up. -/
theorem Counts.bind {good : Nat → τ → Prop} {p : Program I ρ} {f : ρ → Program I τ}
    (h : p.Counts C cost most (fun n r => (f r).Counts C cost most good n) n) :
    (p.bind f).Counts C cost most good n := by
  induction p generalizing n with
  | done r => exact h
  | call c next ih => exact ⟨h.1, h.2.1, fun reply hreply => ih reply (h.2.2 reply hreply)⟩

/-- The costs apart, this is a contract that is met. -/
theorem Counts.meets {good : Nat → ρ → Prop} {p : Program I ρ} (h : p.Counts C cost most good n) :
    p.Meets C fun r => ∃ n, good n r := by
  induction p generalizing n with
  | done r => exact ⟨n, h⟩
  | call c next ih => exact ⟨h.1, fun reply hreply => ih reply (h.2.2 reply hreply)⟩

/-- Calls that are free cost nothing. -/
theorem Meets.counts {C' : Contract I} {post : ρ → Prop} {p : Program I ρ} (h : p.Meets C' post)
    (hasks : ∀ c, C'.asks c → C.asks c ∧ cost c = 0)
    (hreplies : ∀ c reply, C.replies c reply → C'.replies c reply) (hn : n ≤ most) :
    p.Counts C cost most (fun n' r => n' = n ∧ post r) n := by
  induction p with
  | done r => exact ⟨rfl, h⟩
  | call c next ih =>
    obtain ⟨hc, hfree⟩ := hasks c h.1
    simp only [Counts, hfree, Nat.add_zero]
    exact ⟨hc, hn, fun reply hreply => ih reply (h.2 reply (hreplies c reply hreply))⟩

theorem Counts.sum_calls {good : Nat → ρ → Prop} {p : Program I ρ}
    (h : p.Counts C cost most good n) (hn : n ≤ most)
    (hreplies : ∀ c s reply, (handler c s).1 = some reply → C.replies c reply) (s : σ) :
    n + ((p.calls handler s).map cost).sum ≤ most := by
  induction p generalizing n s with
  | done r => exact hn
  | call c next ih =>
    rw [calls, List.map_cons, List.sum_cons, ← Nat.add_assoc]
    split
    · next reply s' hreply =>
      have hrest := h.2.2 reply (hreplies c s reply (congrArg Prod.fst hreply))
      exact ih reply hrest h.2.1 s'
    · exact h.2.1

end Program

/-! ## Models that take no complex arguments -/

/-- What a model that takes no complex arguments is known to reply, and a log. -/
def declining : (c : RankCall) → Option (rankAccess.Reply c)
  | .model (.evaluateComplex _) => some none
  | .model (.note _) => some ()
  | _ => none

/-- The model takes no complex arguments, and a call that tries leaves no trace; nor do events. -/
structure DeclinesComplex (handler : (c : RankCall) → σ → Option (rankAccess.Reply c) × σ) :
    Prop where
  evaluateComplex : ∀ z s, handler (.model (.evaluateComplex z)) s = (some none, s)
  note : ∀ event s, handler (.model (.note event)) s = (some (), s)

variable {handler : (c : RankCall) → σ → Option (rankAccess.Reply c) × σ}

theorem DeclinesComplex.handler_eq (h : DeclinesComplex handler) (c : RankCall)
    (reply : rankAccess.Reply c) (hreply : declining c = some reply) (s : σ) :
    handler c s = (some reply, s) := by
  cases c with
  | broadcast payload => cases hreply
  | gather payload => cases hreply
  | model c =>
    cases c with
    | evaluateComplex z =>
      obtain rfl := Option.some.inj hreply
      exact h.evaluateComplex z s
    | note event =>
      obtain rfl := Option.some.inj hreply
      exact h.note event s
    | evaluate x => cases hreply
    | gradient x => cases hreply
    | outOfRange index size => cases hreply

/-! ## Requests of an engine -/

namespace Engine

/-- A request that is made of an engine: a point, with the values known there. -/
structure Demand where
  /-- The point. -/
  x : List Double
  /-- The values known there. -/
  known : Option (Evaluation Double)

/-- The answers of an engine to some requests, one after another, also after one that fails. -/
def answers (e : Engine) (problem : Problem Double) (here : Place) :
    List Demand → Memory → Program rankAccess (List (Except (Error Double) (Jacobian Double)))
  | [], _ => .done []
  | d :: ds, memory =>
    ((e.jacobianAt problem d.x d.known here).run.run memory).bind fun (answer, memory) =>
      (e.answers problem here ds memory).bind fun rest => .done (answer :: rest)

variable {e e' : Engine} {problem : Problem Double} {here : Place} {x : List Double}
  {memory memory' : Memory} {step : Double}

/-- The engine has not found out that the model takes complex arguments. -/
def Memory.Declined (memory : Memory) : Prop :=
  memory = none ∨ memory = some false

/-- The request does not look at the memory. -/
def Request.Forgets (t : Request α) : Prop :=
  ∃ p : Program rankAccess (Except (Error Double) α), ∀ memory,
    t.run.run memory = p.bind fun a => .done (a, memory)

theorem Request.forgets_ofTask (t : Task α) : (Request.ofTask t).Forgets :=
  ⟨t.run, fun _ => rfl⟩

theorem Request.Forgets.bind {t : Request α} {f : α → Request β} (ht : t.Forgets)
    (hf : ∀ a, (f a).Forgets) : (t >>= f).Forgets := by
  obtain ⟨p, hp⟩ := ht
  choose q hq using hf
  refine ⟨p.bind (ExceptT.bindCont q), fun memory => ?_⟩
  rw [run_bind, hp, Program.bind_assoc, Program.bind_assoc]
  refine congrArg (Program.bind p) (funext fun r => ?_)
  cases r with
  | ok a => exact hq a memory
  | error e => rfl

theorem forgets_carryOut (known : Option (Evaluation Double)) (scheme : Scheme) :
    (e.carryOut problem x known here scheme).Forgets := by
  have hassemble : ∀ kernel evaluations,
      (e.assemble problem kernel x here evaluations).Forgets :=
    fun kernel evaluations => (Request.forgets_ofTask _).bind fun _ => Request.forgets_ofTask _
  cases scheme with
  | analytic => exact Request.forgets_ofTask _
  | complex step => exact hassemble _ _
  | forward step =>
    cases known with
    | some values => exact hassemble _ _
    | none =>
      refine Request.Forgets.bind ?_ fun baseline => hassemble _ _
      exact (Request.forgets_ofTask _).bind fun values => ⟨.done (.ok (values, 1)), fun _ => rfl⟩

/-! ## What is known of a request -/

theorem absorb_note_bind (event : Event Double) (f : Unit → Request α) :
    ((Request.ofTask (Task.note event) >>= f).run.run memory).absorb declining =
      ((f ()).run.run memory).absorb declining :=
  rfl

/-- The engine finds out, or knows, that the model takes no complex arguments. -/
theorem absorb_complexSupport_bind (hx : x.length = problem.vars.length) (hmemory : memory.Declined)
    (f : Bool → Request α) :
    ((e.complexSupport problem x >>= f).run.run memory).absorb declining =
      ((f false).run.run (some false)).absorb declining := by
  rw [complexSupport]
  rcases hmemory with rfl | rfl
  · have hcheck : problem.checkPoint (x.map Complex.ofReal).length = .ok () :=
      if_pos (by rw [List.length_map, hx])
    simp only [Problem.evaluateComplex, hcheck]
    cases e.fallback with
    | error => rfl
    | finiteDifference => rfl
  · rfl

theorem absorb_resolve_bind (hmethod : e.method = .complexStep step)
    (hx : x.length = problem.vars.length) (hmemory : memory.Declined) (f : Scheme → Request α) :
    ((e.resolve problem x >>= f).run.run memory).absorb declining =
      match e.fallback with
      | .finiteDifference =>
        ((f (.forward Method.defaultDifference)).run.run (some false)).absorb declining
      | .error => .done (.error .complexStepUnsupported, some false) := by
  rw [resolve, hmethod]
  dsimp only
  rw [bind_assoc, absorb_complexSupport_bind hx hmemory]
  cases e.fallback with
  | error => rfl
  | finiteDifference => rfl

/-- A request of an engine that falls back is one for forward differences, and what comes after it
goes on from a memory that is no different. -/
theorem absorb_jacobianAt_bind (hmethod : e.method = .complexStep step)
    (hfallback : e.fallback = .finiteDifference)
    (hmethod' : e'.method = .finiteDifference Method.defaultDifference) (hmode : e'.mode = e.mode)
    (hpartition : e'.partition = e.partition) (known : Option (Evaluation Double))
    (hmemory : memory.Declined)
    {f f' : Except (Error Double) (Jacobian Double) × Memory → Program rankAccess β}
    (hf : ∀ a memory memory', memory.Declined →
      (f (a, memory)).absorb declining = (f' (a, memory')).absorb declining) :
    (((e.jacobianAt problem x known here).run.run memory).bind f).absorb declining =
      (((e'.jacobianAt problem x known here).run.run memory').bind f').absorb declining := by
  rw [jacobianAt_eq, jacobianAt_eq]
  by_cases hx : x.length ≠ problem.vars.length
  · rw [if_pos hx, if_pos hx]
    exact hf _ memory memory' hmemory
  rw [if_neg hx, if_neg hx, hmode]
  by_cases hroot : e.mode = .parallel ∧ ¬ here.isRoot
  · rw [if_pos hroot, if_pos hroot]
    exact hf _ memory memory' hmemory
  rw [if_neg hroot, if_neg hroot, Program.absorb_bind, Program.absorb_bind, absorb_note_bind,
    absorb_note_bind, absorb_resolve_bind hmethod (not_not.mp hx) hmemory, hfallback]
  -- from here on both engines carry out the same scheme, whatever they remember
  have hresolve : e'.resolve problem x = pure (.forward Method.defaultDifference) := by
    rw [resolve, hmethod']
  have hcarryOut : e'.carryOut problem x known here = e.carryOut problem x known here := by
    funext scheme
    cases scheme <;> simp only [carryOut, assemble, columns, hmode, hpartition]
  rw [hresolve, pure_bind, hcarryOut]
  obtain ⟨p, hp⟩ : (e.carryOut problem x known here (.forward Method.defaultDifference)).Forgets :=
    forgets_carryOut known _
  dsimp only
  rw [hp, hp, Program.absorb_bind, Program.absorb_bind, Program.bind_assoc, Program.bind_assoc]
  exact congrArg (Program.bind _) (funext fun a => hf a _ _ (.inr rfl))

/-- But for what is known, an engine that falls back answers as one for forward differences. -/
theorem absorb_answers (hmethod : e.method = .complexStep step)
    (hfallback : e.fallback = .finiteDifference)
    (hmethod' : e'.method = .finiteDifference Method.defaultDifference) (hmode : e'.mode = e.mode)
    (hpartition : e'.partition = e.partition) (ds : List Demand) (hmemory : memory.Declined) :
    (e.answers problem here ds memory).absorb declining =
      (e'.answers problem here ds memory').absorb declining := by
  induction ds generalizing memory memory' with
  | nil => rfl
  | cons d ds ih =>
    refine absorb_jacobianAt_bind hmethod hfallback hmethod' hmode hpartition d.known hmemory ?_
    intro a memory memory' hmemory
    dsimp only
    rw [Program.absorb_bind, Program.absorb_bind, ih hmemory]

/-- What an engine that may not fall back answers. -/
def refusal (problem : Problem Double) (d : Demand) : Except (Error Double) (Jacobian Double) :=
  if d.x.length = problem.vars.length then .error .complexStepUnsupported
  else .error (.shapeMismatch "x" problem.vars.length d.x.length)

/-- But for what is known, such an engine does nothing. -/
theorem absorb_answers_of_error (hmethod : e.method = .complexStep step)
    (hfallback : e.fallback = .error) (hroot : here.isRoot) (ds : List Demand)
    (hmemory : memory.Declined) :
    (e.answers problem here ds memory).absorb declining = .done (ds.map (refusal problem)) := by
  -- on the demands: after the first probe the refusal is remembered, and no call is left
  induction ds generalizing memory with
  | nil => rfl
  | cons d ds ih =>
    rw [answers, jacobianAt_eq, Program.absorb_bind, List.map_cons, refusal]
    by_cases hx : d.x.length = problem.vars.length
    · rw [if_neg (not_not.mpr hx), if_neg fun h => h.2 hroot, absorb_note_bind,
        absorb_resolve_bind hmethod hx hmemory, hfallback, if_pos hx]
      dsimp only
      rw [Program.bind_done, Program.absorb_bind, ih (.inr rfl)]
      rfl
    · rw [if_pos hx, if_neg hx]
      show ((e.answers problem here ds memory).bind _).absorb declining = _
      rw [Program.absorb_bind, ih hmemory]
      rfl

end Engine

/-! ## What the model is asked -/

/-- The model is asked for complex values. -/
def RankCall.isProbe : RankCall → Bool
  | .model (.evaluateComplex _) => true
  | _ => false

/-- The log is told that the model takes no complex arguments. -/
def RankCall.isWarning : RankCall → Bool
  | .model (.note (.complexRejected _)) => true
  | _ => false

/-- The call is neither. -/
def ModelCall.IsReal : ModelCall Double → Prop
  | .evaluateComplex _ | .note (.complexRejected _) => False
  | _ => True

/-- No model is asked for complex values: not that of the root, nor, as the root tells them, those
of the other ranks. -/
def Conduct.real : Conduct where
  asks := ModelCall.IsReal
  tells := (nearby (fun _ => True) (.finiteDifference Method.defaultDifference)).tells

variable {problem : Problem Double} {here : Place} {x : List Double}

/-- The results, errors apart, of local programs that only ask for real values. -/
abbrev realOnly : Always (Local Double) :=
  (Always.program Conduct.real.ofModel).except (Error Double)

theorem realOnly_ask {c : ModelCall Double} (h : c.IsReal) :
    realOnly.holds (Local.ask c) fun _ => True :=
  ⟨h, fun _ _ _ _ => trivial⟩

theorem realOnly_evaluate (problem : Problem Double) (x : List Double) :
    realOnly.holds (problem.evaluate x) fun _ => True := by
  refine realOnly.seq (fun _ _ => trivial) fun _ => ?_
  refine realOnly.seq (realOnly_ask trivial) fun _ => ?_
  refine realOnly.seq (realOnly_ask trivial) fun e => ?_
  exact realOnly.seq (fun _ _ => trivial) fun _ => realOnly.pure e trivial

theorem realOnly_columns (problem : Problem Double) (x : List Double) (step : Double)
    (baseline : Baseline Double) (js : List Nat) :
    realOnly.holds (Kernel.columns (.forward step baseline) problem x js) fun _ => True := by
  induction js with
  | nil => exact realOnly.pure [] trivial
  | cons j js ih =>
    have hcolumn : realOnly.holds (Kernel.column (.forward step baseline) problem x j)
        fun _ => True := by
      rw [Kernel.column]
      split
      · exact ⟨trivial, fun reply => reply.elim⟩
      · exact realOnly.seq (realOnly_evaluate problem _) fun e => realOnly.pure _ trivial
    exact realOnly.seq hcolumn fun c => realOnly.seq ih fun cs => realOnly.pure _ trivial

namespace Engine

variable {e : Engine} {memory : Memory} {step : Double}

theorem real_columns (e : Engine) (baseline : Baseline Double) :
    (unaidedTask .real).holds
      (e.columns problem (.forward Method.defaultDifference baseline) x here) fun _ => True := by
  have hall := realOnly_columns problem x Method.defaultDifference baseline (List.range x.length)
  rw [columns]
  cases e.mode with
  | sequential => exact Task.unaided_ofLocal hall
  | threads =>
    dsimp only
    split
    · exact unaided_onRank (Program.Meets.muted (fun _ => trivial) hall)
    · exact Task.unaided_ofLocal hall
  | parallel =>
    let q : Session.Request := ⟨x, .forward Method.defaultDifference baseline, e.partition⟩
    refine Session.unaided_request (fun _ _ => trivial) (q := q) (fun hextent => ?_) ?_ ?_
    · intro command hread
      rw [Wire.ofBytes_toBytes hextent] at hread
      obtain rfl := Except.ok.inj hread
      exact ⟨trivial, _, baseline, rfl, rfl⟩
    · intro command hread
      cases hread
    · exact (realOnly_columns problem x _ baseline _).mono fun _ _ => trivial

/-- A request for forward differences asks for no complex values. -/
theorem real_carryOut (e : Engine) (known : Option (Evaluation Double)) :
    (unaidedRequest .real).holds
      (e.carryOut problem x known here (.forward Method.defaultDifference)) fun _ => True := by
  have hassemble : ∀ baseline evaluations, (unaidedRequest .real).holds
      (e.assemble problem (.forward Method.defaultDifference baseline) x here evaluations)
      fun _ => True := by
    intro baseline evaluations
    refine (unaidedRequest .real).seq (unaided_ofTask (e.real_columns baseline)) fun columns => ?_
    exact unaided_ofTask fun _ _ => trivial
  refine (unaidedRequest .real).seq ?_ fun baseline => hassemble _ _
  cases known with
  | some values => exact (unaidedRequest .real).pure _ trivial
  | none =>
    refine (unaidedRequest .real).seq
      (unaided_ofTask (Task.unaided_ofLocal (realOnly_evaluate problem x))) fun values => ?_
    exact (unaidedRequest .real).pure _ trivial

/-! ## How often it is asked -/

/-- The model replies as one that takes no complex arguments, and then the others are told so. -/
def declined : Contract rankAccess where
  asks
    | .broadcast payload => Conduct.real.tells payload
    | _ => True
  replies c reply := ∀ known, declining c = some known → reply = known

/-- At most one of the calls with which an engine finds out about a model is counted, and no
other. -/
structure CountsOnce (cost : RankCall → Nat) : Prop where
  real : ∀ c, Conduct.real.unaided.asks c → cost c = 0
  once : ∀ z name,
    cost (.model (.evaluateComplex z)) + cost (.model (.note (.complexRejected name))) ≤ 1

variable {cost : RankCall → Nat} {n : Nat}

/-- Requests, the calls counted that were made before and will be made until the engine knows. -/
def Request.Counts (e : Engine) (cost : RankCall → Nat) (t : Request α) (memory : Memory)
    (n : Nat) : Prop :=
  (t.run.run memory).Counts declined cost 1
    (fun n r => r.2.Declined ∧ n + e.probes r.2 ≤ 1) n

theorem Request.counts_of_real {t : Request α} (hcost : CountsOnce cost)
    (ht : (unaidedRequest .real).holds t fun _ => True) (hforgets : t.Forgets)
    (hmemory : memory.Declined) (hn : n + e.probes memory ≤ 1) : t.Counts e cost memory n := by
  obtain ⟨p, hp⟩ := hforgets
  have hmeets : (t.run.run memory).Meets Conduct.real.unaided _ := ht memory trivial
  rw [hp, Program.meets_bind] at hmeets
  rw [Counts, hp]
  have hasks : ∀ c, Conduct.real.unaided.asks c → declined.asks c ∧ cost c = 0 := by
    intro c hc
    refine ⟨?_, hcost.real c hc⟩
    cases c with
    | broadcast payload => exact hc
    | model c => trivial
    | gather payload => trivial
  have hcounts : p.Counts declined cost 1 _ n :=
    hmeets.counts hasks (fun _ _ _ => trivial) (by omega)
  refine (hcounts.mono ?_).bind
  rintro _ a ⟨rfl, -⟩
  exact ⟨hmemory, hn⟩

theorem Request.counts_note_bind {f : Unit → Request α} {event : Event Double}
    (hfree : cost (.model (.note event)) = 0) (hn : n ≤ 1) (h : (f ()).Counts e cost memory n) :
    (Request.ofTask (Task.note event) >>= f).Counts e cost memory n := by
  show (Program.call (I := rankAccess) (.model (.note event)) fun _ =>
    (f ()).run.run memory).Counts _ _ _ _ _
  simp only [Program.Counts, hfree, Nat.add_zero]
  exact ⟨trivial, hn, fun _ _ => h⟩

/-- To find out takes the calls that are counted, if the engine does not know. -/
theorem counts_complexSupport_bind (hcost : CountsOnce cost)
    (hmethod : e.method = .complexStep step) (hx : x.length = problem.vars.length)
    (hmemory : memory.Declined)
    (hn : n + e.probes memory ≤ 1) {f : Bool → Request α}
    (h : ∀ n, n ≤ 1 → (f false).Counts e cost (some false) n) :
    (e.complexSupport problem x >>= f).Counts e cost memory n := by
  have hprobes : e.probes none = 1 := by rw [probes, hmethod]
  rcases hmemory with rfl | rfl
  · obtain rfl : n = 0 := by omega
    have hcheck : problem.checkPoint (x.map Complex.ofReal).length = .ok () :=
      if_pos (by rw [List.length_map, hx])
    have honce := hcost.once (x.map Complex.ofReal) problem.name
    have hnote : cost (.model (.note (.evaluatingComplex problem.name))) = 0 :=
      hcost.real _ trivial
    rw [complexSupport]
    simp only [Problem.evaluateComplex, hcheck]
    refine ⟨trivial, by omega, fun _ _ => ⟨trivial, by omega, fun answer hanswer => ?_⟩⟩
    obtain rfl := hanswer none rfl
    cases e.fallback with
    | error => exact h _ (by omega)
    | finiteDifference => exact ⟨trivial, by omega, fun _ _ => h _ (by omega)⟩
  · exact h n (by omega)

theorem counts_jacobianAt (hcost : CountsOnce cost) (hmethod : e.method = .complexStep step)
    (known : Option (Evaluation Double)) (hmemory : memory.Declined)
    (hn : n + e.probes memory ≤ 1) :
    (e.jacobianAt problem x known here).Counts e cost memory n := by
  rw [jacobianAt_eq]
  split
  · exact ⟨hmemory, hn⟩
  next hx =>
  split
  · exact ⟨hmemory, hn⟩
  refine Request.counts_note_bind (hcost.real _ trivial) (by omega) ?_
  rw [resolve, hmethod]
  dsimp only
  rw [bind_assoc]
  refine counts_complexSupport_bind hcost hmethod (not_not.mp hx) hmemory hn fun n hn => ?_
  cases e.fallback with
  | error => exact ⟨.inr rfl, hn⟩
  | finiteDifference =>
    show Request.Counts e cost (e.carryOut problem x known here (.forward _)) (some false) n
    exact Request.counts_of_real hcost (e.real_carryOut known) (forgets_carryOut known _)
      (.inr rfl) hn

/-- Over all requests, what finds out about the model is counted once. -/
theorem counts_answers (hcost : CountsOnce cost) (hmethod : e.method = .complexStep step)
    (ds : List Demand) (hmemory : memory.Declined) (hn : n + e.probes memory ≤ 1) :
    (e.answers problem here ds memory).Counts declined cost 1 (fun _ _ => True) n := by
  induction ds generalizing memory n with
  | nil => trivial
  | cons d ds ih =>
    refine Program.Counts.bind ?_
    refine (counts_jacobianAt hcost hmethod d.known hmemory hn).mono ?_
    rintro n ⟨answer, memory⟩ ⟨hmemory, hn⟩
    exact ((ih hmemory hn).mono fun _ _ _ => trivial).bind

/-- The cost of a kind of calls. -/
def costOf (kind : RankCall → Bool) (c : RankCall) : Nat :=
  if kind c then 1 else 0

theorem sum_map_costOf (kind : RankCall → Bool) (calls : List RankCall) :
    (calls.map (costOf kind)).sum = calls.countP kind := by
  induction calls with
  | nil => rfl
  | cons c calls ih => rw [List.map_cons, List.sum_cons, ih, List.countP_cons, costOf, Nat.add_comm]

theorem countsOnce_isProbe : CountsOnce (costOf RankCall.isProbe) where
  real c hc := by
    rcases c with c | payload | payload
    · cases c with
      | evaluateComplex z => exact hc.elim
      | _ => rfl
    · rfl
    · rfl
  once _ _ := le_rfl

theorem countsOnce_isWarning : CountsOnce (costOf RankCall.isWarning) where
  real c hc := by
    rcases c with c | payload | payload
    · cases c with
      | note event =>
        cases event with
        | complexRejected name => exact hc.elim
        | _ => rfl
      | _ => rfl
    · rfl
    · rfl
  once _ _ := le_rfl

/-- With a model that takes no complex arguments, an engine for complex steps that may fall back
answers any requests as one for forward differences with the default step, and comes to the same
state of its model and its group; one that may not fall back fails on the root.  In either case
the model is asked once for complex values, and the log warned once, over all requests; and the
other ranks are told nothing that has them ask their own models for complex values. -/
theorem fallback_explained (problem : Problem Double) (step : Double) (mode : Mode)
    (partition : Partition) (here : Place) (ds : List Demand)
    {handler : (c : RankCall) → σ → Option (rankAccess.Reply c) × σ}
    (hdeclines : DeclinesComplex handler) (s : σ) (other : Fallback) :
    let falling : Engine := ⟨.complexStep step, mode, .finiteDifference, partition⟩
    let refusing : Engine := ⟨.complexStep step, mode, .error, partition⟩
    let differing : Engine :=
      ⟨.finiteDifference Method.defaultDifference, mode, other, partition⟩
    (falling.answers problem here ds none).run handler s =
        (differing.answers problem here ds none).run handler s ∧
      (here.isRoot → (refusing.answers problem here ds none).run handler s =
        .finished (ds.map (refusal problem)) s) ∧
      (∀ e : Engine, e = falling ∨ e = refusing →
        let calls := (e.answers problem here ds none).calls handler s
        calls.countP RankCall.isProbe ≤ 1 ∧ calls.countP RankCall.isWarning ≤ 1 ∧
          ∀ payload, .broadcast payload ∈ calls → Conduct.real.tells payload) ∧
      ∀ (problem' : Problem Double) (there : Place), there.rank ≠ rootRank →
        (Session.serve problem' there).run.Meets ((Conduct.nearby (fun _ => True)
          (.finiteDifference Method.defaultDifference)).ofRank there) fun _ => True := by
  intro falling refusing differing
  -- a model that declines may be replaced by its refusals, which leaves no probe to compare
  refine ⟨?_, fun hroot => ?_, fun e he => ?_, fun problem' there hthere => ?_⟩
  · have hmethod : falling.method = .complexStep step := rfl
    have hmode : differing.mode = falling.mode := rfl
    have habsorb : (falling.answers problem here ds none).absorb declining =
        (differing.answers problem here ds none).absorb declining :=
      absorb_answers hmethod rfl rfl hmode rfl ds (.inl rfl)
    rw [← Program.run_absorb hdeclines.handler_eq, habsorb,
      Program.run_absorb hdeclines.handler_eq]
  · have habsorb : (refusing.answers problem here ds none).absorb declining =
        .done (ds.map (refusal problem)) :=
      absorb_answers_of_error rfl rfl hroot ds (.inl rfl)
    rw [← Program.run_absorb hdeclines.handler_eq, habsorb, Program.run]
  · have hmethod : e.method = .complexStep step := by
      rcases he with rfl | rfl <;> rfl
    have hcounts : ∀ {cost}, CountsOnce cost →
        (e.answers problem here ds none).Counts declined cost 1 (fun _ _ => True) 0 := by
      intro cost hcost
      refine counts_answers hcost hmethod ds (.inl rfl) ?_
      rw [probes, hmethod, Nat.zero_add]
    -- what the handler replies is what the contract of the count assumes
    have hreplies : ∀ c s reply, (handler c s).1 = some reply → declined.replies c reply := by
      intro c s reply hreply known hknown
      rw [hdeclines.handler_eq c known hknown s] at hreply
      exact (Option.some.inj hreply).symm
    have hsum : ∀ kind, CountsOnce (costOf kind) →
        ((e.answers problem here ds none).calls handler s).countP kind ≤ 1 := by
      intro kind hcost
      have hsum := (hcounts hcost).sum_calls (Nat.zero_le 1) hreplies s
      rwa [Nat.zero_add, sum_map_costOf] at hsum
    refine ⟨hsum _ countsOnce_isProbe, hsum _ countsOnce_isWarning, fun payload hpayload => ?_⟩
    exact (hcounts countsOnce_isProbe).meets.of_mem_calls hreplies hpayload
  · exact keeping_run (Session.keeping_serveFrom hthere Session.countLimit 0)

/-- A rank without a group, whose model takes no complex arguments and counts the points it is
evaluated at. -/
def pointCounter : (c : RankCall) → Nat → Option (rankAccess.Reply c) × Nat
  | .model (.evaluate _), s => (some ⟨0, [0], 0⟩, s + 1)
  | .model (.evaluateComplex _), s => (some none, s)
  | .model (.gradient _), s => (some none, s)
  | .model (.note _), s => (some (), s)
  | .model (.outOfRange _ _), s => (none, s)
  | .broadcast _, s => (none, s)
  | .gather _, s => (none, s)

/-- A request at a point that is too short, one without and one with values known. -/
def slopeDemands : List Demand :=
  [⟨[0], none⟩, ⟨[0, 0], none⟩, ⟨[1, 0], some ⟨0, [0], 0⟩⟩]

theorem slope_falls_back :
    let step : Double := Method.defaultComplex
    ((⟨.complexStep step, .threads, .finiteDifference, .contiguous⟩ : Engine).answers
        Session.slope .single slopeDemands none).run pointCounter 0 =
      ((⟨.finiteDifference Method.defaultDifference, .threads, .error, .contiguous⟩ :
        Engine).answers Session.slope .single slopeDemands none).run pointCounter 0 ∧
    ((⟨.complexStep step, .threads, .error, .contiguous⟩ : Engine).answers Session.slope .single
        slopeDemands none).run pointCounter 0 =
      .finished [.error (.shapeMismatch "x" 2 1), .error .complexStepUnsupported,
        .error .complexStepUnsupported] 0 := by
  have hdeclines : DeclinesComplex pointCounter := ⟨fun _ _ => rfl, fun _ _ => rfl⟩
  obtain ⟨hfalls, hrefuses, -⟩ := fallback_explained Session.slope Method.defaultComplex .threads
    .contiguous .single slopeDemands hdeclines 0 .error
  exact ⟨hfalls, hrefuses rfl⟩

end Engine

end Nlp
