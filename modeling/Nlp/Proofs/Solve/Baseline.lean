import Nlp.Proofs.Double
import Nlp.Proofs.Solve.History
import Nlp.Proofs.Solve.Mirror

/-!
# Values that serve as a baseline again

A bridge remembers its last evaluation, and gives it to the engine as the baseline of a Jacobian at
a point that is numerically equal.  With a model that always answers alike the values it remembers
are those of the model at their point, whatever has been asked for in between and whatever has
failed.  So a Jacobian comes out as it would without them, unless the point has a zero of the other
sign somewhere, and the model tells the two zeros apart.

## Main definitions

* `Model.Serves`: the model that a rank asks always answers alike.
* `Engine.matrixAt`, `Bridge.matrixAt`: the matrix, or the error, that a request comes to.
* `Bridge.Reached`: the bridges that callbacks lead to.
* `Zeros`: points that are equal but for the signs of zeros.

## Main results

* `Bridge.Reached.remembers`: what a bridge remembers is what the model makes of the point.
* `Engine.run_matrixAt_known`: known values do not change a matrix.
* `Bridge.baseline_explained`: when a Jacobian is not the one without a baseline.
* `cliff_astray`: then it need not be.
-/

namespace Nlp

variable {σ α β : Type} {m : Model Double}

/-! ## Ranks with a model that always answers alike -/

/-- Calls of the model are answered by `m`, and come to nothing else. -/
def Model.Serves (m : Model Double) (handler : RankHandler σ) : Prop :=
  ∀ c s, handler (.model c) s = (m.answer c, s)

/-- A rank goes on from what its model makes of a program. -/
theorem Model.Serves.run_onRank_bind {handler : RankHandler σ} (hm : m.Serves handler)
    {p : Program (modelAccess Double) α} {a : α} (hp : m.Gives p a) (f : α → Program rankAccess β)
    (s : σ) : (p.onRank.bind f).run handler s = (f a).run handler s := by
  -- on the calls of the program, each of which the handler answers as the model does
  induction p with
  | done b =>
    obtain rfl : b = a := (Program.Ending.finished.inj hp).1
    rfl
  | call c next ih =>
    have hcall : (Program.call c next).onRank.bind f =
        Program.call (I := rankAccess) (.model c) fun reply => (next reply).onRank.bind f := rfl
    rw [hcall, Program.run, hm c s]
    rw [Gives, Program.run, responder] at hp
    cases hc : m.answer c with
    | none =>
      rw [hc] at hp
      cases hp
    | some reply =>
      rw [hc] at hp
      exact ih reply hp

/-- What a model makes of a checked call. -/
theorem Model.gives_evaluate_iff {problem : Problem Double} {x : List Double}
    {e : Evaluation Double} :
    m.Gives (problem.evaluate x).run (.ok e) ↔
      x.length = problem.vars.length ∧ e = m.evaluate x ∧ problem.checkEvaluation e = .ok () := by
  have hask (s : Unit) : (Local.ask (.evaluate x)).run.run m.responder s =
      .finished (.ok (m.evaluate x)) s := rfl
  have hlift {τ : Type} (r : Except (Error Double) τ) (s : Unit) :
      (liftM r : Local Double τ).run.run m.responder s = .finished r s := rfl
  have hpure (s : Unit) : (pure (m.evaluate x) : Local Double _).run.run m.responder s =
      .finished (.ok (m.evaluate x)) s := rfl
  rw [Gives, Problem.evaluate]
  simp only [Program.run_except_bind, hlift, run_note, hask, hpure]
  by_cases hx : x.length = problem.vars.length
  · rw [Problem.checkPoint, if_pos hx]
    cases hcheck : problem.checkEvaluation (m.evaluate x) with
    | ok _ =>
      simp only [Program.Ending.finished.injEq, Except.ok.injEq, and_true, hx, true_and]
      constructor
      · rintro rfl
        exact ⟨rfl, hcheck⟩
      · exact fun h => h.1.symm
    | error error =>
      constructor
      · intro h
        cases h
      · rintro ⟨-, rfl, hok⟩
        rw [hcheck] at hok
        cases hok
  · rw [Problem.checkPoint, if_neg hx]
    constructor
    · intro h
      cases h
    · intro h
      exact absurd h.1 hx

/-! ## Matrices of requests -/

namespace Engine

variable (e : Engine) (problem : Problem Double) (x : List Double)
  (known : Option (Evaluation Double)) (here : Place)

/-- The matrix that a request comes to, or its error, and what the engine remembers then. -/
def matrixAt (memory : Memory) :
    Program rankAccess (Except (Error Double) (Matrix Double) × Memory) :=
  ((e.jacobianAt problem x known here).run.run memory).bind fun a =>
    .done (a.1.map Jacobian.matrix, a.2)

variable {e problem x known here} {handler : RankHandler σ} {memory : Memory} {s : σ}

/-- Requests with the same first part come to the same if what follows does. -/
theorem Request.run_bind_congr {t : Request α} {f f' : α → Request β} {τ : Type}
    {g : Except (Error Double) β × Memory → Program rankAccess τ}
    (h : ∀ a memory s, (((f a).run.run memory).bind g).run handler s =
      (((f' a).run.run memory).bind g).run handler s) :
    (((t >>= f).run.run memory).bind g).run handler s =
      (((t >>= f').run.run memory).bind g).run handler s := by
  rw [run_bind, run_bind, Program.bind_assoc, Program.bind_assoc, Program.run_bind,
    Program.run_bind]
  cases (t.run.run memory).run handler s with
  | stopped s => rfl
  | finished a s =>
    rcases a with ⟨_ | a, memory⟩
    · rfl
    · exact h a memory s

/-- The matrix of some columns does not depend on what they have cost. -/
theorem map_matrix_ofColumns (rows n : Nat) (columns : List (Column Double)) (spent spent' : Nat) :
    (Jacobian.ofColumns rows n columns spent).map Jacobian.matrix =
      (Jacobian.ofColumns rows n columns spent').map Jacobian.matrix := by
  rw [Jacobian.ofColumns, Jacobian.ofColumns]
  cases columns.foldlM Jacobian.place (Vector.replicate n none : Jacobian.Places Double rows n) with
  | error e => rfl
  | ok places =>
    dsimp only [bind, Except.bind]
    split
    · rfl
    · rfl

theorem run_assemble_congr {kernel : Kernel Double} (spent spent' : Nat) :
    (((e.assemble problem kernel x here spent).run.run memory).bind fun a =>
        .done (a.1.map Jacobian.matrix, a.2)).run handler s =
      (((e.assemble problem kernel x here spent').run.run memory).bind fun a =>
        .done (a.1.map Jacobian.matrix, a.2)).run handler s := by
  refine Request.run_bind_congr fun columns memory s => ?_
  have hlift (r : Except (Error Double) (Jacobian Double)) :
      (((Request.ofTask (liftM r)).run.run memory).bind fun a =>
        Program.done (I := rankAccess) (a.1.map Jacobian.matrix, a.2)) =
        .done (r.map Jacobian.matrix, memory) := rfl
  rw [hlift, hlift, map_matrix_ofColumns _ _ _ spent spent']

/-- Values that the model has at the point do not change a matrix. -/
theorem run_matrixAt_known (hm : m.Serves handler) {values : Evaluation Double}
    (hvalues : m.Gives (problem.evaluate x).run (.ok values)) :
    (e.matrixAt problem x (some values) here memory).run handler s =
      (e.matrixAt problem x none here memory).run handler s := by
  rw [matrixAt, matrixAt, jacobianAt_eq, jacobianAt_eq]
  by_cases hx : x.length ≠ problem.vars.length
  · rw [if_pos hx, if_pos hx]
  rw [if_neg hx, if_neg hx]
  by_cases hmode : e.mode = .parallel ∧ ¬ here.isRoot
  · rw [if_pos hmode, if_pos hmode]
  rw [if_neg hmode, if_neg hmode]
  refine Request.run_bind_congr fun _ memory s => Request.run_bind_congr fun scheme memory s => ?_
  cases scheme with
  | analytic => rfl
  | complex step => rfl
  | forward step =>
    -- without the values they are asked for, and then only the cost is another one
    have hask : (baseline problem x none).run.run memory =
        (problem.evaluate x).run.onRank.bind fun
          | .ok values => .done (.ok (values, 1), memory)
          | .error e => .done (.error e, memory) := by
      rw [baseline, Request.run_bind]
      change ((problem.evaluate x).run.onRank.bind fun r => .done (r, memory)).bind _ = _
      rw [Program.bind_assoc]
      refine congrArg (Program.bind _) (funext fun result => ?_)
      cases result with
      | ok values => rfl
      | error e => rfl
    rw [carryOut, carryOut, Request.run_bind, Request.run_bind, hask, Program.bind_assoc,
      Program.bind_assoc, Program.bind_assoc, hm.run_onRank_bind hvalues]
    exact run_assemble_congr _ _

end Engine

/-- The matrix that a bridge answers with, or its error, and what the engine remembers then. -/
def Bridge.matrixAt (problem : Problem Double) (e : Engine) (here : Place) (x : List Double)
    (b : Bridge) : Program rankAccess (Except (Error Double) (Matrix Double) × Engine.Memory) :=
  ((Bridge.answer problem e here (.jacobian x)).run b).bind fun a => .done (a.1, a.2.memory)

theorem Bridge.matrixAt_eq {problem : Problem Double} {e : Engine} {here : Place} {x : List Double}
    {b : Bridge} :
    b.matrixAt problem e here x = e.matrixAt problem x (b.known x) here b.memory := by
  rw [matrixAt, answer, run_jacobian, Program.bind_assoc, Engine.matrixAt]
  refine congrArg (Program.bind _) (funext fun a => ?_)
  rcases a with ⟨_ | J, memory⟩
  · rfl
  · rfl

/-- The points are the same, but for the signs of zeros. -/
def Zeros : List Double → List Double → Prop :=
  List.Forall₂ fun a b => a = b ∨ (a.IsZero ∧ b.IsZero)

namespace Bridge

/-! ## What a bridge remembers -/

/-- The bridges that some callbacks lead to, from a new one, where the rank is answered like this.
A callback that fails has a reply, too. -/
inductive Reached (problem : Problem Double) (e : Engine) (here : Place)
    (handler : RankHandler σ) : Bridge → Prop
  | new (memory : Engine.Memory) : Reached problem e here handler (.new memory)
  | answered {b b' : Bridge} {c : CallbackCall Double}
      {reply : (callbacks Double (Error Double)).Reply c} {s s' : σ}
      (hb : Reached problem e here handler b)
      (h : ((answer problem e here c).run b).run handler s = .finished (reply, b') s') :
    Reached problem e here handler b'

variable {problem : Problem Double} {e : Engine} {here : Place} {handler : RankHandler σ}
  {b : Bridge}

/-- The values that a bridge remembers are those its model has at their point. -/
theorem Reached.remembers (hm : m.Serves handler) (hb : Reached problem e here handler b)
    {point : List Double} {values : Evaluation Double} (hlast : b.last = some (point, values)) :
    m.Gives (problem.evaluate point).run (.ok values) := by
  -- on the callbacks that have been answered: only an evaluation that succeeds is remembered
  induction hb generalizing point values with
  | new memory => cases hlast
  | @answered b b' c reply s s' _ h ih =>
    cases c with
    | evaluate x =>
      obtain ⟨result, hresult, -⟩ := (problem.ranging_evaluate x).exists_gives m
      rw [answer, run_evaluate, hm.run_onRank_bind hresult] at h
      obtain ⟨hbridge, -⟩ := Program.Ending.finished.inj h
      cases result with
      | error error =>
        obtain rfl : b = b' := congrArg Prod.snd hbridge
        exact ih hlast
      | ok found =>
        obtain rfl : b.evaluated x found = b' := congrArg Prod.snd hbridge
        obtain ⟨rfl, rfl⟩ := Prod.mk.inj (Option.some.inj hlast)
        exact hresult
    | jacobian x =>
      rw [answer, run_jacobian] at h
      obtain ⟨⟨result, memory⟩, s₁, -, h⟩ := Program.run_bind_eq_finished.mp h
      have hbridge := congrArg Prod.snd (Program.Ending.finished.inj h).1
      cases result with
      | error error =>
        obtain rfl : { b with memory } = b' := hbridge
        exact ih hlast
      | ok J =>
        obtain rfl : { b with memory }.differentiated J.evaluations = b' := hbridge
        exact ih hlast
    | report progress =>
      obtain ⟨_, _, -, h⟩ := Program.run_bind_eq_finished.mp h
      obtain rfl : b = b' := congrArg Prod.snd (Program.Ending.finished.inj h).1
      exact ih hlast
    | outOfRange index size =>
      obtain ⟨_, _, -, h⟩ := Program.run_bind_eq_finished.mp h
      obtain rfl : b = b' := congrArg Prod.snd (Program.Ending.finished.inj h).1
      exact ih hlast

/-- Points that are numerically equal are the same, but for the signs of zeros. -/
theorem zeros_of_samePoint {x y : List Double} (h : samePoint x y = true) : Zeros x y := by
  rw [samePoint, Bool.and_eq_true, beq_iff_eq] at h
  obtain ⟨hlength, hall⟩ := h
  refine List.forall₂_iff_zip.mpr ⟨hlength, fun {a b} hab => ?_⟩
  exact Double.eq_or_isZero_of_beq (List.all_eq_true.mp hall (a, b) hab)

/-- A bridge that is asked for a Jacobian answers as the engine does without a baseline, with the
same matrix or error, and leaves the same behind, whatever callbacks have led to it.  The only
exception is a point whose last evaluation was at another one, with a zero of the other sign in some
place, where the model has other values: then they are the baseline. -/
theorem baseline_explained (hm : m.Serves handler) (hb : Reached problem e here handler b)
    (x : List Double) (s : σ) :
    (b.matrixAt problem e here x).run handler s =
        (e.matrixAt problem x none here b.memory).run handler s ∨
      ∃ point, b.last = some (point, m.evaluate point) ∧ Zeros point x ∧
        m.evaluate point ≠ m.evaluate x ∧
        (b.matrixAt problem e here x).run handler s =
          (e.matrixAt problem x (some (m.evaluate point)) here b.memory).run handler s := by
  rw [matrixAt_eq]
  cases hknown : b.known x with
  | none => exact .inl rfl
  | some values =>
    unfold known at hknown
    split at hknown
    · next point found hlast =>
      split at hknown
      · next hsame =>
        obtain rfl := Option.some.inj hknown
        -- the values have passed the checks, which do not look at the point
        obtain ⟨hlength, rfl, hcheck⟩ := Model.gives_evaluate_iff.mp (hb.remembers hm hlast)
        have hzeros := zeros_of_samePoint hsame
        by_cases heq : m.evaluate point = m.evaluate x
        · left
          refine Engine.run_matrixAt_known hm (Model.gives_evaluate_iff.mpr ⟨?_, heq, hcheck⟩)
          rw [← hzeros.length_eq, hlength]
        · exact .inr ⟨point, hlast, hzeros, heq, rfl⟩
      · nomatch hknown
    · nomatch hknown

end Bridge

/-! ## A cliff at zero -/

/-- The rank with this model, whose collectives fail. -/
def Model.hermit (m : Model Double) : RankHandler Unit
  | .model c, s => (m.answer c, s)
  | .broadcast payload, s => Work.deaf (.broadcast payload) s
  | .gather payload, s => Work.deaf (.gather payload) s

theorem Model.serves_hermit (m : Model Double) : m.Serves m.hermit :=
  fun _ _ => rfl

/-- One where `1 / x` is positive, and zero elsewhere. -/
def cliff : Model Double where
  evaluate x := ⟨if 0 < 1 / x.headD 0 then 1 else 0, [], 0⟩
  evaluateComplex _ := none
  gradient _ := none

/-- A problem with one variable. -/
def cliffProblem : Problem Double :=
  ⟨"cliff", [⟨"x", .continuous, -1, 1, 0⟩], ["f"], []⟩

/-- Forward differences. -/
def cliffEngine : Engine :=
  .new (.finiteDifference Method.defaultDifference) .sequential

/-- The bridge after an evaluation at zero. -/
def cliffBridge : Bridge :=
  (Bridge.new none).evaluated [0] (cliff.evaluate [0])

theorem cliffBridge_reached :
    Bridge.Reached cliffProblem cliffEngine .single cliff.hermit cliffBridge := by
  have hevaluated : ((Bridge.answer cliffProblem cliffEngine .single (.evaluate [0])).run
      (.new none)).run cliff.hermit () = .finished (.ok ⟨1, []⟩, cliffBridge) () := rfl
  exact .answered (.new none) hevaluated

/-- At the negative zero the baseline is that of zero, and the difference is lost. -/
theorem cliff_astray :
    cliff.Serves cliff.hermit ∧
      Bridge.Reached cliffProblem cliffEngine .single cliff.hermit cliffBridge ∧
      ∃ J J', (cliffBridge.matrixAt cliffProblem cliffEngine .single [-0]).run cliff.hermit () =
          .finished (.ok J, none) () ∧
        (cliffEngine.matrixAt cliffProblem [-0] none .single cliffBridge.memory).run
          cliff.hermit () = .finished (.ok J', none) () ∧
        J.toLists = [[0]] ∧ J'.toLists = [[1e6]] :=
  ⟨cliff.serves_hermit, cliffBridge_reached, _, _, rfl, rfl, by decide +kernel, by decide +kernel⟩

/-- On one side of the cliff the values of the other are the baseline. -/
theorem cliff_explained :
    cliff.Serves cliff.hermit ∧
      Bridge.Reached cliffProblem cliffEngine .single cliff.hermit cliffBridge ∧
      ((cliffBridge.matrixAt cliffProblem cliffEngine .single [-0]).run cliff.hermit () =
          (cliffEngine.matrixAt cliffProblem [-0] none .single cliffBridge.memory).run
            cliff.hermit () ∨
        ∃ point, cliffBridge.last = some (point, cliff.evaluate point) ∧ Zeros point [-0] ∧
          cliff.evaluate point ≠ cliff.evaluate [-0] ∧
          (cliffBridge.matrixAt cliffProblem cliffEngine .single [-0]).run cliff.hermit () =
            (cliffEngine.matrixAt cliffProblem [-0] (some (cliff.evaluate point)) .single
              cliffBridge.memory).run cliff.hermit ()) :=
  ⟨cliff.serves_hermit, cliffBridge_reached,
    Bridge.baseline_explained cliff.serves_hermit cliffBridge_reached [-0] ()⟩

end Nlp
