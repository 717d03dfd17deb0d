import Nlp.Proofs.Derivative.Local
import Nlp.Proofs.Derivative.Session
import Nlp.Proofs.Group.Conduct

/-!
# A rank that relies on nobody

What a rank asks its model for a request, and what it tells its group, follows from the request
alone where the rank does not act on what it is told.  Then the rules it keeps to are kept whatever
its model and its group answer, also if they break every rule.

## Main definitions

* `Conduct.unaided`: the rules for a rank that may be answered anything.
* `unaided`, `unaidedTask`, `Engine.unaidedRequest`: programs, tasks and requests that keep to them.

## Main results

* `Place.unaided_broadcast`, `Place.unaided_gather`: the collectives of values.
* `Session.unaided_request`: a request for columns.
-/

namespace Nlp

variable {conduct : Conduct} {here : Place} {problem : Problem Double} {α τ : Type}

/-- The rules for a rank, whatever it is answered. -/
def Conduct.unaided (conduct : Conduct) : Contract rankAccess where
  asks
    | .model c => conduct.asks c
    | .broadcast payload => conduct.tells payload
    | .gather _ => True
  replies _ _ := True

/-- The results of programs that keep to the rules, whatever they are answered. -/
abbrev unaided (conduct : Conduct) : Always (Program rankAccess) :=
  .program conduct.unaided

/-- The results, errors apart, of such tasks. -/
abbrev unaidedTask (conduct : Conduct) : Always Task :=
  (unaided conduct).except (Error Double)

/-- Calls of the model that the rules allow, with any replies. -/
def Conduct.ofModel (conduct : Conduct) : Contract (modelAccess Double) :=
  ⟨conduct.asks, fun _ _ => True⟩

/-- A message whose counts are no words may be given up. -/
def Conduct.SparesWords (conduct : Conduct) : Prop :=
  ∀ count, Wire.wordLimit ≤ count → conduct.asks (.outOfRange count Wire.wordLimit)

theorem unaided_onRank {p : Program (modelAccess Double) α} {post : α → Prop}
    (h : p.Meets conduct.ofModel post) : (unaided conduct).holds p.onRank post := by
  have hmodel : ∀ c : ModelCall Double, conduct.asks c →
      (unaided conduct).holds (Program.perform (I := rankAccess) (.model c)) fun _ => True :=
    fun c hc => ⟨hc, fun _ _ => trivial⟩
  exact h.interpret (unaided conduct) hmodel

/-! ## Tasks -/

namespace Task

theorem unaided_ofLocal {l : Local Double α} {post : α → Prop}
    (h : l.run.Meets conduct.ofModel fun r => ∀ a, r = .ok a → post a) :
    (unaidedTask conduct).holds (ofLocal l) post :=
  unaided_onRank h

theorem unaided_throw (e : Error Double) (post : α → Prop) :
    (unaidedTask conduct).holds (throw e) post := by
  intro b hb
  cases hb

theorem unaided_lift {p : Program rankAccess α} {post : α → Prop}
    (h : (unaided conduct).holds p post) : (unaidedTask conduct).holds (ExceptT.lift p) post := by
  refine (unaided conduct).map (h.mono ?_)
  rintro a ha _ ⟨⟩
  exact ha

theorem unaided_encode [Wire τ] (hwords : conduct.SparesWords) (v : τ) :
    (unaidedTask conduct).holds (encode v) fun bytes =>
      bytes = Wire.toBytes v ∧ Wire.extent v < Wire.wordLimit := by
  refine (unaidedTask conduct).ite (fun hextent => ?_) fun hextent => ?_
  · exact (unaidedTask conduct).pure _ ⟨rfl, hextent⟩
  · exact ⟨hwords _ (Nat.le_of_not_lt hextent), fun reply => reply.elim⟩

theorem unaided_decode [Wire τ] (bytes : Bytes) :
    (unaidedTask conduct).holds (decode bytes : Task τ) fun _ => True := by
  rw [decode]
  split
  · exact (unaidedTask conduct).pure _ trivial
  · exact unaided_throw _ _

theorem unaided_decodeAll [Wire τ] (parts : Parts) :
    (unaidedTask conduct).holds (decodeAll parts : Task (List (Rank × τ))) fun _ => True := by
  induction parts with
  | nil => exact (unaidedTask conduct).pure [] trivial
  | cons part parts ih =>
    refine (unaidedTask conduct).seq (unaided_decode part.2) fun v => ?_
    exact (unaidedTask conduct).seq ih fun vs => (unaidedTask conduct).pure _ trivial

theorem unaided_broadcastBytes {payload : Bytes} (htells : conduct.tells payload) :
    (unaidedTask conduct).holds (broadcastBytes payload) fun _ => True := by
  refine ⟨htells, fun reply _ => ?_⟩
  cases reply with
  | ok bytes => exact fun _ _ => trivial
  | error fault => exact fun _ _ => trivial

theorem unaided_gatherBytes (payload : Bytes) :
    (unaidedTask conduct).holds (gatherBytes payload) fun _ => True := by
  refine ⟨trivial, fun reply _ => ?_⟩
  cases reply with
  | ok parts => exact fun _ _ => trivial
  | error fault => exact fun _ _ => trivial

end Task

namespace Place

/-- The value the root broadcasts is one it may tell, and so are the empty bytes of the others. -/
theorem unaided_broadcast [Wire τ] (hwords : conduct.SparesWords) {value : Option τ}
    (hvalue : ∀ v, value = some v → Wire.extent v < Wire.wordLimit →
      conduct.tells (Wire.toBytes v)) (hempty : conduct.tells []) :
    (unaidedTask conduct).holds (here.broadcast value) fun _ => True := by
  have hsend : ∀ {payload}, conduct.tells payload → (unaidedTask conduct).holds
      (do let bytes ← Task.broadcastBytes payload; Task.decode bytes : Task τ) fun _ => True :=
    fun htells => (unaidedTask conduct).seq (Task.unaided_broadcastBytes htells) fun bytes =>
      Task.unaided_decode bytes
  rw [broadcast.eq_def]
  refine (unaidedTask conduct).ite (fun _ => ?_) fun _ => hsend hempty
  cases value with
  | none => exact (unaidedTask conduct).chain (Task.unaided_throw _ fun _ => False) nofun
  | some v =>
    refine (unaidedTask conduct).chain (Task.unaided_encode hwords v) ?_
    rintro payload ⟨rfl, hextent⟩
    exact hsend (hvalue v rfl hextent)

theorem unaided_gather [Wire τ] (hwords : conduct.SparesWords) (v : τ) :
    (unaidedTask conduct).holds (gather v) fun _ => True := by
  refine (unaidedTask conduct).chain (Task.unaided_encode hwords v) fun bytes _ => ?_
  refine (unaidedTask conduct).seq (Task.unaided_gatherBytes bytes) fun parts => ?_
  cases parts with
  | none => exact (unaidedTask conduct).pure none trivial
  | some parts =>
    exact (unaidedTask conduct).seq (Task.unaided_decodeAll parts) fun _ =>
      (unaidedTask conduct).pure _ trivial

end Place

/-! ## Columns -/

/-- The root asks its own model for its block, and tells the others what it asks for. -/
theorem Session.unaided_request (hwords : conduct.SparesWords) {q : Request}
    (hcommand : Wire.extent q.command < Wire.wordLimit → conduct.tells (Wire.toBytes q.command))
    (hempty : conduct.tells [])
    (hblock : (q.block problem here).run.Meets conduct.ofModel fun _ => True) :
    (unaidedTask conduct).holds (request problem q.kernel q.x q.partition here)
      fun _ => True := by
  rw [request_root]
  refine (unaidedTask conduct).seq (Place.unaided_broadcast hwords ?_ hempty) fun _ => ?_
  · rintro _ ⟨⟩
    exact hcommand
  have hown : (unaided conduct).holds (ownBlock problem q.kernel q.x q.partition here)
      fun _ => True := by
    rw [ownBlock_eq]
    exact (unaided conduct).seq (unaided_onRank hblock) fun _ => trivial
  refine (unaidedTask conduct).seq (Task.unaided_lift hown) fun own => ?_
  refine (unaidedTask conduct).seq (Place.unaided_gather hwords own) fun gathered => ?_
  cases gathered with
  | none => exact Task.unaided_throw _ _
  | some reports =>
    dsimp only
    cases verdict reports with
    | ok columns => exact (unaidedTask conduct).pure columns trivial
    | error e => exact Task.unaided_throw e _

/-! ## Requests to an engine -/

namespace Engine

/-- The results, errors apart, of requests that keep to the rules. -/
abbrev unaidedRequest (conduct : Conduct) : Always Request :=
  ((unaided conduct).state fun _ : Memory => True).except (Error Double)

theorem unaided_ofTask {t : Task α} {post : α → Prop} (h : (unaidedTask conduct).holds t post) :
    (unaidedRequest conduct).holds (Request.ofTask t) post :=
  (unaided conduct).holds_lift_state t.run h

theorem unaided_throw (e : Error Double) (post : α → Prop) :
    (unaidedRequest conduct).holds (throw e : Request α) post :=
  fun _ _ => ⟨fun _ h => (nomatch h), trivial⟩

end Engine

end Nlp
