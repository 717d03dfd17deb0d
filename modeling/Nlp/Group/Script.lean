import Nlp.Group.Mailbox
import Nlp.Group.Task

/-!
# Scripted peers

A rank whose collectives are answered by a script in place of peers, and the record of what a
rank sends.

## Main definitions

* `ScriptLine`, `Place.scripted`.
* `Program.recorded`: a program with the bytes of its collectives.
-/

namespace Nlp

/-- What a script says about one collective. -/
structure ScriptLine where
  /-- The collective fails, in these words. -/
  error : Option String
  /-- What a broadcast brings. -/
  received : Option Bytes
  /-- A gather gives nothing, also at the root. -/
  isNone : Bool
  /-- The parts of the other ranks in a gather, or another part of the own rank. -/
  parts : List (Rank × Bytes)

namespace ScriptLine

/-- A line that says nothing. -/
def blank : ScriptLine :=
  ⟨none, none, false, []⟩

/-- The parts of a gather: the own one, overlaid with those of the script. -/
def allParts (line : ScriptLine) (rank : Rank) (payload : Bytes) : Parts :=
  Ascending.ofList ((rank, payload) :: line.parts)

/-- A broadcast by this line. -/
def broadcast (line : ScriptLine) (here : Place) (payload : Bytes) : Except CommFault Bytes :=
  match line.error, line.received with
  | some text, _ => .error (.described text)
  | none, some bytes => .ok bytes
  | none, none => if here.isRoot then .ok payload else .error (.described "script exhausted")

/-- A gather by this line. -/
def gather (line : ScriptLine) (here : Place) (payload : Bytes) :
    Except CommFault (Option Parts) :=
  match line.error with
  | some text => .error (.described text)
  | none =>
    if line.isNone ∨ ¬ here.isRoot then .ok none
    else .ok (some (line.allParts here.rank payload))

end ScriptLine

/-- The calls of a rank whose peers follow a script. -/
def Place.scripted (here : Place) :
    (c : RankCall) → StateT (List ScriptLine) (Program (modelAccess Double)) (rankAccess.Reply c)
  | .model c => StateT.lift (Program.perform (I := modelAccess Double) c)
  | .broadcast payload => do
    let script ← get
    set script.tail
    return (script.headD .blank).broadcast here payload
  | .gather payload => do
    let script ← get
    set script.tail
    return (script.headD .blank).gather here payload

/-- What a rank passed to its collectives, in order. -/
abbrev Sent : Type :=
  List (Collective × Bytes)

/-- A call of a rank, whose bytes are put on record. -/
def RankCall.record : (c : RankCall) → StateT Sent (Program rankAccess) (rankAccess.Reply c)
  | .model c => StateT.lift (Program.perform (I := rankAccess) (.model c))
  | .broadcast payload => do
    modify (· ++ [(Collective.broadcast, payload)])
    StateT.lift (Program.perform (I := rankAccess) (.broadcast payload))
  | .gather payload => do
    modify (· ++ [(Collective.gather, payload)])
    StateT.lift (Program.perform (I := rankAccess) (.gather payload))

/-- A program with the bytes of its collectives. -/
def Program.recorded {τ : Type} (p : Program rankAccess τ) : Program rankAccess (τ × Sent) :=
  (p.interpret RankCall.record).run []

end Nlp
