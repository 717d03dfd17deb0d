import Nlp.Group.Task

/-!
# A rank on its own

The collectives of a group of one rank: what the rank sends is what it receives.
-/

namespace Nlp

namespace Single

/-- The only root is rank zero. -/
def checkRoot (root : Rank) : Except CommFault Unit :=
  if root = rootRank then .ok () else .error (.rootOfSingle root)

/-- A broadcast. -/
def broadcast (root : Rank) (payload : Bytes) : Except CommFault Bytes := do
  checkRoot root
  return payload

/-- A gather. -/
def gather (root : Rank) (payload : Bytes) : Except CommFault (Option Parts) := do
  checkRoot root
  return some [(rootRank, payload)]

/-- The calls of a rank on its own. -/
def answer : (c : RankCall) → Program (modelAccess Double) (rankAccess.Reply c)
  | .model c => Program.perform (I := modelAccess Double) c
  | .broadcast payload => .done (broadcast rootRank payload)
  | .gather payload => .done (gather rootRank payload)

end Single

/-- A program of a rank on its own. -/
def Program.alone {τ : Type} (p : Program rankAccess τ) : Program (modelAccess Double) τ :=
  p.interpret Single.answer

end Nlp
