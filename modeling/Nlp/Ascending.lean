/-!
# Ascending entries

Entries by key, in ascending order of keys: option values by their keys, and the parts of a gather
by their ranks.

## Main definitions

* `Ascending`, `Ascending.insert`, `Ascending.ofList`.

## Main results

* `Ascending.lookup_insert`: the last value put in for a key is the value of the key.
* `Ascending.mem_keys_insert`: no key is lost, and none is made up.
-/

namespace Nlp

/-- Entries by key, in ascending order of keys. -/
abbrev Ascending (κ β : Type) : Type :=
  List (κ × β)

namespace Ascending

variable {κ β : Type} [LT κ] [DecidableLT κ] [DecidableEq κ]

/-- The entries with a value for a key, in place of an earlier value of that key. -/
def insert (key : κ) (value : β) : Ascending κ β → Ascending κ β
  | [] => [(key, value)]
  | (k, v) :: rest =>
    if key < k then (key, value) :: (k, v) :: rest
    else if key = k then (key, value) :: rest
    else (k, v) :: insert key value rest

/-- The entries of some keys with their values; of a key that comes twice the last value stays. -/
def ofList (entries : List (κ × β)) : Ascending κ β :=
  entries.foldl (fun table (key, value) => insert key value table) []

omit [LT κ] [DecidableLT κ] in
theorem lookup_cons_entry (other key : κ) (value : β) (entries : Ascending κ β) :
    List.lookup other ((key, value) :: entries) =
      if other = key then some value else List.lookup other entries := by
  by_cases h : other = key
  · subst h
    simp
  · have hb : (other == key) = false := beq_false_of_ne h
    simp [List.lookup_cons, hb, h]

/-- The value of the key that was put in is the new one, and the others stay. -/
theorem lookup_insert (key other : κ) (value : β) (entries : Ascending κ β) :
    List.lookup other (insert key value entries) =
      if other = key then some value else List.lookup other entries := by
  induction entries with
  | nil => exact lookup_cons_entry other key value []
  | cons entry entries ih =>
    obtain ⟨k, v⟩ := entry
    rw [insert]
    split
    · exact lookup_cons_entry other key value _
    · split
      · rename_i h
        subst h
        simp only [lookup_cons_entry]
        split <;> rfl
      · rename_i h
        simp only [lookup_cons_entry, ih]
        by_cases hk : other = k
        · subst hk
          simp [Ne.symm h]
        · simp only [if_neg hk]

/-- The keys are those there were, and the one that was put in. -/
theorem mem_keys_insert {key other : κ} {value : β} {entries : Ascending κ β} :
    other ∈ (insert key value entries).map Prod.fst ↔
      other = key ∨ other ∈ entries.map Prod.fst := by
  induction entries with
  | nil => simp [insert]
  | cons entry entries ih =>
    obtain ⟨k, v⟩ := entry
    rw [insert]
    split
    · simp
    · split
      · rename_i h
        simp [h]
      · simp only [List.map_cons, List.mem_cons, ih]
        exact or_left_comm

end Ascending

end Nlp
