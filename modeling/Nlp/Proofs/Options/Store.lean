import Nlp.Options.Store
import Mathlib.Data.List.Nodup

/-!
# Options as a keyed store

A store answers for each of its keys with the last value it has accepted for that key, or with the
standard value if there has been none, and whatever it refuses or passes over leaves no trace.  So
the table of its values is all there is to it: set on a new store, in any order, the values of the
table bring the configuration back.

What a schema has to do for that is said once, key by key, and holds of the schemas of both
solvers.

## Main definitions

* `OptionValue.readAs`: a value as an option of some type holds it.
* `Setting.Sound`, `Schema.Lawful`: settings that write what they are given, and nothing else.
* `Schema.Settled`: a configuration whose values are such as have been accepted.
* `Store.after`, `Store.lastAccepted`: some calls of `set`, and what the store accepts of them.
* `Store.Replayable`: what is known of a store after some calls.

## Main results

* `Schema.Lawful.settled_set`: what one call does to a store.
* `Store.get_after`: what any number of calls does.
* `Store.setAll_entries`: what the values of another configuration do.
* `Store.calls_replayable`: both solvers' stores keep and give back what they have accepted.
-/

namespace Nlp

/-! ## Tables -/

namespace Ascending

variable {κ β : Type} [LT κ] [DecidableLT κ] [DecidableEq κ]

/-- A new key joins the entries there are. -/
theorem insert_perm {key : κ} {value : β} {entries : Ascending κ β}
    (h : key ∉ entries.map Prod.fst) :
    (insert key value entries).Perm ((key, value) :: entries) := by
  -- on the entries before the place of the key
  induction entries with
  | nil => exact .refl _
  | cons entry entries ih =>
    obtain ⟨k, v⟩ := entry
    rw [List.map_cons, List.mem_cons, not_or] at h
    obtain ⟨hne, hrest⟩ := h
    rw [insert, if_neg hne]
    split
    · exact .refl _
    · exact ((ih hrest).cons (k, v)).trans (.swap _ _ _)

/-- A table has all the entries it is made of, if their keys are different. -/
theorem ofList_perm {entries : List (κ × β)} (h : (entries.map Prod.fst).Nodup) :
    (ofList entries).Perm entries := by
  suffices hfold : ∀ table : Ascending κ β, ((entries ++ table).map Prod.fst).Nodup →
      (entries.foldl (fun table entry => insert entry.1 entry.2 table) table).Perm
        (entries ++ table) by
    have hempty := hfold [] (by rwa [List.append_nil])
    rwa [List.append_nil] at hempty
  -- the claim for a fold that starts from any table, which the entries do not share keys with
  clear h
  induction entries with
  | nil => exact fun table _ => .refl table
  | cons entry entries ih =>
    intro table hnodup
    have hkey : entry.1 ∉ table.map Prod.fst := by
      intro hmem
      rw [List.cons_append, List.map_cons, List.nodup_cons, List.map_append] at hnodup
      exact hnodup.1 (List.mem_append_right _ hmem)
    have hinsert : (insert entry.1 entry.2 table).Perm (entry :: table) := insert_perm hkey
    have hmiddle : (entries ++ insert entry.1 entry.2 table).Perm (entry :: entries ++ table) :=
      (hinsert.append_left entries).trans List.perm_middle
    refine (ih _ ?_).trans hmiddle
    exact ((hmiddle.map Prod.fst).nodup_iff).mpr hnodup

omit [LT κ] [DecidableLT κ] in
/-- Each entry is found under its key, if the keys are different. -/
theorem lookup_of_mem {key : κ} {value : β} {entries : List (κ × β)}
    (h : (entries.map Prod.fst).Nodup) (hmem : (key, value) ∈ entries) :
    entries.lookup key = some value := by
  -- on the entries: an earlier one has another key
  induction entries with
  | nil => cases hmem
  | cons entry entries ih =>
    obtain ⟨k, v⟩ := entry
    rw [List.map_cons, List.nodup_cons] at h
    obtain ⟨hnot, hnodup⟩ := h
    rw [lookup_cons_entry]
    rcases List.mem_cons.mp hmem with heq | hrest
    · obtain ⟨rfl, rfl⟩ := Prod.mk.inj heq
      exact if_pos rfl
    · have hne : key ≠ k := by
        rintro rfl
        exact hnot (List.mem_map.mpr ⟨(key, value), hrest, rfl⟩)
      rw [if_neg hne, ih hnodup hrest]

end Ascending

/-! ## Values -/

namespace OptionValue

/-- The value as an option with this standard value holds it: an integer that is given for a number
is that number. -/
def readAs (standard : OptionValue) : OptionValue → OptionValue
  | int i =>
    match standard with
    | float _ => float (Double.ofInt i.toInt)
    | _ => int i
  | v => v

@[simp] theorem readAs_readAs (standard v : OptionValue) :
    readAs standard (readAs standard v) = readAs standard v := by
  cases v <;> cases standard <;> rfl

@[simp] theorem readAs_self (v : OptionValue) : readAs v v = v := by
  cases v <;> rfl

@[simp] theorem readAs_int (i : Int64) (v : OptionValue) : readAs (int i) v = v := by
  cases v <;> rfl

theorem readAs_ofNat (n : Nat) (v : OptionValue) : readAs (ofNat n) v = v :=
  readAs_int _ v

theorem positive_readAs (d : Double) (v : OptionValue) (key : String) :
    (readAs (float d) v).positive key = v.positive key := by
  cases v <;> rfl

theorem requirePositive_eq_ok {key : String} {d e : Double}
    (h : requirePositive key d = .ok e) : d = e := by
  unfold requirePositive at h
  split at h
  · exact Except.ok.inj h
  · cases h

/-- A number that is accepted is the one that was given. -/
theorem float_of_positive {d e : Double} {v : OptionValue} {key : String}
    (h : v.positive key = .ok e) : float e = readAs (float d) v := by
  cases v with
  | float f => exact congrArg float (requirePositive_eq_ok h).symm
  | int i => exact congrArg float (requirePositive_eq_ok h).symm
  | bool b => cases h
  | text s => cases h

/-- The value as a finite number greater than one. -/
def aboveOne (v : OptionValue) (key : String) : Except (Error Double) Double := do
  let d ← v.positive key
  if d ≤ 1 then throw (.invalidOption key (.notAboveOne d)) else return d

theorem aboveOne_readAs (d : Double) (v : OptionValue) (key : String) :
    (readAs (float d) v).aboveOne key = v.aboveOne key := by
  rw [aboveOne, aboveOne, positive_readAs]

theorem positive_of_aboveOne {v : OptionValue} {key : String} {d : Double}
    (h : v.aboveOne key = .ok d) : v.positive key = .ok d := by
  cases hv : v.positive key with
  | error e =>
    rw [aboveOne, hv] at h
    cases h
  | ok e =>
    rw [aboveOne, hv] at h
    change (if e ≤ 1 then _ else _) = _ at h
    split at h
    · cases h
    · exact h

/-- The largest count that is an integer of 64 bits. -/
def maxCount : Nat := Int64.maxValue.toNatClampNeg

theorem maxCount_eq : maxCount = 9223372036854775807 := by
  decide +kernel

theorem ofNat_of_le {n : Nat} (h : n ≤ maxCount) : ofNat n = int (Int64.ofNat n) :=
  congrArg (fun n => int (Int64.ofNat n)) (Nat.min_eq_left h)

theorem ofNat_inj {n m : Nat} (hn : n ≤ maxCount) (hm : m ≤ maxCount) (h : ofNat n = ofNat m) :
    n = m := by
  rw [ofNat_of_le hn, ofNat_of_le hm] at h
  rw [maxCount_eq] at hn hm
  have hints := congrArg Int64.toInt (int.inj h)
  rw [Int64.toInt_ofNat_of_lt (by omega), Int64.toInt_ofNat_of_lt (by omega)] at hints
  exact Int.ofNat_inj.mp hints

/-- An integer that is accepted as a count is the one that was given. -/
theorem ofNat_of_intIn {v : OptionValue} {key : String} {low high : Int} {n : Nat} (hlow : 0 ≤ low)
    (h : Int.toNat <$> v.intIn key low high = .ok n) : n ≤ maxCount ∧ ofNat n = v := by
  cases v with
  | int i =>
    by_cases hbounds : low ≤ i.toInt ∧ i.toInt ≤ high
    · rw [intIn, if_pos hbounds] at h
      obtain rfl := Except.ok.inj h
      obtain ⟨m, hm⟩ := Int.eq_ofNat_of_zero_le (Int.le_trans hlow hbounds.1)
      have hmax := i.toInt_lt
      have hle : m ≤ maxCount := by
        rw [maxCount_eq]
        omega
      rw [hm, Int.toNat_natCast]
      refine ⟨hle, ?_⟩
      rw [ofNat_of_le hle, ← Int64.ofInt_eq_ofNat, ← hm, Int64.ofInt_toInt]
    · rw [intIn, if_neg hbounds] at h
      cases h
  | bool b => cases h
  | float d => cases h
  | text s => cases h

end OptionValue

/-! ## Lawful schemas -/

section

variable {κ : Type} [Schema κ] {fits : κ → Prop}

/-- What an option does: whether it accepts a value depends on the value only, what it accepts it
keeps, and the other options stay as they are.  The configurations it makes stay among those that
are known to fit. -/
structure Setting.Sound (fits : κ → Prop) (s : Setting κ) : Prop where
  set_readAs : ∀ v c, s.set ((s.get Schema.default).readAs v) c = s.set v c
  uniform : ∀ {v c c'}, s.set v c = .ok c' → ∀ d, ∃ d', s.set v d = .ok d'
  get_set : ∀ {v c c'}, s.set v c = .ok c' → ∀ t ∈ Schema.settings (κ := κ),
    t.get c' = if t.key = s.key then (s.get Schema.default).readAs v else t.get c
  fits_set : ∀ {v c c'}, s.set v c = .ok c' → fits c → fits c'

namespace Schema

/-- The values of all options, in the order of the settings. -/
def values (c : κ) : List OptionValue :=
  settings.map fun s : Setting κ => s.get c

/-- What makes a schema a keyed store of its configurations: the keys are different, the settings
do what is said of them, the standard values are accepted, and a configuration is no more than its
values. -/
structure Lawful (fits : κ → Prop) : Prop where
  nodup : (keys κ).Nodup
  sound : ∀ s ∈ settings (κ := κ), s.Sound fits
  accepts_default : ∀ s ∈ settings (κ := κ), ∃ c, s.set (s.get default) default = .ok c
  fits_default : fits default
  ext : ∀ {c d}, fits c → fits d → values c = values d → c = d

/-- A configuration whose values have all been accepted, as they stand. -/
structure Settled (fits : κ → Prop) (c : κ) : Prop where
  fits : fits c
  accepts : ∀ s ∈ settings (κ := κ), ∃ c', s.set (s.get c) default = .ok c'
  reads : ∀ s ∈ settings (κ := κ), (s.get default).readAs (s.get c) = s.get c

namespace Lawful

variable {s t : Setting κ} {c c' d : κ} {v : OptionValue}

theorem eq_of_key_eq (hκ : Lawful fits) (hs : s ∈ settings) (ht : t ∈ settings)
    (h : s.key = t.key) : s = t :=
  List.inj_on_of_nodup_map hκ.nodup hs ht h

theorem apply_key (hκ : Lawful fits) (hs : s ∈ settings) : apply c s.key v = s.set v c := by
  have hfind : settings.find? (fun t : Setting κ => t.key == s.key) = some s := by
    cases hfound : settings.find? fun t : Setting κ => t.key == s.key with
    | none =>
      have hnone := List.find?_eq_none.mp hfound s hs
      exact absurd (beq_self_eq_true s.key) hnone
    | some t =>
      have hkey : t.key = s.key := by simpa using List.find?_some hfound
      rw [hκ.eq_of_key_eq (List.mem_of_find?_eq_some hfound) hs hkey]
  rw [apply, hfind]

theorem settled_default (hκ : Lawful fits) : Settled fits (default : κ) where
  fits := hκ.fits_default
  accepts := hκ.accepts_default
  reads _ _ := OptionValue.readAs_self _

/-- What a setting accepts leaves every value such as has been accepted. -/
theorem settled_set (hκ : Lawful fits) (hs : s ∈ settings) (hset : s.set v c = .ok c')
    (hc : Settled fits c) : Settled fits c' where
  fits := (hκ.sound s hs).fits_set hset hc.fits
  accepts t ht := by
    rw [(hκ.sound s hs).get_set hset t ht]
    split
    · next hkey =>
      obtain rfl := hκ.eq_of_key_eq ht hs hkey
      rw [(hκ.sound t ht).set_readAs]
      exact (hκ.sound t ht).uniform hset default
    · exact hc.accepts t ht
  reads t ht := by
    rw [(hκ.sound s hs).get_set hset t ht]
    split
    · next hkey =>
      obtain rfl := hκ.eq_of_key_eq ht hs hkey
      exact OptionValue.readAs_readAs _ _
    · exact hc.reads t ht

/-- The table of a configuration has its values, each under its key. -/
theorem snapshot_perm (hκ : Lawful fits) (c : κ) :
    (snapshot c).Perm (settings.map fun s : Setting κ => (s.key, s.get c)) := by
  refine Ascending.ofList_perm ?_
  rw [List.map_map]
  exact hκ.nodup

theorem keys_snapshot_perm (hκ : Lawful fits) (c : κ) :
    ((snapshot c).map Prod.fst).Perm (keys κ) := by
  have hperm := (hκ.snapshot_perm c).map Prod.fst
  rwa [List.map_map] at hperm

theorem lookup_snapshot (hκ : Lawful fits) (hs : s ∈ settings) :
    (snapshot c).lookup s.key = some (s.get c) := by
  refine Ascending.lookup_of_mem ((hκ.keys_snapshot_perm c).nodup_iff.mpr hκ.nodup) ?_
  exact (hκ.snapshot_perm c).mem_iff.mpr (List.mem_map_of_mem hs)

end Lawful

end Schema

end

/-! ## Calls -/

namespace Store

variable {κ : Type} [Schema κ] {fits : κ → Prop}

/-- The store after some calls, whatever came of each. -/
def after (s : Store κ) (calls : List (String × OptionValue)) : Store κ :=
  calls.foldl (fun s (key, value) => (s.set key value).store) s

/-- Whether the store takes the value over. -/
def accepts (s : Store κ) (key : String) (value : OptionValue) : Bool :=
  (Schema.keys κ).contains key && (s.set key value).error.isNone

/-- The last of the values given for the key that the store has taken over. -/
def lastAccepted (key : String) : Store κ → List (String × OptionValue) → Option OptionValue
  | _, [] => none
  | s, (k, value) :: calls =>
    lastAccepted key (s.set k value).store calls <|>
      if k = key ∧ s.accepts k value then some value else none

/-- What a store does not take over leaves it as it is. -/
theorem store_set_of_not_accepts {s : Store κ} {key : String} {value : OptionValue}
    (h : ¬ s.accepts key value) : (s.set key value).store = s := by
  unfold set
  split
  · next hkey =>
    cases happly : Schema.apply s.config key value with
    | error e => rfl
    | ok config =>
      refine absurd ?_ h
      rw [accepts, set, if_pos hkey, hkey, happly]
      rfl
  · cases s.policy with
    | strict => rfl
    | permissive => rfl

/-- What a store takes over is set by the setting of the key. -/
theorem set_of_accepts (hκ : Schema.Lawful fits) {s : Store κ} {key : String}
    {value : OptionValue} (h : s.accepts key value) :
    ∃ t ∈ Schema.settings (κ := κ), t.key = key ∧ ∃ config, t.set value s.config = .ok config ∧
      s.set key value = ⟨⟨config, s.policy⟩, [], none⟩ := by
  obtain ⟨hkey, herror⟩ := Bool.and_eq_true_iff.mp h
  obtain ⟨t, ht, rfl⟩ := List.mem_map.mp (List.contains_iff_mem.mp hkey)
  refine ⟨t, ht, rfl, ?_⟩
  rw [set, if_pos hkey, hκ.apply_key ht] at herror ⊢
  cases hset : t.set value s.config with
  | ok config => exact ⟨config, rfl, rfl⟩
  | error e =>
    rw [hset] at herror
    cases herror

/-- What the setting of a key accepts is taken over. -/
theorem set_key (hκ : Schema.Lawful fits) {s : Store κ} {t : Setting κ}
    (ht : t ∈ Schema.settings) {value : OptionValue} {config : κ}
    (hset : t.set value s.config = .ok config) :
    s.set t.key value = ⟨⟨config, s.policy⟩, [], none⟩ := by
  have hkey : (Schema.keys κ).contains t.key := List.contains_iff_mem.mpr (List.mem_map_of_mem ht)
  rw [set, if_pos hkey, hκ.apply_key ht, hset]

/-- What one call does: the values stay as they are, but for one that is accepted. -/
theorem get_set (hκ : Schema.Lawful fits) (s : Store κ) (key : String) (value : OptionValue)
    {t : Setting κ} (ht : t ∈ Schema.settings) :
    t.get (s.set key value).store.config =
      if key = t.key ∧ s.accepts key value then (t.get Schema.default).readAs value
      else t.get s.config := by
  by_cases haccepts : s.accepts key value
  · obtain ⟨u, hu, rfl, config, hset, heq⟩ := set_of_accepts hκ haccepts
    rw [heq, (hκ.sound u hu).get_set hset t ht]
    simp only [haccepts, and_true, eq_comm (a := t.key)]
    split
    · next hkey => rw [hκ.eq_of_key_eq hu ht hkey]
    · rfl
  · rw [store_set_of_not_accepts haccepts, if_neg fun h => haccepts h.2]

theorem settled_set (hκ : Schema.Lawful fits) {s : Store κ} (key : String) (value : OptionValue)
    (hs : Schema.Settled fits s.config) : Schema.Settled fits (s.set key value).store.config := by
  by_cases haccepts : s.accepts key value
  · obtain ⟨t, ht, rfl, config, hset, heq⟩ := set_of_accepts hκ haccepts
    rw [heq]
    exact hκ.settled_set ht hset hs
  · rwa [store_set_of_not_accepts haccepts]

theorem settled_after (hκ : Schema.Lawful fits) (calls : List (String × OptionValue)) :
    ∀ {s : Store κ}, Schema.Settled fits s.config → Schema.Settled fits (s.after calls).config := by
  induction calls with
  | nil => exact fun hs => hs
  | cons call calls ih => exact fun hs => ih (settled_set hκ call.1 call.2 hs)

/-- What any number of calls does: each value is the last that has been accepted for it, or as it
was. -/
theorem get_after (hκ : Schema.Lawful fits) {t : Setting κ} (ht : t ∈ Schema.settings)
    (calls : List (String × OptionValue)) : ∀ s : Store κ, t.get (s.after calls).config =
      (s.lastAccepted t.key calls).elim (t.get s.config) (t.get Schema.default).readAs := by
  -- on the calls: the last one that is accepted decides, so the rest is asked first
  induction calls with
  | nil => exact fun _ => rfl
  | cons call calls ih =>
    intro s
    obtain ⟨key, value⟩ := call
    change t.get (((s.set key value).store).after calls).config = _
    rw [ih, lastAccepted]
    cases lastAccepted t.key (s.set key value).store calls with
    | some w => rfl
    | none =>
      rw [get_set hκ s key value ht]
      split <;> rfl

/-- Accepted values of another configuration are accepted again, and the store then has them. -/
theorem setAll_entries (hκ : Schema.Lawful fits) {c : κ} (hc : Schema.Settled fits c)
    (policy : Policy) : ∀ {entries : List (String × OptionValue)} {d : κ},
      (∀ entry ∈ entries, ∃ t ∈ Schema.settings (κ := κ), entry = (t.key, t.get c)) → fits d →
      ∃ d', (⟨d, policy⟩ : Store κ).setAll entries = ⟨⟨d', policy⟩, [], none⟩ ∧ fits d' ∧
        ∀ t ∈ Schema.settings (κ := κ),
          t.get d' = if t.key ∈ entries.map Prod.fst then t.get c else t.get d := by
  intro entries
  induction entries with
  | nil => exact fun {d} _ hd => ⟨d, rfl, hd, fun t _ => (if_neg List.not_mem_nil).symm⟩
  | cons entry entries ih =>
    intro d hentries hd
    rw [List.forall_mem_cons] at hentries
    obtain ⟨⟨t, ht, rfl⟩, hrest⟩ := hentries
    -- The value has been accepted before, and no setting looks at the other options.
    obtain ⟨e, hset⟩ : ∃ e, t.set (t.get c) d = .ok e := by
      obtain ⟨c', haccepted⟩ := hc.accepts t ht
      exact (hκ.sound t ht).uniform haccepted d
    have hfirst := set_key hκ (s := ⟨d, policy⟩) ht hset
    obtain ⟨d', hall, hd', hget⟩ := ih hrest ((hκ.sound t ht).fits_set hset hd)
    refine ⟨d', ?_, hd', fun u hu => ?_⟩
    · simp only [setAll, hfirst, hall, List.nil_append]
    · rw [hget u hu, (hκ.sound t ht).get_set hset u hu, hc.reads t ht, List.map_cons]
      by_cases hkey : u.key = t.key
      · obtain rfl := hκ.eq_of_key_eq hu ht hkey
        simp
      · rw [if_neg hkey]
        exact if_congr (by rw [List.mem_cons, or_iff_right hkey]) rfl rfl

/-- The entries of a table of values bring the configuration back, in any order. -/
theorem setAll_snapshot (hκ : Schema.Lawful fits) {c : κ} (hc : Schema.Settled fits c)
    (policy : Policy) {entries : List (String × OptionValue)}
    (h : entries.Perm (Schema.snapshot c)) :
    (new policy : Store κ).setAll entries = ⟨⟨c, policy⟩, [], none⟩ := by
  have hperm := h.trans (hκ.snapshot_perm c)
  have hentries : ∀ entry ∈ entries, ∃ t ∈ Schema.settings (κ := κ),
      entry = (t.key, t.get c) := by
    intro entry hmem
    obtain ⟨t, ht, heq⟩ := List.mem_map.mp (hperm.mem_iff.mp hmem)
    exact ⟨t, ht, heq.symm⟩
  obtain ⟨d, hall, hd, hget⟩ := setAll_entries hκ hc policy hentries hκ.fits_default
  rw [new, hall]
  suffices hcd : d = c by rw [hcd]
  refine hκ.ext hd hc.fits (List.map_congr_left fun t ht => ?_)
  rw [hget t ht, if_pos]
  exact List.mem_map.mpr ⟨(t.key, t.get c), hperm.mem_iff.mpr (List.mem_map_of_mem ht), rfl⟩

/-- What is known of a store after some calls on a new one, with this policy. -/
structure Replayable (κ : Type) [Schema κ] (policy : Policy)
    (calls : List (String × OptionValue)) : Prop where
  /-- The table has the keys of the schema, each once. -/
  keys_perm : (((new policy : Store κ).after calls).snapshot.map Prod.fst).Perm (Schema.keys κ)
  /-- Under each key stands the last value that was accepted, as the option holds it, or the
  standard value. -/
  lookup_eq : ∀ key ∈ Schema.keys κ, ∃ standard,
    (new policy : Store κ).snapshot.lookup key = some standard ∧
    ((new policy : Store κ).after calls).snapshot.lookup key =
      some (((new policy : Store κ).lastAccepted key calls).elim standard standard.readAs)
  /-- What is refused or passed over has no effect. -/
  set_of_not_accepts : ∀ key value, ¬ ((new policy : Store κ).after calls).accepts key value →
    (((new policy : Store κ).after calls).set key value).store = (new policy : Store κ).after calls
  /-- The entries of the table, in any order, are accepted by a new store, which then has the same
  configuration. -/
  replays : ∀ policy' entries, entries.Perm ((new policy : Store κ).after calls).snapshot →
    (new policy' : Store κ).setAll entries =
      ⟨⟨((new policy : Store κ).after calls).config, policy'⟩, [], none⟩

theorem replayable (hκ : Schema.Lawful fits) (policy : Policy)
    (calls : List (String × OptionValue)) : Replayable κ policy calls where
  keys_perm := hκ.keys_snapshot_perm _
  lookup_eq key hkey := by
    obtain ⟨t, ht, rfl⟩ := List.mem_map.mp hkey
    refine ⟨t.get Schema.default, hκ.lookup_snapshot ht, ?_⟩
    exact (hκ.lookup_snapshot ht).trans (congrArg some (get_after hκ ht calls (new policy)))
  set_of_not_accepts _ _ h := store_set_of_not_accepts h
  replays policy' _ h := setAll_snapshot hκ (settled_after hκ calls hκ.settled_default) policy' h

end Store

/-! ## The schemas of the solvers -/

section

variable {κ : Type} [Schema κ] {fits : κ → Prop}

/-- The setting stands at place `i`, and to put something there changes the value at that place to
what is shown of it. -/
structure Setting.Writes {β : Type} (s : Setting κ) (i : Nat) (put : β → κ → κ)
    (render : β → OptionValue) : Prop where
  place : Schema.settings[i]? = some s
  values_put : ∀ b c, Schema.values (put b c) = (Schema.values c).set i (render b)

namespace Setting

variable {β : Type} {s : Setting κ} {i : Nat} {put : β → κ → κ} {render : β → OptionValue}

theorem Writes.get_put (h : s.Writes i put render) (hnodup : (Schema.keys κ).Nodup) (b : β)
    (c : κ) {t : Setting κ} (ht : t ∈ Schema.settings) :
    t.get (put b c) = if t.key = s.key then render b else t.get c := by
  obtain ⟨j, hj, rfl⟩ := List.getElem_of_mem ht
  obtain ⟨hi, hs⟩ := List.getElem?_eq_some_iff.mp h.place
  have hvalue := congrArg (fun l => l[j]?) (h.values_put b c)
  simp only [Schema.values, List.getElem?_set, List.getElem?_map, List.length_map,
    List.getElem?_eq_getElem hj, Option.map_some] at hvalue
  -- The keys are different, so the setting at another place has another key.
  have hkey : (Schema.settings[j]).key = s.key ↔ i = j := by
    rw [← hs]
    constructor
    · intro heq
      have hsettings := List.inj_on_of_nodup_map hnodup (List.getElem_mem hj)
        (List.getElem_mem hi) heq
      exact ((List.Nodup.of_map _ hnodup).getElem_inj_iff.mp hsettings).symm
    · rintro rfl
      rfl
  by_cases heq : i = j
  · rw [if_pos (hkey.mpr heq)]
    simpa [heq, hj] using hvalue
  · rw [if_neg (mt hkey.mp heq)]
    simpa [heq] using hvalue

/-- A setting that reads a value in its own way and writes what it has read. -/
theorem Writes.sound (h : s.Writes i put render) (hnodup : (Schema.keys κ).Nodup)
    (read : OptionValue → Except (Error Double) β)
    (hset : ∀ v c, s.set v c = (put · c) <$> read v)
    (hread : ∀ v, read ((s.get Schema.default).readAs v) = read v)
    (hrender : ∀ {v b}, read v = .ok b → render b = (s.get Schema.default).readAs v)
    (hfits : ∀ {v b c}, read v = .ok b → fits c → fits (put b c)) : s.Sound fits := by
  -- what a value sets is what it is read as
  have hreads : ∀ {v c c'}, s.set v c = .ok c' → ∃ b, read v = .ok b ∧ c' = put b c := by
    intro v c c' hok
    rw [hset] at hok
    cases hb : read v with
    | ok b =>
      rw [hb] at hok
      exact ⟨b, rfl, (Except.ok.inj hok).symm⟩
    | error e =>
      rw [hb] at hok
      cases hok
  constructor
  · intro v c
    rw [hset, hset, hread]
  · intro v c c' hok d
    obtain ⟨b, hb, -⟩ := hreads hok
    exact ⟨put b d, by rw [hset, hb]; rfl⟩
  · intro v c c' hok t ht
    obtain ⟨b, hb, rfl⟩ := hreads hok
    rw [h.get_put hnodup b c ht, hrender hb]
  · intro v c c' hok hc
    obtain ⟨b, hb, rfl⟩ := hreads hok
    exact hfits hb hc

variable {key : String} {get : κ → Double} {count : κ → Nat} {put : Double → κ → κ}
  {putCount : Nat → κ → κ}

theorem number_sound (h : (number key get put).Writes i put .float)
    (hnodup : (Schema.keys κ).Nodup) (hfits : ∀ {d c}, fits c → fits (put d c)) :
    (number key get put).Sound fits := by
  refine h.sound hnodup (fun v => v.positive key) (fun v c => ?_) ?_ ?_ ?_
  · cases hv : v.positive key <;> simp [number, hv]
  · exact fun v => OptionValue.positive_readAs _ v key
  · exact fun hb => OptionValue.float_of_positive hb
  · exact fun _ => hfits

omit [Schema κ] in
theorem factor_set (v : OptionValue) (c : κ) :
    (factor key get put).set v c = (put · c) <$> v.aboveOne key := by
  cases hv : v.positive key with
  | error e => simp [factor, OptionValue.aboveOne, hv, Bind.bind, Except.bind]
  | ok d =>
    by_cases hd : d ≤ 1 <;>
      simp [factor, OptionValue.aboveOne, hv, hd, Bind.bind, Except.bind, throw, throwThe,
        MonadExceptOf.throw]

theorem factor_sound (h : (factor key get put).Writes i put .float)
    (hnodup : (Schema.keys κ).Nodup) (hfits : ∀ {d c}, fits c → fits (put d c)) :
    (factor key get put).Sound fits := by
  refine h.sound hnodup (fun v => v.aboveOne key) factor_set ?_ ?_ ?_
  · exact fun v => OptionValue.aboveOne_readAs _ v key
  · exact fun hb => OptionValue.float_of_positive (OptionValue.positive_of_aboveOne hb)
  · exact fun _ => hfits

/-- What the settings that hold a count have in common: they take an integer between bounds. -/
theorem sound_of_intIn {s : Setting κ} {low high : Int} (h : s.Writes i putCount .ofNat)
    (hnodup : (Schema.keys κ).Nodup) (hlow : 0 ≤ low)
    (hget : ∃ n, s.get Schema.default = .ofNat n)
    (hset : ∀ v c, s.set v c = (putCount · c) <$> Int.toNat <$> v.intIn key low high)
    (hfits : ∀ {n c}, n ≤ OptionValue.maxCount → fits c → fits (putCount n c)) : s.Sound fits := by
  obtain ⟨n, hn⟩ := hget
  have hreads : ∀ v : OptionValue, (s.get Schema.default).readAs v = v := by
    intro v
    rw [hn, OptionValue.readAs_ofNat]
  refine h.sound hnodup _ hset (fun v => by rw [hreads]) ?_ ?_
  · intro v k hk
    rw [hreads, (OptionValue.ofNat_of_intIn hlow hk).2]
  · exact fun hk hc => hfits (OptionValue.ofNat_of_intIn hlow hk).1 hc

theorem limit_sound (h : (limit key count putCount).Writes i putCount .ofNat)
    (hnodup : (Schema.keys κ).Nodup)
    (hfits : ∀ {n c}, n ≤ OptionValue.maxCount → fits c → fits (putCount n c)) :
    (limit key count putCount).Sound fits := by
  have hset : ∀ v c, (limit key count putCount).set v c =
      (putCount · c) <$> Int.toNat <$> v.intIn key 1 Int64.maxValue.toInt := by
    intro v c
    cases hv : v.intIn key 1 Int64.maxValue.toInt <;> simp [limit, OptionValue.count, hv]
  exact sound_of_intIn h hnodup (by decide) ⟨_, rfl⟩ hset hfits

theorem level_sound (h : (level key count putCount).Writes i putCount .ofNat)
    (hnodup : (Schema.keys κ).Nodup)
    (hfits : ∀ {n c}, n ≤ OptionValue.maxCount → fits c → fits (putCount n c)) :
    (level key count putCount).Sound fits := by
  have hset : ∀ v c, (level key count putCount).set v c =
      (putCount · c) <$> Int.toNat <$> v.intIn key 0 5 := by
    intro v c
    cases hv : v.intIn key 0 5 <;> simp [level, hv]
  exact sound_of_intIn h hnodup (by decide) ⟨_, rfl⟩ hset hfits

end Setting

/-- The standard values are accepted, if evaluating the settings says so. -/
theorem Schema.accepts_default_of_all
    (h : (settings.all fun s : Setting κ => (s.set (s.get default) default).isOk) = true) :
    ∀ s ∈ settings (κ := κ), ∃ c, s.set (s.get default) default = .ok c := by
  intro s hs
  have hok := List.all_eq_true.mp h s hs
  cases hset : s.set (s.get default) default with
  | ok c => exact ⟨c, rfl⟩
  | error e =>
    rw [hset] at hok
    cases hok

end

namespace AugmentedLagrangian.Config

/-- The counts of the configuration are integers of 64 bits. -/
structure Fits (c : Config Double) : Prop where
  printLevel : c.printLevel ≤ OptionValue.maxCount
  maxOuter : c.maxOuter ≤ OptionValue.maxCount
  maxInner : c.maxInner ≤ OptionValue.maxCount

theorem settings_sound : ∀ s ∈ Schema.settings (κ := Config Double), s.Sound Fits := by
  have hnodup : (Schema.keys (Config Double)).Nodup := by decide
  intro s hs
  simp only [Schema.settings, List.mem_cons, List.not_mem_nil, or_false] at hs
  rcases hs with rfl | rfl | rfl | rfl | rfl | rfl | rfl | rfl | rfl | rfl
  -- First the counts, each at its own place.
  · exact Setting.level_sound (i := 0) ⟨rfl, fun _ _ => rfl⟩ hnodup
      fun h hc => ⟨h, hc.maxOuter, hc.maxInner⟩
  · exact Setting.limit_sound (i := 1) ⟨rfl, fun _ _ => rfl⟩ hnodup
      fun h hc => ⟨hc.printLevel, h, hc.maxInner⟩
  · exact Setting.limit_sound (i := 2) ⟨rfl, fun _ _ => rfl⟩ hnodup
      fun h hc => ⟨hc.printLevel, hc.maxOuter, h⟩
  -- Then the numbers, which leave the counts as they are.
  · exact Setting.number_sound (i := 3) ⟨rfl, fun _ _ => rfl⟩ hnodup fun h => ⟨h.1, h.2, h.3⟩
  · exact Setting.number_sound (i := 4) ⟨rfl, fun _ _ => rfl⟩ hnodup fun h => ⟨h.1, h.2, h.3⟩
  · exact Setting.number_sound (i := 5) ⟨rfl, fun _ _ => rfl⟩ hnodup fun h => ⟨h.1, h.2, h.3⟩
  · exact Setting.number_sound (i := 6) ⟨rfl, fun _ _ => rfl⟩ hnodup fun h => ⟨h.1, h.2, h.3⟩
  · exact Setting.factor_sound (i := 7) ⟨rfl, fun _ _ => rfl⟩ hnodup fun h => ⟨h.1, h.2, h.3⟩
  · exact Setting.number_sound (i := 8) ⟨rfl, fun _ _ => rfl⟩ hnodup fun h => ⟨h.1, h.2, h.3⟩
  · exact Setting.number_sound (i := 9) ⟨rfl, fun _ _ => rfl⟩ hnodup fun h => ⟨h.1, h.2, h.3⟩

theorem lawful : Schema.Lawful Fits where
  nodup := by decide
  sound := settings_sound
  accepts_default := Schema.accepts_default_of_all (by decide +kernel)
  fits_default := by constructor <;> decide +kernel
  ext {c d} hc hd heq := by
    obtain ⟨_, _, _, _, _, _, _, _, _, _⟩ := c
    obtain ⟨_, _, _, _, _, _, _, _, _, _⟩ := d
    simp only [Schema.values, Schema.settings, List.map_cons, List.map_nil, List.cons.injEq,
      Setting.level, Setting.limit, Setting.number, Setting.factor,
      OptionValue.float.injEq] at heq
    obtain ⟨hlevel, houter, hinner, rfl, rfl, rfl, rfl, rfl, rfl, rfl, -⟩ := heq
    obtain rfl := OptionValue.ofNat_inj hc.printLevel hd.printLevel hlevel
    obtain rfl := OptionValue.ofNat_inj hc.maxOuter hd.maxOuter houter
    obtain rfl := OptionValue.ofNat_inj hc.maxInner hd.maxInner hinner
    rfl

end AugmentedLagrangian.Config

namespace ProjectedBfgs.Config

/-- The counts of the configuration are integers of 64 bits. -/
structure Fits (c : Config Double) : Prop where
  printLevel : c.printLevel ≤ OptionValue.maxCount
  maxIterations : c.maxIterations ≤ OptionValue.maxCount

theorem settings_sound : ∀ s ∈ Schema.settings (κ := Config Double), s.Sound Fits := by
  have hnodup : (Schema.keys (Config Double)).Nodup := by decide
  intro s hs
  simp only [Schema.settings, List.mem_cons, List.not_mem_nil, or_false] at hs
  rcases hs with rfl | rfl | rfl | rfl
  · exact Setting.level_sound (i := 0) ⟨rfl, fun _ _ => rfl⟩ hnodup
      fun h hc => ⟨h, hc.maxIterations⟩
  · exact Setting.limit_sound (i := 1) ⟨rfl, fun _ _ => rfl⟩ hnodup
      fun h hc => ⟨hc.printLevel, h⟩
  · exact Setting.number_sound (i := 2) ⟨rfl, fun _ _ => rfl⟩ hnodup fun h => ⟨h.1, h.2⟩
  · exact Setting.number_sound (i := 3) ⟨rfl, fun _ _ => rfl⟩ hnodup fun h => ⟨h.1, h.2⟩

theorem lawful : Schema.Lawful Fits where
  nodup := by decide
  sound := settings_sound
  accepts_default := Schema.accepts_default_of_all (by decide +kernel)
  fits_default := by constructor <;> decide +kernel
  ext {c d} hc hd heq := by
    obtain ⟨_, _, _, _⟩ := c
    obtain ⟨_, _, _, _⟩ := d
    simp only [Schema.values, Schema.settings, List.map_cons, List.map_nil, List.cons.injEq,
      Setting.level, Setting.limit, Setting.number, OptionValue.float.injEq] at heq
    obtain ⟨hlevel, hlimit, rfl, rfl, -⟩ := heq
    obtain rfl := OptionValue.ofNat_inj hc.printLevel hd.printLevel hlevel
    obtain rfl := OptionValue.ofNat_inj hc.maxIterations hd.maxIterations hlimit
    rfl

end ProjectedBfgs.Config

/-- The options of both solvers are keyed stores: they answer with the values they have accepted,
nothing else has an effect, and the table of the values brings the configuration back, in any
order. -/
theorem Store.calls_replayable (policy : Policy) (calls : List (String × OptionValue)) :
    Replayable (AugmentedLagrangian.Config Double) policy calls ∧
      Replayable (ProjectedBfgs.Config Double) policy calls :=
  ⟨replayable AugmentedLagrangian.Config.lawful policy calls,
    replayable ProjectedBfgs.Config.lawful policy calls⟩

end Nlp
