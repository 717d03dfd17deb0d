import Nlp.Derivative.Jacobian
import Nlp.Proofs.Solver.Basic
import Mathlib.Data.List.Nodup
import Mathlib.Tactic.Common

/-!
# Jacobians made of columns

A Jacobian has a place for every column. The columns may come in any order, and a Jacobian comes of
them exactly if each column is there once with an entry for every row.

## Main definitions

* `Matrix.column`: a column of a matrix.
* `Jacobian.Columnwise`: a Jacobian whose columns are known one by one.

## Main results

* `Jacobian.place_eq_ok`, `Jacobian.placeAll_eq_ok`: what it takes to place a column, and some.
* `Jacobian.Columnwise.unique`: the columns determine the Jacobian.
* `Jacobian.ofColumns_eq_ok`: what it takes to make a Jacobian.
* `Jacobian.ofColumns_eq_ok_of_good`: the order of the columns does not matter.
-/

namespace Nlp

variable {α : Type} {rows n : Nat}

/-- The entries of a column, from top to bottom. -/
def Matrix.column (a : Matrix α) (j : Nat) : List α :=
  a.entries.toList.filterMap fun row => row[j]?

theorem Matrix.column_eq_map (a : Matrix α) {j : Nat} (hj : j < a.cols) :
    a.column j = a.entries.toList.map fun row => row[j] := by
  rw [column, ← List.filterMap_eq_map]
  exact List.filterMap_congr fun row _ => Vector.getElem?_eq_getElem hj

/-- A matrix is its columns. -/
theorem Matrix.ext_column {a b : Matrix α} (hrows : a.rows = b.rows) (hcols : a.cols = b.cols)
    (h : ∀ j < a.cols, a.column j = b.column j) : a = b := by
  obtain ⟨rows, cols, entries⟩ := a
  obtain ⟨rows', cols', entries'⟩ := b
  obtain rfl : rows = rows' := hrows
  obtain rfl : cols = cols' := hcols
  refine congrArg _ (Vector.ext fun i hi => Vector.ext fun j hj => ?_)
  have hcolumn := h j hj
  rw [column_eq_map _ hj, column_eq_map _ hj] at hcolumn
  have hentry := congrArg (·[i]?) hcolumn
  simpa [hi] using hentry

namespace Jacobian

/-! ## Places -/

/-- A column is placed where its place is open and it has an entry for every row. -/
theorem place_eq_ok {places placed : Places α rows n} {c : Column α} :
    place places c = .ok placed ↔ ∃ (hc : c.1 < n) (column : Vector α rows),
      places[c.1] = none ∧ column.toList = c.2 ∧ placed = places.set c.1 (some column) := by
  by_cases hc : c.1 < n
  case neg =>
    rw [place, dif_neg hc]
    exact ⟨nofun, fun ⟨h, _⟩ => absurd h hc⟩
  rw [place, dif_pos hc]
  by_cases hopen : places[c.1] = none
  case neg =>
    rw [if_pos (Option.isSome_iff_ne_none.mpr hopen)]
    exact ⟨nofun, fun ⟨_, _, h, _⟩ => absurd h hopen⟩
  rw [if_neg fun h => Option.isSome_iff_ne_none.mp h hopen]
  cases hcolumn : vectorOf? rows c.2 with
  | none =>
    refine ⟨nofun, ?_⟩
    rintro ⟨_, column, -, hlist, -⟩
    nomatch hcolumn.symm.trans (vectorOf?_eq_some.mpr hlist)
  | some column =>
    constructor
    · intro h
      exact ⟨hc, column, hopen, vectorOf?_eq_some.mp hcolumn, (Except.ok.inj h).symm⟩
    · rintro ⟨_, column', -, hlist, rfl⟩
      obtain rfl := Option.some.inj (hcolumn.symm.trans (vectorOf?_eq_some.mpr hlist))
      rfl

/-- The column has its place, which was open. -/
def Enters (places placed : Places α rows n) (c : Column α) : Prop :=
  ∃ (hc : c.1 < n) (column : Vector α rows),
    places[c.1] = none ∧ column.toList = c.2 ∧ placed[c.1] = some column

/-- Columns are placed where all of them have places of their own; other places stay as they are. -/
theorem placeAll_eq_ok {places placed : Places α rows n} {columns : List (Column α)} :
    columns.foldlM place places = .ok placed ↔
      (columns.map Prod.fst).Nodup ∧ (∀ c ∈ columns, Enters places placed c) ∧
        ∀ j (hj : j < n), j ∉ columns.map Prod.fst → placed[j] = places[j] := by
  induction columns generalizing places with
  | nil =>
    constructor
    · intro h
      obtain rfl := Except.ok.inj h
      exact ⟨.nil, nofun, fun _ _ _ => rfl⟩
    · rintro ⟨-, -, hrest⟩
      exact congrArg Except.ok (Vector.ext fun j hj => (hrest j hj List.not_mem_nil).symm)
  | cons c columns ih =>
    rw [List.foldlM_cons, bind_eq_ok]
    simp only [place_eq_ok, ih, List.map_cons, List.nodup_cons, List.forall_mem_cons]
    constructor
    · rintro ⟨_, ⟨hc, column, hopen, hlist, rfl⟩, hnodup, henters, hrest⟩
      -- a later column finds the place of `c` taken
      have hfresh : c.1 ∉ columns.map Prod.fst := by
        rintro hmem
        obtain ⟨d, hd, heq⟩ := List.mem_map.mp hmem
        obtain ⟨hd', _, hdopen, -⟩ := henters d hd
        simp only [heq, Vector.getElem_set_self] at hdopen
        nomatch hdopen
      have hc' := (hrest c.1 hc hfresh).trans (Vector.getElem_set_self hc)
      refine ⟨⟨hfresh, hnodup⟩, ⟨⟨hc, column, hopen, hlist, hc'⟩, fun d hd => ?_⟩, ?_⟩
      · obtain ⟨hd', column', hdopen, hdlist, hdplaced⟩ := henters d hd
        have hne : c.1 ≠ d.1 := fun heq => hfresh (heq ▸ List.mem_map_of_mem hd)
        rw [Vector.getElem_set_ne hc hd' hne] at hdopen
        exact ⟨hd', column', hdopen, hdlist, hdplaced⟩
      · intro j hj hj'
        obtain ⟨hne, hmem⟩ := List.ne_and_not_mem_of_not_mem_cons hj'
        rw [hrest j hj hmem, Vector.getElem_set_ne hc hj (Ne.symm hne)]
    · rintro ⟨⟨hfresh, hnodup⟩, ⟨⟨hc, column, hopen, hlist, hplaced⟩, henters⟩, hrest⟩
      refine ⟨_, ⟨hc, column, hopen, hlist, rfl⟩, hnodup, fun d hd => ?_, fun j hj hmem => ?_⟩
      · obtain ⟨hd', column', hdopen, hdlist, hdplaced⟩ := henters d hd
        have hne : c.1 ≠ d.1 := fun heq => hfresh (heq ▸ List.mem_map_of_mem hd)
        refine ⟨hd', column', ?_, hdlist, hdplaced⟩
        rw [Vector.getElem_set_ne hc hd' hne, hdopen]
      · by_cases heq : c.1 = j
        · subst heq
          rw [hplaced, Vector.getElem_set_self hc]
        · rw [Vector.getElem_set_ne hc hj heq]
          exact hrest j hj (List.not_mem_cons_of_ne_of_not_mem (Ne.symm heq) hmem)

end Jacobian

/-! ## Jacobians -/

theorem Matrix.length_column (a : Matrix α) {j : Nat} (hj : j < a.cols) :
    (a.column j).length = a.rows := by
  rw [column_eq_map _ hj, List.length_map, Vector.length_toList]

namespace Jacobian

/-- The Jacobian has this shape and cost this much, and its columns are as `good` says. -/
structure Columnwise (J : Jacobian α) (rows n evaluations : Nat) (good : Nat → List α → Prop) :
    Prop where
  rows : J.matrix.rows = rows
  cols : J.matrix.cols = n
  evaluations : J.evaluations = evaluations
  column : ∀ j < n, good j (J.matrix.column j)

variable {columns : List (Column α)} {evaluations : Nat} {J K : Jacobian α}
  {good good' : Nat → List α → Prop}

theorem Columnwise.mono (h : J.Columnwise rows n evaluations good)
    (himp : ∀ j column, j < n → good j column → good' j column) :
    J.Columnwise rows n evaluations good' :=
  ⟨h.rows, h.cols, h.evaluations, fun j hj => himp j _ hj (h.column j hj)⟩

/-- Where the columns are determined, so is the Jacobian. -/
theorem Columnwise.unique (hJ : J.Columnwise rows n evaluations good)
    (hK : K.Columnwise rows n evaluations good)
    (hunique : ∀ j column column', good j column → good j column' → column = column') :
    J = K := by
  have hmatrix : J.matrix = K.matrix := by
    refine Matrix.ext_column (hJ.rows.trans hK.rows.symm) (hJ.cols.trans hK.cols.symm)
      fun j hj => ?_
    have hj' : j < n := hJ.cols ▸ hj
    exact hunique j _ _ (hJ.column j hj') (hK.column j hj')
  have hevaluations := hJ.evaluations.trans hK.evaluations.symm
  obtain ⟨matrix, evaluations⟩ := J
  obtain ⟨matrix', evaluations'⟩ := K
  exact congrArg₂ Jacobian.mk hmatrix hevaluations

/-- A list that has an index once has one column of it. -/
theorem column_unique (hnodup : (columns.map Prod.fst).Nodup) {j : Nat} {column column' : List α}
    (h : (j, column) ∈ columns) (h' : (j, column') ∈ columns) : column = column' :=
  congrArg Prod.snd (List.inj_on_of_nodup_map hnodup h h' rfl)

/-- The Jacobian of places that are all taken. -/
def ofPlaces (placed : Places α rows n) (evaluations : Nat)
    (h : ∀ j : Fin n, (placed.get j).isSome) : Jacobian α where
  matrix := ⟨rows, n, Vector.ofFn fun i => Vector.ofFn fun j => ((placed.get j).get (h j)).get i⟩
  evaluations := evaluations

theorem ofColumns_eq_ofPlaces :
    ofColumns rows n columns evaluations = .ok J ↔
      ∃ placed, columns.foldlM place (Vector.replicate n none : Places α rows n) = .ok placed ∧
        ∃ h, J = ofPlaces placed evaluations h := by
  rw [ofColumns, bind_eq_ok]
  refine exists_congr fun placed => and_congr_right fun _ => ?_
  by_cases h : ∀ j : Fin n, (placed.get j).isSome
  · rw [dif_pos h]
    exact ⟨fun heq => ⟨h, (Except.ok.inj heq).symm⟩, fun ⟨_, heq⟩ => heq ▸ rfl⟩
  · rw [dif_neg h]
    exact ⟨nofun, fun ⟨h', _⟩ => absurd h' h⟩

theorem columnwise_ofPlaces {places placed : Places α rows n}
    (honce : (columns.map Prod.fst).Perm (List.range n))
    (henters : ∀ c ∈ columns, Enters places placed c) (h : ∀ j : Fin n, (placed.get j).isSome) :
    (ofPlaces placed evaluations h).Columnwise rows n evaluations fun j column =>
      (j, column) ∈ columns := by
  refine ⟨rfl, rfl, rfl, fun j hj => ?_⟩
  obtain ⟨c, hc, rfl⟩ := List.mem_map.mp (honce.mem_iff.mpr (List.mem_range.mpr hj))
  obtain ⟨_, column, -, hlist, heq⟩ := henters c hc
  have hcolumn : (ofPlaces placed evaluations h).matrix.column c.1 = c.2 := by
    rw [Matrix.column_eq_map _ hj, ← hlist]
    refine List.ext_getElem (by simp [ofPlaces]) fun i hi hi' => ?_
    simp [ofPlaces, heq]
  rw [hcolumn]
  exact hc

/-- Columns with an entry for every row make a Jacobian. -/
theorem exists_ofColumns_eq_ok (honce : (columns.map Prod.fst).Perm (List.range n))
    (hlengths : ∀ c ∈ columns, c.2.length = rows) (evaluations : Nat) :
    ∃ J, ofColumns rows n columns evaluations = .ok J := by
  have hnodup := honce.nodup_iff.mpr List.nodup_range
  have hcolumn : ∀ j : Fin n, ∃ column : Vector α rows, (j.1, column.toList) ∈ columns := by
    rintro ⟨j, hj⟩
    obtain ⟨c, hc, rfl⟩ := List.mem_map.mp (honce.mem_iff.mpr (List.mem_range.mpr hj))
    exact ⟨⟨c.2.toArray, hlengths c hc⟩, hc⟩
  choose column hcolumn using hcolumn
  -- every column is in range and finds its place open
  have henters : ∀ c ∈ columns,
      Enters (Vector.replicate n none) (Vector.ofFn fun j => some (column j)) c := by
    intro c hc
    have hj : c.1 < n := List.mem_range.mp (honce.mem_iff.mp (List.mem_map_of_mem hc))
    exact ⟨hj, column ⟨c.1, hj⟩, Vector.getElem_replicate _,
      column_unique hnodup (hcolumn ⟨c.1, hj⟩) hc, Vector.getElem_ofFn _⟩
  refine ⟨_, ofColumns_eq_ofPlaces.mpr ⟨_, placeAll_eq_ok.mpr ⟨hnodup, henters, ?_⟩, ?_, rfl⟩⟩
  · intro j hj hopen
    exact absurd (honce.mem_iff.mpr (List.mem_range.mpr hj)) hopen
  · intro j
    rw [entry_ofFn]
    rfl

/-- A Jacobian comes of columns exactly if each is there once with an entry for every row. -/
theorem ofColumns_eq_ok :
    ofColumns rows n columns evaluations = .ok J ↔
      (columns.map Prod.fst).Perm (List.range n) ∧
        J.Columnwise rows n evaluations fun j column => (j, column) ∈ columns := by
  have hcolumnwise : ∀ {J}, ofColumns rows n columns evaluations = .ok J →
      (columns.map Prod.fst).Perm (List.range n) ∧
        J.Columnwise rows n evaluations fun j column => (j, column) ∈ columns := by
    intro J hJ
    obtain ⟨placed, hplaced, h, rfl⟩ := ofColumns_eq_ofPlaces.mp hJ
    obtain ⟨hnodup, henters, hrest⟩ := placeAll_eq_ok.mp hplaced
    have honce : (columns.map Prod.fst).Perm (List.range n) := by
      refine (List.perm_ext_iff_of_nodup hnodup List.nodup_range).mpr fun j => ?_
      rw [List.mem_range]
      constructor
      · intro hj
        obtain ⟨c, hc, rfl⟩ := List.mem_map.mp hj
        exact (henters c hc).1
      · intro hj
        -- a place that no column has taken is open
        by_contra hopen
        have hsome := h ⟨j, hj⟩
        simp only [entry_mk, hrest j hj hopen, Vector.getElem_replicate] at hsome
        nomatch hsome
    exact ⟨honce, columnwise_ofPlaces honce henters h⟩
  refine ⟨hcolumnwise, fun ⟨honce, hJ⟩ => ?_⟩
  have hunique := @column_unique _ columns (honce.nodup_iff.mpr List.nodup_range)
  have hlengths : ∀ c ∈ columns, c.2.length = rows := by
    intro c hc
    have hj : c.1 < n := List.mem_range.mp (honce.mem_iff.mp (List.mem_map_of_mem hc))
    rw [hunique hc (hJ.column c.1 hj), J.matrix.length_column (hJ.cols.symm ▸ hj), hJ.rows]
  obtain ⟨K, hK⟩ := exists_ofColumns_eq_ok honce hlengths evaluations
  rw [hK, hJ.unique (hcolumnwise hK).2 fun j _ _ => hunique]

/-- Where something else says which columns are good, so do the columns themselves. -/
theorem ofColumns_eq_ok_of_good (honce : (columns.map Prod.fst).Perm (List.range n))
    (hunique : ∀ j column column', good j column → good j column' → column = column')
    (hgood : ∀ c ∈ columns, good c.1 c.2) :
    ofColumns rows n columns evaluations = .ok J ↔ J.Columnwise rows n evaluations good := by
  rw [ofColumns_eq_ok, and_iff_right honce]
  constructor
  · exact fun h => h.mono fun j column _ hc => hgood _ hc
  · refine fun h => h.mono fun j column hj hcolumn => ?_
    obtain ⟨⟨_, column'⟩, hc, rfl⟩ :=
      List.mem_map.mp (honce.mem_iff.mpr (List.mem_range.mpr hj))
    rw [hunique _ _ _ hcolumn (hgood _ hc)]
    exact hc

end Jacobian

end Nlp
