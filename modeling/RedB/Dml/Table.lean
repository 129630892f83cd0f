import RedB.Dml.Cond
import Mathlib.Data.List.Nodup
import Mathlib.Data.List.Find

/-!
# Tables

The tree of a table, at its specification: the live rows with their places, in the order of
a scan, and for each index a key and a place for each of them. A search finds the oldest row
with the key. A new row gets a new place behind all others.
-/

namespace RedB.Dml

/-- `schema::PK_NDX` -/
def PK_NDX : Text := "NDX_000".toList

/-- An index. -/
structure Index where
  name : Text
  /-- `FLAG_UNIQUE` -/
  isUnique : Bool
  colNameList : List Text
  /-- Keys and places of rows. -/
  elements : List (Text × ℕ)
deriving DecidableEq, Repr

/-- A foreign key, with the table that it refers to. -/
structure Foreign where
  name : Text
  tbl : Name
  colNameList : List Text
deriving DecidableEq, Repr

/-- A table. -/
structure Table where
  name : Name
  columns : List Column
  indexList : List Index
  foreignList : List Foreign
  /-- The live rows and their places. -/
  rows : List (ℕ × Row)
  /-- The place of the next row. -/
  next : ℕ
deriving DecidableEq, Repr

namespace Table

/-- `schema::get_index` -/
def getIndex (t : Table) (name : Text) : Option Index := t.indexList.find? fun ndx => ndx.name = name

/-- `row::make_key` -/
def key (t : Table) (ndx : Index) (r : Row) : Text := makeKey t.columns ndx.colNameList r

/-- `row::make_key` of the primary key, empty if there is none. -/
def primaryKey (t : Table) (r : Row) : Text := ((t.getIndex PK_NDX).map fun ndx => t.key ndx r).getD []

/-- `tree::find`, with the row that the iterator stands for. -/
def find (t : Table) (name key : Text) : Option (ℕ × Row) := do
  let ndx ← t.getIndex name
  let e ← ndx.elements.find? fun e => e.1 = key
  t.rows.find? fun p => p.1 = e.2

/-- `tree::insert` -/
def insert (t : Table) (r : Row) : Table :=
  { t with
    rows := t.rows ++ [(t.next, r)]
    indexList := t.indexList.map fun ndx => { ndx with elements := ndx.elements ++ [(t.key ndx r, t.next)] }
    next := t.next + 1 }

/-- The row of a place is dead, and no index has the place. -/
def removeAt (t : Table) (place : ℕ) : Table :=
  { t with
    rows := t.rows.filter fun p => p.1 ≠ place
    indexList := t.indexList.map fun ndx => { ndx with elements := ndx.elements.filter fun e => e.2 ≠ place } }

/-- What `tree::remove` is for: the row with the primary key is out of the pages and of all indexes. -/
def remove (t : Table) (r : Row) : Table :=
  match t.find PK_NDX (t.primaryKey r) with
  | some p => t.removeAt p.1
  | none => t

/-- The element with a key that is deleted from an index: the one of the place, if there is one, or else
the oldest. -/
def chosen (ndx : Index) (key : Text) (place : ℕ) : Option (Text × ℕ) :=
  (ndx.elements.find? fun e => e = (key, place)).or (ndx.elements.find? fun e => e.1 = key)

/-- `tree::remove`: an element with the key of the row is deleted from each index, and the row that the
first of these elements leads to is dead. Which one it is of several elements with one key is up to the
nodes of the index, whose binary searches take the first one that they come upon. -/
def removeKeys (pick : Table → Index → Text → ℕ) (t : Table) (r : Row) : Table :=
  let found ndx := chosen ndx (t.key ndx r) (pick t ndx (t.key ndx r))
  { t with
    rows :=
      match t.indexList.findSome? found with
      | some e => t.rows.filter fun p => p.1 ≠ e.2
      | none => t.rows
    indexList := t.indexList.map fun ndx => { ndx with elements := ndx.elements.filter fun e => some e ≠ found ndx } }

/-- `tree::update`: a row takes the place of the row with its primary key, if both are of one
size. The indexes stay. -/
def update (t : Table) (r : Row) : Table :=
  match t.find PK_NDX (t.primaryKey r) with
  | some p =>
      if r.data.length = p.2.data.length then { t with rows := t.rows.map fun q => if q.1 = p.1 then (q.1, r) else q } else t
  | none => t

/-- The values of a row by column names. -/
def view (t : Table) (r : Row) : View := { tbl := t.name, valueAt := fun name => (columnPos t.columns name).map r.valueAt }

/-- A table as it is made and kept: every index has one element for each live row. -/
structure Tidy (t : Table) : Prop where
  columns : (t.columns.map Column.name).Nodup
  names : (t.indexList.map Index.name).Nodup
  places : (t.rows.map Prod.fst).Nodup
  fresh : ∀ p ∈ t.rows, p.1 < t.next
  elements : ∀ ndx ∈ t.indexList, ndx.elements = t.rows.map fun p => (t.key ndx p.2, p.1)

/-- A table with a primary key. -/
structure Wf (t : Table) : Prop extends Tidy t where
  primary : ∃ ndx, t.getIndex PK_NDX = some ndx ∧ ndx.isUnique = true

/-! ### Indexes by name -/

theorem getIndex_name {t : Table} {name : Text} {ndx : Index} (h : t.getIndex name = some ndx) : ndx.name = name := by
  simpa using List.find?_some h

theorem getIndex_mem {t : Table} {name : Text} {ndx : Index} (h : t.getIndex name = some ndx) : ndx ∈ t.indexList :=
  List.mem_of_find?_eq_some h

theorem Tidy.getIndex_of_mem {t : Table} (h : t.Tidy) {ndx : Index} (hm : ndx ∈ t.indexList) : t.getIndex ndx.name = some ndx := by
  cases hf : t.getIndex ndx.name with
  | none =>
    have := List.find?_eq_none.mp hf ndx hm
    simp at this
  | some ndx' =>
    have hn := getIndex_name hf
    rw [List.inj_on_of_nodup_map h.names (getIndex_mem hf) hm hn]

/-- The index behind a change of the elements. -/
theorem getIndex_map (t : Table) (f : Index → List (Text × ℕ)) (l : List (ℕ × Row)) (n : ℕ) (name : Text) :
    getIndex { t with rows := l, indexList := t.indexList.map fun ndx => { ndx with elements := f ndx }, next := n } name =
      (t.getIndex name).map fun ndx => { ndx with elements := f ndx } := by
  simp only [getIndex]
  rw [List.find?_map]
  rfl

/-! ### Search -/

/-- A search goes over the rows. -/
theorem find_eq_of_elements {t : Table} {name : Text} {ndx : Index} (hi : t.getIndex name = some ndx)
    (he : ndx.elements = t.rows.map fun p => (t.key ndx p.2, p.1)) (hp : (t.rows.map Prod.fst).Nodup) (key : Text) :
    t.find name key = t.rows.find? fun p => t.key ndx p.2 = key := by
  rw [find, hi, Option.bind_eq_bind, Option.bind_some, he, List.find?_map]
  simp only [Function.comp_def]
  cases hf : t.rows.find? fun p => decide (t.key ndx p.2 = key) with
  | none => rfl
  | some p =>
    simp only [Option.map_some, Option.bind_eq_bind, Option.bind_some]
    cases hg : t.rows.find? fun q => decide (q.1 = p.1) with
    | none =>
      have := List.find?_eq_none.mp hg p (List.mem_of_find?_eq_some hf)
      simp at this
    | some q =>
      have hq : q.1 = p.1 := by simpa using List.find?_some hg
      rw [List.inj_on_of_nodup_map hp (List.mem_of_find?_eq_some hg) (List.mem_of_find?_eq_some hf) hq]

theorem Tidy.find_eq {t : Table} (h : t.Tidy) {name : Text} {ndx : Index} (hi : t.getIndex name = some ndx) (key : Text) :
    t.find name key = t.rows.find? fun p => t.key ndx p.2 = key :=
  find_eq_of_elements hi (h.elements ndx (getIndex_mem hi)) h.places key

/-- The primary index. -/
theorem Wf.find_primary {t : Table} (h : t.Wf) (key : Text) :
    t.find PK_NDX key = t.rows.find? fun p => t.primaryKey p.2 = key := by
  obtain ⟨ndx, hi, -⟩ := h.primary
  rw [h.find_eq hi]
  simp only [primaryKey, hi, Option.map_some, Option.getD_some]

theorem Wf.find_mem {t : Table} (h : t.Wf) {key : Text} {p : ℕ × Row} (hf : t.find PK_NDX key = some p) :
    p ∈ t.rows ∧ t.primaryKey p.2 = key := by
  rw [h.find_primary] at hf
  exact ⟨List.mem_of_find?_eq_some hf, by simpa using List.find?_some hf⟩

/-! ### Changes -/

@[simp] theorem insert_rows (t : Table) (r : Row) : (t.insert r).rows = t.rows ++ [(t.next, r)] := rfl

@[simp] theorem insert_columns (t : Table) (r : Row) : (t.insert r).columns = t.columns := rfl

@[simp] theorem insert_name (t : Table) (r : Row) : (t.insert r).name = t.name := rfl

@[simp] theorem insert_foreignList (t : Table) (r : Row) : (t.insert r).foreignList = t.foreignList := rfl

@[simp] theorem removeAt_rows (t : Table) (place : ℕ) : (t.removeAt place).rows = t.rows.filter fun p => p.1 ≠ place := rfl

@[simp] theorem removeAt_columns (t : Table) (place : ℕ) : (t.removeAt place).columns = t.columns := rfl

@[simp] theorem removeAt_name (t : Table) (place : ℕ) : (t.removeAt place).name = t.name := rfl

@[simp] theorem removeAt_foreignList (t : Table) (place : ℕ) : (t.removeAt place).foreignList = t.foreignList := rfl

theorem insert_getIndex (t : Table) (r : Row) (name : Text) :
    (t.insert r).getIndex name =
      (t.getIndex name).map fun ndx => { ndx with elements := ndx.elements ++ [(t.key ndx r, t.next)] } :=
  getIndex_map t (fun ndx => ndx.elements ++ [(t.key ndx r, t.next)]) _ _ name

theorem removeAt_getIndex (t : Table) (place : ℕ) (name : Text) :
    (t.removeAt place).getIndex name =
      (t.getIndex name).map fun ndx => { ndx with elements := ndx.elements.filter fun e => e.2 ≠ place } :=
  getIndex_map t (fun ndx => ndx.elements.filter fun e => e.2 ≠ place) _ _ name

@[simp] theorem insert_primaryKey (t : Table) (r r' : Row) : (t.insert r).primaryKey r' = t.primaryKey r' := by
  rw [primaryKey, primaryKey, insert_getIndex, Option.map_map]
  rfl

@[simp] theorem removeAt_primaryKey (t : Table) (place : ℕ) (r : Row) : (t.removeAt place).primaryKey r = t.primaryKey r := by
  rw [primaryKey, primaryKey, removeAt_getIndex, Option.map_map]
  rfl

theorem nodup_places_insert {t : Table} (hp : (t.rows.map Prod.fst).Nodup) (hf : ∀ p ∈ t.rows, p.1 < t.next) (r : Row) :
    ((t.insert r).rows.map Prod.fst).Nodup := by
  rw [insert_rows, List.map_append, List.nodup_append]
  refine ⟨hp, by simp, ?_⟩
  intro a ha b hb hab
  obtain ⟨p, hm, rfl⟩ := List.mem_map.mp ha
  have := hf p hm
  simp only [List.map_cons, List.map_nil, List.mem_singleton] at hb
  omega

theorem fresh_insert {t : Table} (hf : ∀ p ∈ t.rows, p.1 < t.next) (r : Row) : ∀ p ∈ (t.insert r).rows, p.1 < (t.insert r).next := by
  intro p hp
  rcases List.mem_append.mp hp with hp | hp
  · exact Nat.lt_succ_of_lt (hf p hp)
  · rw [List.mem_singleton.mp hp]
    exact Nat.lt_succ_self _

theorem Tidy.insert {t : Table} (h : t.Tidy) (r : Row) : (t.insert r).Tidy where
  columns := h.columns
  names := by
    have := h.names
    rwa [Table.insert, List.map_map]
  places := nodup_places_insert h.places h.fresh r
  fresh := fresh_insert h.fresh r
  elements ndx hm := by
    obtain ⟨ndx', hm', rfl⟩ := List.mem_map.mp hm
    show ndx'.elements ++ _ = _
    rw [h.elements ndx' hm', insert_rows, List.map_append]
    rfl

theorem Wf.insert {t : Table} (h : t.Wf) (r : Row) : (t.insert r).Wf where
  toTidy := h.toTidy.insert r
  primary := by
    obtain ⟨ndx, hi, hu⟩ := h.primary
    exact ⟨_, (insert_getIndex t r PK_NDX).trans (congrArg (Option.map _) hi), hu⟩

theorem Wf.removeAt {t : Table} (h : t.Wf) (place : ℕ) : (t.removeAt place).Wf where
  columns := h.columns
  primary := by
    obtain ⟨ndx, hi, hu⟩ := h.primary
    exact ⟨_, (removeAt_getIndex t place PK_NDX).trans (congrArg (Option.map _) hi), hu⟩
  names := by
    have := h.names
    rwa [Table.removeAt, List.map_map]
  places := (List.filter_sublist.map Prod.fst).nodup h.places
  fresh p hp := h.fresh p (List.mem_filter.mp hp).1
  elements ndx hm := by
    obtain ⟨ndx', hm', rfl⟩ := List.mem_map.mp hm
    show ndx'.elements.filter _ = _
    rw [h.elements ndx' hm', removeAt_rows, List.filter_map]
    rfl

theorem Wf.remove {t : Table} (h : t.Wf) (r : Row) : (t.remove r).Wf := by
  rw [Table.remove]
  split
  · exact h.removeAt _
  · exact h

/-- A new row is found under its key, if no other one is. -/
theorem Wf.find_insert {t : Table} (h : t.Wf) (r : Row) (key : Text) :
    (t.insert r).find PK_NDX key = (t.find PK_NDX key).or (if t.primaryKey r = key then some (t.next, r) else none) := by
  rw [(h.insert r).find_primary, h.find_primary, insert_rows, List.find?_append, List.find?_singleton]
  simp only [insert_primaryKey, decide_eq_true_eq]

/-- A row that takes the place of the row with its key. -/
theorem update_eq {t : Table} {r : Row} {p : ℕ × Row} (hf : t.find PK_NDX (t.primaryKey r) = some p)
    (hs : r.data.length = p.2.data.length) :
    t.update r = { t with rows := t.rows.map fun q => if q.1 = p.1 then (q.1, r) else q } := by
  rw [update, hf]
  exact if_pos hs

theorem Wf.update {t : Table} (h : t.Wf) {r : Row} {p : ℕ × Row} (hf : t.find PK_NDX (t.primaryKey r) = some p)
    (hs : r.data.length = p.2.data.length) (hk : ∀ ndx ∈ t.indexList, t.key ndx r = t.key ndx p.2) : (t.update r).Wf := by
  have hplace : (fun q : ℕ × Row => (if q.1 = p.1 then (q.1, r) else q).1) = Prod.fst := by
    funext q
    split <;> rfl
  have hp := (h.find_mem hf).1
  rw [update_eq hf hs]
  refine ⟨⟨h.columns, h.names, ?_, ?_, ?_⟩, h.primary⟩
  · rw [List.map_map]
    exact (congrArg (fun f => (t.rows.map f).Nodup) hplace).mpr h.places
  · intro q hq
    obtain ⟨q', hq', rfl⟩ := List.mem_map.mp hq
    exact (congrFun hplace q').symm ▸ h.fresh q' hq'
  · intro ndx hm
    rw [h.elements ndx hm, List.map_map]
    refine List.map_congr_left fun q hq => ?_
    simp only [Function.comp_apply]
    split
    · rename_i he
      rw [List.inj_on_of_nodup_map h.places hq hp he]
      exact Prod.ext (hk ndx hm).symm rfl
    · rfl

/-- The row is found in its new place; all other rows are found as before. -/
theorem Wf.find_update {t : Table} (h : t.Wf) {r : Row} {p : ℕ × Row} (hf : t.find PK_NDX (t.primaryKey r) = some p)
    (hs : r.data.length = p.2.data.length) (hk : ∀ ndx ∈ t.indexList, t.key ndx r = t.key ndx p.2) (key : Text) :
    (t.update r).find PK_NDX key = if t.primaryKey r = key then some (p.1, r) else t.find PK_NDX key := by
  have hp := h.find_mem hf
  have hsame : ∀ q ∈ t.rows, t.primaryKey (if q.1 = p.1 then (q.1, r) else q).2 = t.primaryKey q.2 := fun q hq => by
    split
    · rename_i he
      rw [List.inj_on_of_nodup_map h.places hq hp.1 he, hp.2]
    · rfl
  have hkey : ∀ x, (t.update r).primaryKey x = t.primaryKey x := fun x => by
    rw [update_eq hf hs]
    rfl
  have hfind : (t.update r).find PK_NDX key = (t.find PK_NDX key).map fun q => if q.1 = p.1 then (q.1, r) else q := by
    rw [(h.update hf hs hk).find_primary, h.find_primary]
    simp only [hkey]
    rw [update_eq hf hs, List.find?_map]
    congr 1
    exact List.find?_congr fun q hq => by simp only [Function.comp_apply, hsame q hq]
  rw [hfind]
  split
  · rename_i he
    subst he
    rw [hf, Option.map_some, if_pos rfl]
  · rename_i hne
    cases hq : t.find PK_NDX key with
    | none => rfl
    | some q =>
      have hq' := h.find_mem hq
      rw [Option.map_some, if_neg fun he => hne ?_]
      rw [← hq'.2, List.inj_on_of_nodup_map h.places hq'.1 hp.1 he, hp.2]

/-- The row that was found is removed. -/
theorem Wf.remove_found {t : Table} (h : t.Wf) {key : Text} {p : ℕ × Row} (hf : t.find PK_NDX key = some p) :
    t.remove p.2 = t.removeAt p.1 := by
  rw [Table.remove, (h.find_mem hf).2, hf]

end Table

end RedB.Dml
