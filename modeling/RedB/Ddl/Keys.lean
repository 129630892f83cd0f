import RedB.Ddl.Runs
import RedB.Dml.Width
import RedB.Storage.Slots

/-!
# Keys and their slots

An index has slots for keys of one size, which is added up from the sizes of columns when the index
is made: those of its own columns for an index of ALTER TABLE, those of the first columns of the
table for the primary key (`slotSize`). A key is made of the values of a row, each of them filled up
to the size of its column, but not cut down to it.

A key fits its slot if and only if the sizes of its columns, with what is too long in them, add up
to the size of the slot (`keys_fit_iff`).
-/

namespace RedB.Ddl

open Dml (Name Arith excessOf widthOf)

theorem hasFlag_primaryFlag : hasFlag primaryFlag FLAG_PRIMARY = true := by decide

theorem hasFlag_multipleFlag : ¬hasFlag multipleFlag FLAG_PRIMARY = true := by decide

/-- The sizes that make the size of the keys of an index. -/
def slotSize (columns : List Column) (ndx : Index) : ℕ :=
  if hasFlag ndx.flag FLAG_PRIMARY then ((columns.take ndx.colNameList.length).map Column.size).sum
  else (ndx.colNameList.map (columnSize columns)).sum

/-- A key of a row is of the size of its slot, and writing it to an element of a node leaves the
others as they are. -/
structure KeyFits (sch : Schema) (ndx : Index) (r : Dml.Row) : Prop where
  key : ∃ key, sch.makeKey ndx.name r = .ok key ∧ key.length = ndx.keySize ∧
    ∀ leaf n offset b, Buffer.KeepsOthers leaf ndx.keySize n b (Buffer.after (Buffer.putElement leaf ndx.keySize n offset key b))

/-! ### The sizes of slots -/

/-- Columns with these names and sizes. -/
def shape (columns : List Column) : List (Text × ℕ) := columns.map fun col => (col.name, col.size)

theorem names_of_shape {columns columns' : List Column} (h : shape columns = shape columns') :
    columns.map Column.name = columns'.map Column.name := by
  have := congrArg (List.map Prod.fst) h
  rwa [shape, shape, List.map_map, List.map_map] at this

theorem sizes_of_shape {columns columns' : List Column} (h : shape columns = shape columns') :
    columns.map Column.size = columns'.map Column.size := by
  have := congrArg (List.map Prod.snd) h
  rwa [shape, shape, List.map_map, List.map_map] at this

theorem hasColumn_of_shape {columns columns' : List Column} (h : shape columns = shape columns') : hasColumn columns = hasColumn columns' := by
  funext name
  rw [Bool.eq_iff_iff, hasColumn_iff, hasColumn_iff, columnPos_congr (names_of_shape h)]

theorem columnSize_of_shape {columns columns' : List Column} (h : shape columns = shape columns') : columnSize columns = columnSize columns' := by
  funext name
  rw [columnSize, columnSize, columnPos_congr (names_of_shape h)]
  cases columnPos columns' name with
  | none => rfl
  | some i => simp only [← List.getElem?_map, sizes_of_shape h]

theorem slotSize_of_shape {columns columns' : List Column} (h : shape columns = shape columns') (ndx : Index) :
    slotSize columns ndx = slotSize columns' ndx := by
  rw [slotSize, slotSize, List.map_take, List.map_take, sizes_of_shape h, columnSize_of_shape h]

theorem shape_flagColumn (flag : ℕ) (name : Text) (columns : List Column) : shape (flagColumn flag name columns) = shape columns := by
  rw [flagColumn]
  split
  · exact map_modify (f := Column.addFlag flag) (fun _ => rfl) _ _
  · rfl

theorem shape_flagColumns (flag : ℕ) (names : List Text) (columns : List Column) :
    shape (names.foldl (fun columns name => flagColumn flag name columns) columns) = shape columns := by
  induction names generalizing columns with
  | nil => rfl
  | cons name names ih => rw [List.foldl_cons, ih, shape_flagColumn]

/-- An index is as it was made. -/
structure Slot (columns : List Column) (ndx : Index) : Prop where
  size : ndx.keySize = slotSize columns ndx
  columns : ndx.colNameList.all (hasColumn columns) = true

theorem Slot.of_shape {columns columns' : List Column} {ndx : Index} (h : Slot columns ndx) (hs : shape columns' = shape columns) :
    Slot columns' ndx where
  size := by rw [slotSize_of_shape hs, h.size]
  columns := by rw [hasColumn_of_shape hs, h.columns]

/-- The primary key of a working schema is as it was made. -/
def WorkSchema.Slots (wrk : WorkSchema) : Prop :=
  ∀ ndx ∈ wrk.index, Slot wrk.column ndx ∧ hasFlag ndx.flag FLAG_PRIMARY = true ∧ ndx.colNameList.length ≤ wrk.column.length

theorem Slot.append {columns : List Column} {ndx : Index} (h : Slot columns ndx) (hp : hasFlag ndx.flag FLAG_PRIMARY = true)
    (hl : ndx.colNameList.length ≤ columns.length) (l : List Column) : Slot (columns ++ l) ndx where
  size := by
    rw [h.size, slotSize, slotSize, if_pos hp, if_pos hp, List.take_append_of_le_length hl]
  columns := by
    refine List.all_eq_true.mpr fun name hn => ?_
    have := List.all_eq_true.mp h.columns name hn
    rw [hasColumn] at this ⊢
    rw [List.any_append, this, Bool.true_or]

theorem WorkSchema.Slots.append {wrk : WorkSchema} (h : wrk.Slots) (l : List Column) : ({ wrk with column := wrk.column ++ l } : WorkSchema).Slots := by
  intro ndx hn
  obtain ⟨hs, hp, hl⟩ := h ndx hn
  exact ⟨hs.append hp hl l, hp, by rw [List.length_append]; omega⟩

theorem makeColumnDefinition_slots {name : Text} {type size precision flag : ℕ} {enumList : List Text} {wrk : WorkSchema} (h : wrk.Slots) :
    (makeColumnDefinition name type size precision enumList flag wrk).Slots := by
  rw [makeColumnDefinition]
  split
  · exact h.append _
  · split
    · exact h.append _
    · split
      · exact h.append _
      · split
        · exact h.append _
        · exact h

theorem makePrimaryKey_slots {colNameList : List Text} {wrk wrk' : WorkSchema} (h : wrk.Slots)
    (hm : makePrimaryKey colNameList wrk = .ok wrk') : wrk'.Slots := by
  rw [makePrimaryKey] at hm
  split at hm
  · cases hm
  split at hm
  · cases hm
  rename_i hcol
  split at hm
  · cases hm
  rename_i hlen
  cases hm
  have hshape : shape ((wrk.column.take colNameList.length).map (Column.addFlag primaryFlag) ++ wrk.column.drop colNameList.length) =
      shape wrk.column := by
    have hflag : ((fun col : Column => (col.name, col.size)) ∘ Column.addFlag primaryFlag) = fun col => (col.name, col.size) := rfl
    rw [shape, List.map_append, List.map_map, hflag, ← List.map_append, List.take_append_drop, shape]
  have hlength := congrArg List.length hshape
  rw [shape, shape, List.length_map, List.length_map] at hlength
  intro ndx hn
  rcases List.mem_append.mp hn with hn | hn
  · obtain ⟨hs, hp, hl⟩ := h ndx hn
    exact ⟨hs.of_shape hshape, hp, hl.trans hlength.ge⟩
  · obtain rfl := List.mem_singleton.mp hn
    refine ⟨Slot.of_shape ⟨(if_pos hasFlag_primaryFlag).symm, ?_⟩ hshape, hasFlag_primaryFlag, (Nat.not_lt.mp hlen).trans hlength.ge⟩
    have hall : colNameList.all (mayBePrimary wrk.column) = true := by simpa using hcol
    refine List.all_eq_true.mpr fun name hm => ?_
    have hmay := List.all_eq_true.mp hall name hm
    rw [mayBePrimary] at hmay
    split at hmay
    · rename_i col hf
      have hname := List.find?_some hf
      exact List.any_eq_true.mpr ⟨col, List.mem_of_find?_eq_some hf, hname⟩
    · cases hmay

theorem makeAll_slots {db : Schemas} {ds : List Definition} {wrk wrk' : WorkSchema} (h : wrk.Slots) (hm : makeAll db ds wrk = .ok wrk') :
    wrk'.Slots := by
  induction ds generalizing wrk with
  | nil =>
    cases hm
    exact h
  | cons d ds ih =>
    obtain ⟨wrk₁, hd, hm⟩ := bind_ok.mp hm
    refine ih ?_ hm
    cases d with
    | column name type size precision enumList flag =>
      cases hd
      exact makeColumnDefinition_slots h
    | primaryKey colNameList => exact makePrimaryKey_slots h hd
    | foreignKey fkColNameList fgnTable pkColNameList =>
      obtain ⟨-, -, -, rfl⟩ := makeForeignKey_ok hd
      exact h

/-- All indexes of a schema are as they were made. -/
def Schema.Slots (sch : Schema) : Prop := ∀ ndx ∈ sch.index, Slot sch.column ndx

theorem Schema.Slots.of_shape {sch sch' : Schema} (h : sch.Slots) (hs : shape sch'.column = shape sch.column) (hn : ∀ ndx ∈ sch'.index,
    ∃ ndx₀ ∈ sch.index, ndx₀.keySize = ndx.keySize ∧ ndx₀.flag = ndx.flag ∧ ndx₀.colNameList = ndx.colNameList) : sch'.Slots := by
  intro ndx hm
  obtain ⟨ndx₀, hm₀, hkey, hflag, hcol⟩ := hn ndx hm
  have h0 := (h ndx₀ hm₀).of_shape hs
  refine ⟨?_, by rw [← hcol]; exact h0.columns⟩
  rw [← hkey, h0.size, slotSize, slotSize, hflag, hcol]

theorem shape_of_bare {columns columns' : List Column} (h : columns.map Column.bare = columns'.map Column.bare) :
    shape columns = shape columns' := by
  have := congrArg (List.map fun col : Column => (col.name, col.size)) h
  rwa [List.map_map, List.map_map] at this

theorem shape_of_fixed {columns columns' : List Column} (h : columns.map Column.fixed = columns'.map Column.fixed) :
    shape columns = shape columns' := by
  have := congrArg (List.map fun col : Column => (col.name, col.size)) h
  rwa [List.map_map, List.map_map] at this

/-- Every change keeps the indexes as they were made. -/
theorem Change.slots {sch sch' : Schema} (hc : Change sch sch') (h : sch.Slots) : sch'.Slots := by
  cases hc with
  | refer hb => exact h.of_shape (shape_of_bare hb) fun ndx hm => ⟨ndx, hm, rfl, rfl, rfl⟩
  | addIndex hall =>
    rename_i colNameList
    have hshape : shape (sch.addIndex colNameList).column = shape sch.column := shape_flagColumns _ _ _
    intro ndx hm
    rcases List.mem_append.mp hm with hm | hm
    · exact (h ndx hm).of_shape hshape
    · obtain rfl := List.mem_singleton.mp hm
      exact Slot.of_shape ⟨(if_neg hasFlag_multipleFlag).symm, hall⟩ hshape
  | removeIndex => exact h.of_shape rfl fun ndx hm => ⟨ndx, (List.eraseP_sublist).subset hm, rfl, rfl, rfl⟩
  | addForeign => exact h
  | dropForeign => exact h
  | rows hf =>
    obtain ⟨-, hcol, hndx, -⟩ := Schema.mk.inj hf
    refine h.of_shape (shape_of_fixed hcol).symm fun ndx hm => ?_
    obtain ⟨ndx₀, hm₀, he⟩ := List.mem_map.mp (hndx ▸ List.mem_map_of_mem hm : ndx.fixed ∈ sch.index.map Index.fixed)
    refine ⟨ndx₀, hm₀, ?_, ?_, ?_⟩
    · exact (Index.mk.inj he).2.2.1
    · exact (Index.mk.inj he).1
    · exact (Index.mk.inj he).2.2.2.2.2.2.2

theorem Reachable.slots {db : Schemas} (hr : Reachable db) {name : Name} {sch : Schema} (hs : db name = some sch) : sch.Slots := by
  refine Reachable.schema ?_ ?_ ?_ (fun sch sch' => Change.slots) hr hs
  · intro ndx hm
    obtain rfl := List.mem_singleton.mp hm
    exact ⟨by decide +kernel, by decide +kernel⟩
  · intro ndx hm
    obtain rfl := List.mem_singleton.mp hm
    exact ⟨by decide +kernel, by decide +kernel⟩
  · intro db name definitions wrk hm ndx hn
    have hempty : WorkSchema.empty.Slots := fun ndx hn => absurd hn List.not_mem_nil
    exact (makeAll_slots hempty hm ndx hn).1

/-! ### Keys in their slots -/

theorem columnPos_toRow (columns : List Column) (name : Text) : Dml.columnPos (columns.map Column.toRow) name = columnPos columns name := by
  rw [Dml.columnPos, List.findIdx?_map]
  rfl

theorem widthOf_toRow (columns : List Column) (name : Text) : widthOf (columns.map Column.toRow) name = columnSize columns name := by
  rw [widthOf, columnSize, columnPos_toRow]
  cases columnPos columns name with
  | none => rfl
  | some i =>
    simp only [List.getElem?_map, Option.map_map]
    rfl

theorem getIndex_ok {sch : Schema} {name : Text} {ndx : Index} (h : sch.getIndex name = .ok ndx) : ndx ∈ sch.index ∧ ndx.name = name := by
  rw [Schema.getIndex] at h
  split at h
  · rename_i hf
    cases h
    exact ⟨List.mem_of_find?_eq_some hf, by simpa using List.find?_some hf⟩
  · cases h

/-- Keys fit the slots of an index if and only if its columns, with what is too long in them, are as
wide as its slots were made. -/
theorem keys_fit_iff (A : Arith) {db : Schemas} {name : Name} {sch : Schema} {ndxName : Text} {ndx : Index} {values : List Text} {r : Dml.Row}
    (hdb : Reachable db) (hs : db name = some sch) (hn : sch.getIndex ndxName = .ok ndx)
    (hr : Dml.makeRow A (sch.column.map Column.toRow) values = some r) :
    KeyFits sch ndx r ↔
      (ndx.colNameList.map fun name => columnSize sch.column name + excessOf A (sch.column.map Column.toRow) values name).sum =
        slotSize sch.column ndx := by
  obtain ⟨hm, rfl⟩ := getIndex_ok hn
  obtain ⟨hsize, hcol⟩ := hdb.slots hs ndx hm
  have hkey : sch.makeKey ndx.name r = .ok (Dml.makeKey (sch.column.map Column.toRow) ndx.colNameList r) := by
    rw [Schema.makeKey, hn]
    exact if_pos hcol
  have hlen := Dml.length_makeKey hr ndx.colNameList
  simp only [widthOf_toRow] at hlen
  rw [← hlen, ← hsize]
  constructor
  · rintro ⟨key, hk, hl, -⟩
    obtain rfl := Except.ok.inj (hkey.symm.trans hk)
    exact hl
  · intro hl
    exact ⟨_, hkey, hl, fun leaf n offset b => Buffer.putElement_keeps hl.le b⟩

/-! ### `CREATE TABLE t (a VARCHAR(2), b VARCHAR(5), …)` with one of its columns as the primary key -/

/-- The statement. -/
def createKeyed (key : Text) : Statement :=
  .createTable ("d".toList, "t".toList)
    [.column "a".toList TYPE_VARCHAR 2 0 [] 0, .column "b".toList TYPE_VARCHAR 5 0 [] 0, .primaryKey [key]]

/-- The table, behind the statement. -/
def keyedTable (key : Text) : Option Schema := (step installed (createKeyed key)).bind fun db => db ("d".toList, "t".toList)

/-- The primary index and the row `('x', 'hello')` of the table. -/
def keyedRow (key : Text) : Option (Schema × Index × Dml.Row) := do
  let sch ← keyedTable key
  let ndx ← (sch.getIndex PK_NDX).toOption
  let r ← Dml.makeRow Dml.wholeNumbers (sch.column.map Column.toRow) [['x'], "hello".toList]
  some (sch, ndx, r)

/-- How wide the columns of the index are, with what is too long in them, and its slots. -/
def widths (p : Schema × Index × Dml.Row) : ℕ × ℕ :=
  ((p.2.1.colNameList.map fun name =>
      columnSize p.1.column name + excessOf Dml.wholeNumbers (p.1.column.map Column.toRow) [['x'], "hello".toList] name).sum,
    slotSize p.1.column p.2.1)

theorem keyedRow_spec {key : Text} {n m : ℕ} (h : (keyedRow key).map widths = some (n, m)) : ∃ db sch ndx r, Reachable db ∧
    db ("d".toList, "t".toList) = some sch ∧ sch.getIndex PK_NDX = .ok ndx ∧
      Dml.makeRow Dml.wholeNumbers (sch.column.map Column.toRow) [['x'], "hello".toList] = some r ∧ widths (sch, ndx, r) = (n, m) := by
  obtain ⟨p, hp, hw⟩ := Option.map_eq_some_iff.mp h
  obtain ⟨sch, hsch, hp⟩ := Option.bind_eq_some_iff.mp hp
  obtain ⟨ndx, hndx, hp⟩ := Option.bind_eq_some_iff.mp hp
  obtain ⟨r, hr, hp⟩ := Option.bind_eq_some_iff.mp hp
  obtain rfl := Option.some.inj hp
  obtain ⟨db, hdb, hs⟩ := Option.bind_eq_some_iff.mp hsch
  refine ⟨db, sch, ndx, r, ⟨[createKeyed key], Actions.run_cons.mpr ⟨db, hdb, rfl⟩⟩, hs, ?_, hr, hw⟩
  cases hi : sch.getIndex PK_NDX with
  | error e =>
    rw [hi] at hndx
    cases hndx
  | ok ndx' =>
    rw [hi] at hndx
    rw [Option.some.inj hndx]

theorem keys_fit_first : ∃ db sch ndx r, Reachable db ∧ db ("d".toList, "t".toList) = some sch ∧ sch.getIndex PK_NDX = .ok ndx ∧
    Dml.makeRow Dml.wholeNumbers (sch.column.map Column.toRow) [['x'], "hello".toList] = some r ∧ KeyFits sch ndx r := by
  obtain ⟨db, sch, ndx, r, hdb, hs, hn, hr, hw⟩ := @keyedRow_spec ['a'] 2 2 (by decide +kernel)
  obtain ⟨hn2, hm2⟩ := Prod.mk.inj hw
  exact ⟨db, sch, ndx, r, hdb, hs, hn, hr, (keys_fit_iff Dml.wholeNumbers hdb hs hn hr).mpr (hn2.trans hm2.symm)⟩

/-- The key of column `b` has five characters, its slot has the two of column `a`. -/
theorem keys_overrun : ¬∀ (A : Arith) (db : Schemas) (name : Name) (sch : Schema) (ndxName : Text) (ndx : Index) (values : List Text)
    (r : Dml.Row), Reachable db → db name = some sch → sch.getIndex ndxName = .ok ndx →
      Dml.makeRow A (sch.column.map Column.toRow) values = some r → KeyFits sch ndx r := by
  intro h
  obtain ⟨db, sch, ndx, r, hdb, hs, hn, hr, hw⟩ := @keyedRow_spec ['b'] 5 2 (by decide +kernel)
  obtain ⟨hn5, hm2⟩ := Prod.mk.inj hw
  have hsum := (keys_fit_iff Dml.wholeNumbers hdb hs hn hr).mp (h _ _ _ _ _ _ _ _ hdb hs hn hr)
  exact absurd (hn5.symm.trans (hsum.trans hm2)) (by decide)

end RedB.Ddl
