import RedB.Ddl.Schema
import RedB.Dml.Cond

/-!
# Statements about schemas

CREATE TABLE makes columns and keys in a working schema, and a schema of it. ALTER TABLE adds
and drops indexes and foreign keys. A foreign key is declared in either of them, by
`make_foreign_key` or by `add_foreign_key`, and leaves back-references at the columns of the
table that it refers to.
-/

namespace RedB.Ddl

open Dml (Name)

/-- The schemas of the tables. -/
abbrev Schemas := Name → Option Schema

/-- `manager::add_schema` -/
def Schemas.set (db : Schemas) (name : Name) (sch : Schema) : Schemas := fun n => if n = name then some sch else db n

/-- `bcalc::order` -/
def order (keySize : ℕ) : ℕ := (32768 - (24 + 8)) / (8 + keySize)

/-! ### CREATE TABLE -/

/-- `vm::make_column_definition`. The size of an enumeration is the one of its longest value. -/
def makeColumnDefinition (name : Text) (type size precision : ℕ) (enumList : List Text) (flag : ℕ) (wrk : WorkSchema) : WorkSchema :=
  let col : Column := { flag, prec := 0, size, type, maxSize := 0, autoInc := 0, name, enumList := [], referenceList := [] }
  if type = TYPE_CHAR ∨ type = TYPE_BINARY ∨ type = TYPE_INT ∨ type = TYPE_VARCHAR then { wrk with column := wrk.column ++ [col] }
  else if type = TYPE_DATE ∨ type = TYPE_DATETIME ∨ type = TYPE_TIMESTAMP then
    { wrk with column := wrk.column ++ [{ col with size := if type = TYPE_DATE then 10 else 19 }] }
  else if type = TYPE_ENUM then
    { wrk with column := wrk.column ++ [{ col with size := (enumList.map List.length).foldl max 0, enumList }] }
  else if type = TYPE_FLOAT then { wrk with column := wrk.column ++ [{ col with prec := precision }] }
  else wrk

/-- A column may be in the primary key. -/
def mayBePrimary (columns : List Column) (name : Text) : Bool :=
  match columns.find? fun col => col.name = name with
  | some col => !hasFlag col.flag FLAG_PRIMARY && !hasFlag col.flag FLAG_UNIQUE
  | none => false

/-- The flags of the primary key. -/
def primaryFlag : ℕ := FLAG_PRIMARY ||| FLAG_NOT_NULL ||| FLAG_UNIQUE

/-- A column with more flags. -/
def Column.addFlag (flag : ℕ) (col : Column) : Column := { col with flag := col.flag ||| flag }

/-- `vm::make_primary_key`. The flags are set at the first columns of the table, as many as there
are names, and their sizes make the size of the key. -/
def makePrimaryKey (colNameList : List Text) (wrk : WorkSchema) : Except Err WorkSchema :=
  if wrk.index.any fun ndx => ndx.name = PK_NDX then throw .multiplePrimaryKey
  else if !colNameList.all (mayBePrimary wrk.column) then throw .malformedPrimaryKey
  else if wrk.column.length < colNameList.length then throw .undefined
  else
    let k := colNameList.length
    let pkSize := ((wrk.column.take k).map Column.size).sum
    pure { wrk with
      column := (wrk.column.take k).map (Column.addFlag primaryFlag) ++ wrk.column.drop k
      index := wrk.index ++ [{ flag := primaryFlag, order := order pkSize, keySize := pkSize, blockCount := 0, generation := 0,
                               root := -1, name := PK_NDX, colNameList }] }

/-- `vm::make_foreign_key`: the key has the names of the primary key of the other table. -/
def makeForeignKey (db : Schemas) (fkColNameList : List Text) (fgnTable : Name) (pkColNameList : List Text) (wrk : WorkSchema) :
    Except Err WorkSchema :=
  if fkColNameList.length ≠ pkColNameList.length then throw .malformedForeignKey
  else if !fkColNameList.all (hasColumn wrk.column) then throw .malformedForeignKey
  else
    match db fgnTable with
    | none => throw .malformedForeignKey
    | some fgnSch => do
        let ndx ← fgnSch.getIndex PK_NDX
        if pkColNameList.length ≠ ndx.colNameList.length then throw .malformedForeignKey
        else if (pkColNameList.zip ndx.colNameList).any fun p => p.1 ≠ p.2 then throw .malformedForeignKey
        else
          let fkName := makeName FGN_ (wrk.foreign.map Foreign.name)
          pure { wrk with
            foreign := wrk.foreign ++ [{ name := fkName, dbName := fgnTable.1, tblName := fgnTable.2, colNameList := pkColNameList }] }

/-- A new back-reference. -/
def Column.refer (child : Name) (fgnName : Text) (col : Column) : Column :=
  { col with
    referenceList := col.referenceList ++
      [{ name := makeName REF_ (col.referenceList.map Reference.name), dbName := child.1, tblName := child.2, fgnName }] }

/-- Back-references at these places, one after the other. -/
def referAt (child : Name) (fgnName : Text) : List ℕ → List Column → List Column
  | [], columns => columns
  | i :: is, columns => referAt child fgnName is (columns.modify i (Column.refer child fgnName))

/-- `vm::make_reference`: the back-references are at the first columns of the other table. -/
def makeReference (child : Name) : List Foreign → Schemas → Except Err Schemas
  | [], db => pure db
  | fgn :: fgnList, db =>
      match db (fgn.dbName, fgn.tblName) with
      | none => throw .dbmsError
      | some fgnSch =>
          if fgnSch.column.length < fgn.colNameList.length then throw .undefined
          else
            makeReference child fgnList (db.set (fgn.dbName, fgn.tblName)
              { fgnSch with column := referAt child fgn.name (List.range fgn.colNameList.length) fgnSch.column })

/-- The schema that is made of a working schema. -/
def WorkSchema.toSchema (wrk : WorkSchema) (name : Name) : Schema where
  header :=
    { dbName := name.1, tblName := name.2, flag := 0, blockSize := 32768, indexCount := wrk.index.length,
      foreignCount := wrk.foreign.length, columnCount := wrk.column.length, blockCount := 0, rowCount := 0, generation := 0,
      nextOffset := 0, dataOffset := -1, dataRoot := -1, freeHead := -1, freeTail := -1 }
  column := wrk.column
  index := wrk.index
  foreign := wrk.foreign

/-- `vm::create_table` -/
def createTable (name : Name) (wrk : WorkSchema) (db : Schemas) : Except Err Schemas :=
  if (db name).isSome then throw .createTableError
  else makeReference name wrk.foreign (db.set name (wrk.toSchema name))

/-! ### ALTER TABLE -/

/-- The schema of a table of the statement. -/
def table (db : Schemas) (name : Name) : Except Err Schema :=
  match db name with
  | some sch => pure sch
  | none => throw .malformedTableRef

/-- Flags of a column of a key. -/
def flagColumn (flag : ℕ) (name : Text) (columns : List Column) : List Column :=
  match columnPos columns name with
  | some i => columns.modify i (Column.addFlag flag)
  | none => columns

/-- The size of a column. -/
def columnSize (columns : List Column) (name : Text) : ℕ :=
  match columnPos columns name with
  | some i => ((columns[i]?).map Column.size).getD 0
  | none => 0

/-- The flags of another index. -/
def multipleFlag : ℕ := FLAG_NOT_NULL ||| FLAG_MULTIPLE

/-- A schema with another index. -/
def Schema.addIndex (sch : Schema) (colNameList : List Text) : Schema :=
  let keySize := (colNameList.map (columnSize sch.column)).sum
  { sch with
    header := { sch.header with indexCount := sch.header.indexCount + 1 }
    column := colNameList.foldl (fun columns name => flagColumn multipleFlag name columns) sch.column
    index := sch.index ++ [{ flag := multipleFlag, order := order keySize, keySize, blockCount := 0, generation := 0, root := -1,
                             name := makeName NDX_ (sch.index.map Index.name), colNameList }] }

/-- `vm::add_index` -/
def addIndex (name : Name) (colNameList : List Text) (db : Schemas) : Except Err Schemas := do
  let sch ← table db name
  if !colNameList.all (hasColumn sch.column) then throw .malformedColumnList
  else pure (db.set name (sch.addIndex colNameList))

/-- Back-references at the columns of these names. -/
def referNamed (child : Name) (fgnName : Text) : List Text → List Column → Except Err (List Column)
  | [], columns => pure columns
  | name :: names, columns =>
      match columnPos columns name with
      | some i => referNamed child fgnName names (columns.modify i (Column.refer child fgnName))
      | none => throw .columnError

/-- `vm::add_foreign_key`: the key has the names of the columns of the table itself. -/
def addForeignKey (child fgnTable : Name) (colNameList fgnNameList : List Text) (db : Schemas) : Except Err Schemas := do
  let fgnSch ← table db fgnTable
  let sch ← table db child
  if !colNameList.all (hasColumn sch.column) then throw .malformedColumnList
  else do
    let ndx ← fgnSch.getIndex PK_NDX
    if !fgnNameList.all ndx.colNameList.contains then throw .malformedColumnList
    else do
      let fgnName := makeName FGN_ (sch.foreign.map Foreign.name)
      let db := db.set child
        { sch with foreign := sch.foreign ++ [{ name := fgnName, dbName := fgnTable.1, tblName := fgnTable.2, colNameList }] }
      let fgnSch ← table db fgnTable
      let columns ← referNamed child fgnName fgnNameList fgnSch.column
      pure (db.set fgnTable { fgnSch with column := columns })

/-- The first back-reference of a foreign key of this name is taken away. -/
def Column.unrefer (fgnName : Text) (col : Column) : Column :=
  { col with referenceList := col.referenceList.eraseP fun ref => ref.fgnName = fgnName }

/-- The back-references of a foreign key are taken away, at the columns of its names. -/
def unrefer (fgnName : Text) : List Text → List Column → Except Err (List Column)
  | [], columns => pure columns
  | name :: names, columns =>
      match columnPos columns name with
      | none => throw .malformedReference
      | some i =>
          if (columns[i]?).any fun col => col.referenceList.any fun ref => ref.fgnName = fgnName then
            unrefer fgnName names (columns.modify i (Column.unrefer fgnName))
          else throw .malformedReference

/-- `vm::drop_foreign_key` -/
def dropForeignKey (child : Name) (fgnName : Text) (db : Schemas) : Except Err Schemas := do
  let sch ← table db child
  match sch.foreign.find? fun fgn => fgn.name = fgnName with
  | none => throw .malformedForeignKey
  | some fgn => do
      let _ ← table db (fgn.dbName, fgn.tblName)
      let db := db.set child { sch with foreign := sch.foreign.eraseP fun fgn => fgn.name = fgnName }
      let fgnSch ← table db (fgn.dbName, fgn.tblName)
      let columns ← unrefer fgnName fgn.colNameList fgnSch.column
      pure (db.set (fgn.dbName, fgn.tblName) { fgnSch with column := columns })

/-- `schema::remove_index` -/
def Schema.removeIndex (sch : Schema) (ndxName : Text) : Schema :=
  { sch with
    header := { sch.header with indexCount := sch.header.indexCount - 1 }
    index := sch.index.eraseP fun ndx => ndx.name = ndxName }

/-- `vm::drop_index`, with the place of the last node of the index. An index that has no nodes is
not dropped. -/
def dropIndex (name : Name) (ndxName : Text) (tail : ℤ) (db : Schemas) : Except Err Schemas :=
  if ndxName = PK_NDX then throw .dropPrimaryKey
  else do
    let sch ← table db name
    let ndx ← sch.getIndex ndxName
    if ndx.root < 0 then pure db
    else
      let freeHead := if sch.header.freeHead = -1 then ndx.root else sch.header.freeHead
      let sch := { sch with header := { sch.header with freeHead, freeTail := tail } }
      pure (db.set name (sch.removeIndex ndxName))

/-! ### Runs of statements on one schema or two -/

/-- A run is taken apart. -/
theorem bind_ok {α β : Type} {x : Except Err α} {f : α → Except Err β} {b : β} : (x >>= f) = .ok b ↔ ∃ a, x = .ok a ∧ f a = .ok b := by
  cases x with
  | error e => exact ⟨fun h => (by cases h), fun ⟨_, h, _⟩ => (by cases h)⟩
  | ok a => exact ⟨fun h => ⟨a, rfl, h⟩, fun ⟨_, h, h'⟩ => (by cases h; exact h')⟩

theorem table_ok {db : Schemas} {name : Name} {sch : Schema} : table db name = .ok sch ↔ db name = some sch := by
  rw [table]
  cases db name with
  | none => exact ⟨fun h => (by cases h), fun h => (by cases h)⟩
  | some _ => exact ⟨fun h => (by cases h; rfl), fun h => (by cases h; rfl)⟩

@[simp] theorem Schemas.set_self (db : Schemas) (name : Name) (sch : Schema) : db.set name sch name = some sch := if_pos rfl

theorem Schemas.set_of_ne (db : Schemas) {name n : Name} (sch : Schema) (h : n ≠ name) : db.set name sch n = db n := if_neg h

theorem createTable_ok {name : Name} {wrk : WorkSchema} {db db' : Schemas} :
    createTable name wrk db = .ok db' ↔ db name = none ∧ makeReference name wrk.foreign (db.set name (wrk.toSchema name)) = .ok db' := by
  unfold createTable
  cases db name with
  | none => exact ⟨fun h => ⟨rfl, h⟩, fun h => h.2⟩
  | some _ => exact ⟨fun h => (by cases h), fun h => (by cases h.1)⟩

theorem makeReference_cons {child : Name} {fgn : Foreign} {fgnList : List Foreign} {db r : Schemas} :
    makeReference child (fgn :: fgnList) db = .ok r ↔ ∃ sch, db (fgn.dbName, fgn.tblName) = some sch ∧
      fgn.colNameList.length ≤ sch.column.length ∧
      makeReference child fgnList (db.set (fgn.dbName, fgn.tblName)
        { sch with column := referAt child fgn.name (List.range fgn.colNameList.length) sch.column }) = .ok r := by
  rw [makeReference]
  cases db (fgn.dbName, fgn.tblName) with
  | none => exact ⟨fun h => (by cases h), fun ⟨_, h, _⟩ => (by cases h)⟩
  | some sch =>
    simp only [Option.some.injEq, exists_eq_left']
    by_cases hl : sch.column.length < fgn.colNameList.length
    · rw [if_pos hl]
      exact ⟨fun h => (by cases h), fun ⟨h, _⟩ => absurd hl (Nat.not_lt.mpr h)⟩
    · rw [if_neg hl]
      exact ⟨fun h => ⟨Nat.not_lt.mp hl, h⟩, fun h => h.2⟩

theorem makeForeignKey_ok {db : Schemas} {fk pk : List Text} {parent : Name} {wrk wrk' : WorkSchema}
    (h : makeForeignKey db fk parent pk wrk = .ok wrk') :
    fk.length = pk.length ∧ fk.all (hasColumn wrk.column) = true ∧ (db parent).isSome = true ∧
      wrk' = { wrk with foreign := wrk.foreign ++
        [{ name := makeName FGN_ (wrk.foreign.map Foreign.name), dbName := parent.1, tblName := parent.2, colNameList := pk }] } := by
  unfold makeForeignKey at h
  split at h
  · cases h
  split at h
  · cases h
  rename_i hl hc
  refine ⟨Decidable.not_not.mp hl, by simpa using hc, ?_⟩
  cases hp : db parent with
  | none =>
    rw [hp] at h
    cases h
  | some p =>
    rw [hp] at h
    obtain ⟨ndx, -, h⟩ := bind_ok.mp h
    split at h
    · cases h
    split at h
    · cases h
    cases h
    exact ⟨rfl, rfl⟩

/-- What a change of one element does not change. -/
theorem map_modify {α β : Type} {f : α → α} {g : α → β} (h : ∀ a, g (f a) = g a) (l : List α) (i : ℕ) : (l.modify i f).map g = l.map g := by
  refine List.ext_getElem? fun k => ?_
  rw [List.getElem?_map, List.getElem?_map, List.getElem?_modify]
  split
  · cases l[k]? with
    | none => rfl
    | some a => exact congrArg some (h a)
  · cases l[k]? <;> rfl

/-- What back-references do not change. -/
theorem referAt_map {β : Type} {child : Name} {fgnName : Text} {g : Column → β} (h : ∀ col, g (Column.refer child fgnName col) = g col)
    (is : List ℕ) (columns : List Column) : (referAt child fgnName is columns).map g = columns.map g := by
  induction is generalizing columns with
  | nil => rfl
  | cons k is ih => rw [referAt, ih, map_modify h]

end RedB.Ddl
