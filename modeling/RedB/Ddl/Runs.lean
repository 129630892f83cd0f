import RedB.Ddl.Statements
import RedB.Theory.Actions
import Mathlib.Logic.Relation

/-!
# Runs of statements on schemas

The schemas are those of the two tables that are installed, and what CREATE TABLE and ALTER TABLE
make of them. Statements about rows change the counters and the places of a schema.
-/

namespace RedB.Ddl

open Dml (Name)

/-! ### Statements -/

/-- A part of CREATE TABLE. -/
inductive Definition where
  | column (name : Text) (type size precision : ℕ) (enumList : List Text) (flag : ℕ)
  | primaryKey (colNameList : List Text)
  | foreignKey (fkColNameList : List Text) (fgnTable : Name) (pkColNameList : List Text)
deriving DecidableEq, Repr

/-- A part of CREATE TABLE, in the working schema. -/
def Definition.make (db : Schemas) : Definition → WorkSchema → Except Err WorkSchema
  | .column name type size precision enumList flag, wrk => pure (makeColumnDefinition name type size precision enumList flag wrk)
  | .primaryKey colNameList, wrk => makePrimaryKey colNameList wrk
  | .foreignKey fkColNameList fgnTable pkColNameList, wrk => makeForeignKey db fkColNameList fgnTable pkColNameList wrk

/-- `vm::make_working_schema` -/
def WorkSchema.empty : WorkSchema := { column := [], index := [], foreign := [] }

/-- The parts of CREATE TABLE, one after the other. -/
def makeAll (db : Schemas) : List Definition → WorkSchema → Except Err WorkSchema
  | [], wrk => pure wrk
  | d :: ds, wrk => do
      let wrk ← d.make db wrk
      makeAll db ds wrk

/-- A column without what statements about rows change. -/
def Column.fixed (col : Column) : Column :=
  { col with maxSize := 0, autoInc := if hasFlag col.flag FLAG_AUTO_INC then 0 else col.autoInc }

/-- An index without what statements about rows change. -/
def Index.fixed (ndx : Index) : Index := { ndx with blockCount := 0, generation := 0, root := 0 }

/-- A schema without what statements about rows change. -/
def Schema.fixed (sch : Schema) : Schema :=
  { sch with
    header := { sch.header with blockCount := 0, rowCount := 0, generation := 0, nextOffset := 0, dataOffset := 0, dataRoot := 0,
                                freeHead := 0, freeTail := 0 }
    column := sch.column.map Column.fixed
    index := sch.index.map Index.fixed }

/-- A statement, with the schema of its table behind it if it is about rows. -/
inductive Statement where
  | createTable (name : Name) (definitions : List Definition)
  | addIndex (name : Name) (colNameList : List Text)
  | addForeignKey (child fgnTable : Name) (colNameList fgnNameList : List Text)
  | dropIndex (name : Name) (ndxName : Text) (tail : ℤ)
  | dropForeignKey (child : Name) (fgnName : Text)
  | rows (name : Name) (sch : Schema)
deriving DecidableEq, Repr

/-- The schemas behind a statement. -/
def Statement.exec (db : Schemas) : Statement → Except Err Schemas
  | .createTable name definitions => do
      let wrk ← makeAll db definitions WorkSchema.empty
      Ddl.createTable name wrk db
  | .addIndex name colNameList => Ddl.addIndex name colNameList db
  | .addForeignKey child fgnTable colNameList fgnNameList => Ddl.addForeignKey child fgnTable colNameList fgnNameList db
  | .dropIndex name ndxName tail => Ddl.dropIndex name ndxName tail db
  | .dropForeignKey child fgnName => Ddl.dropForeignKey child fgnName db
  | .rows name sch' => do
      let sch ← table db name
      if sch.fixed = sch'.fixed then pure (db.set name sch') else throw .malformedTableRef

/-- A step of a run: a statement that does not throw. -/
def step (db : Schemas) (s : Statement) : Option Schemas := (s.exec db).toOption

/-! ### The tables that are installed -/

/-- A column of the tables of users and privileges. -/
def keyColumn (name : String) : Column :=
  { flag := FLAG_NOT_NULL ||| FLAG_PRIMARY ||| FLAG_UNIQUE, prec := 0, size := if name = "hostname" then 64 else 32, type := TYPE_VARCHAR,
    maxSize := 0, autoInc := 0, name := name.toList, enumList := [], referenceList := [] }

/-- A privilege of the tables of users and privileges. -/
def privColumn (name : String) : Column :=
  { flag := FLAG_NOT_NULL, prec := 0, size := 1, type := TYPE_ENUM, maxSize := 0, autoInc := 0, name := name.toList,
    enumList := [['N'], ['Y']], referenceList := [] }

/-- A schema with its first columns as the primary key. -/
def keyedSchema (name : Name) (key columns : List Column) : Schema :=
  let keySize := (key.map Column.size).sum
  WorkSchema.toSchema
    { column := key ++ columns
      index := [{ flag := FLAG_NOT_NULL ||| FLAG_PRIMARY ||| FLAG_UNIQUE, order := order keySize, keySize, blockCount := 0, generation := 0,
                  root := -1, name := PK_NDX, colNameList := key.map Column.name }]
      foreign := [] } name

/-- `make_cred_schema` -/
def credSchema : Schema :=
  keyedSchema ("etc".toList, "cred".toList) (["hostname", "username"].map keyColumn)
    ({ privColumn "password" with size := 256, type := TYPE_VARCHAR, enumList := [] } ::
      ["select_priv", "insert_priv", "update_priv", "delete_priv", "index_priv", "alter_priv", "create_priv", "drop_priv", "grant_priv",
        "reload_priv", "shutdown_priv", "file_priv", "show_db_priv", "create_user_priv"].map privColumn)

/-- `make_priv_schema` -/
def privSchema : Schema :=
  keyedSchema ("etc".toList, "priv".toList) (["hostname", "username", "db_name", "tbl_name"].map keyColumn)
    (["select_priv", "insert_priv", "update_priv", "delete_priv", "index_priv", "alter_priv", "create_priv", "drop_priv", "grant_priv",
      "file_priv"].map privColumn)

/-- The schemas of a new system. -/
def installed : Schemas := fun name =>
  if name = ("etc".toList, "cred".toList) then some credSchema else if name = ("etc".toList, "priv".toList) then some privSchema else none

/-- Schemas that a run of statements leads to. Each of them succeeds, and none is DROP TABLE. Sizes
are natural numbers, where the code adds up `int32_t`. -/
def Reachable (db : Schemas) : Prop := ∃ ss, Actions.run step installed ss = some db

/-! ### Changes of one schema -/

/-- A column without its back-references. -/
def Column.bare (col : Column) : Column := { col with referenceList := [] }

/-- What a statement does to a schema that there is. -/
inductive Change : Schema → Schema → Prop
  | refer {sch : Schema} {columns : List Column} (h : columns.map Column.bare = sch.column.map Column.bare) :
      Change sch { sch with column := columns }
  | addIndex {sch : Schema} {colNameList : List Text} (h : colNameList.all (hasColumn sch.column) = true) :
      Change sch (sch.addIndex colNameList)
  | removeIndex {sch : Schema} {ndxName : Text} (h : ndxName ≠ PK_NDX) : Change sch (sch.removeIndex ndxName)
  | addForeign (sch : Schema) (dbName tblName : Text) (colNameList : List Text) :
      Change sch { sch with
        foreign := sch.foreign ++ [{ name := makeName FGN_ (sch.foreign.map Foreign.name), dbName, tblName, colNameList }] }
  | dropForeign (sch : Schema) (fgnName : Text) : Change sch { sch with foreign := sch.foreign.eraseP fun fgn => fgn.name = fgnName }
  | rows {sch sch' : Schema} (h : sch.fixed = sch'.fixed) : Change sch sch'

/-- Changes of a schema. -/
abbrev Changes : Schema → Schema → Prop := Relation.ReflTransGen Change

/-- Schemas that have come from others by changes. -/
def ChangesAll (db db' : Schemas) : Prop := ∀ n sch', db' n = some sch' → ∃ sch, db n = some sch ∧ Changes sch sch'

theorem ChangesAll.refl (db : Schemas) : ChangesAll db db := fun _ sch' h => ⟨sch', h, .refl⟩

theorem ChangesAll.trans {db db' db'' : Schemas} (h : ChangesAll db db') (h' : ChangesAll db' db'') : ChangesAll db db'' := by
  intro n sch'' hs
  obtain ⟨sch', hs', hc'⟩ := h' n sch'' hs
  obtain ⟨sch, hs, hc⟩ := h n sch' hs'
  exact ⟨sch, hs, hc.trans hc'⟩

theorem changesAll_set {db : Schemas} {name : Name} {sch sch' : Schema} (hs : db name = some sch) (hc : Changes sch sch') :
    ChangesAll db (db.set name sch') := by
  intro n t ht
  by_cases hn : n = name
  · subst hn
    rw [Schemas.set_self, Option.some.injEq] at ht
    subst ht
    exact ⟨sch, hs, hc⟩
  · rw [Schemas.set_of_ne _ _ hn] at ht
    exact ⟨t, ht, .refl⟩

theorem makeReference_changes {child : Name} {l : List Foreign} {db r : Schemas} (h : makeReference child l db = .ok r) : ChangesAll db r := by
  induction l generalizing db with
  | nil =>
    cases h
    exact .refl _
  | cons fgn l ih =>
    obtain ⟨sch, hs, -, h⟩ := makeReference_cons.mp h
    exact (changesAll_set hs (.single (.refer (referAt_map (fun _ => rfl) _ _)))).trans (ih h)

theorem referNamed_bare {child : Name} {fgnName : Text} {names : List Text} {columns columns' : List Column}
    (h : referNamed child fgnName names columns = .ok columns') : columns'.map Column.bare = columns.map Column.bare := by
  induction names generalizing columns with
  | nil =>
    cases h
    rfl
  | cons name names ih =>
    rw [referNamed] at h
    split at h
    · rw [ih h]
      exact map_modify (f := Column.refer child fgnName) (fun _ => rfl) _ _
    · cases h

theorem unrefer_bare {fgnName : Text} {names : List Text} {columns columns' : List Column}
    (h : unrefer fgnName names columns = .ok columns') : columns'.map Column.bare = columns.map Column.bare := by
  induction names generalizing columns with
  | nil =>
    cases h
    rfl
  | cons name names ih =>
    rw [unrefer] at h
    split at h
    · cases h
    · split at h
      · rw [ih h]
        exact map_modify (f := Column.unrefer fgnName) (fun _ => rfl) _ _
      · cases h

/-- A statement changes the schemas that there are, or makes one more of a working schema before. -/
theorem step_changes {db db' : Schemas} {s : Statement} (h : step db s = some db') :
    ChangesAll db db' ∨ ∃ name definitions wrk, makeAll db definitions WorkSchema.empty = .ok wrk ∧
      ChangesAll (db.set name (wrk.toSchema name)) db' := by
  have h : s.exec db = .ok db' := by
    rw [step] at h
    cases hx : s.exec db with
    | error e =>
      rw [hx] at h
      cases h
    | ok d =>
      rw [hx] at h
      exact congrArg Except.ok (Option.some.inj h)
  cases s with
  | createTable name definitions =>
    obtain ⟨wrk, hw, h⟩ := bind_ok.mp h
    exact .inr ⟨name, definitions, wrk, hw, makeReference_changes (createTable_ok.mp h).2⟩
  | addIndex name colNameList =>
    obtain ⟨sch, hs, h⟩ := bind_ok.mp h
    split at h
    · cases h
    rename_i hc
    cases h
    exact .inl (changesAll_set (table_ok.mp hs) (.single (.addIndex (by simpa using hc))))
  | addForeignKey child fgnTable colNameList fgnNameList =>
    obtain ⟨_, -, h⟩ := bind_ok.mp h
    obtain ⟨sch, hs, h⟩ := bind_ok.mp h
    split at h
    · cases h
    obtain ⟨ndx, -, h⟩ := bind_ok.mp h
    split at h
    · cases h
    obtain ⟨p, hp, h⟩ := bind_ok.mp h
    obtain ⟨columns, hr, h⟩ := bind_ok.mp h
    cases h
    exact .inl ((changesAll_set (table_ok.mp hs) (.single (.addForeign ..))).trans (changesAll_set (table_ok.mp hp) (.single (.refer (referNamed_bare hr)))))
  | dropIndex name ndxName tail =>
    rw [Statement.exec, dropIndex] at h
    split at h
    · cases h
    rename_i hne
    obtain ⟨sch, hs, h⟩ := bind_ok.mp h
    obtain ⟨ndx, -, h⟩ := bind_ok.mp h
    split at h
    · cases h
      exact .inl (.refl _)
    · cases h
      -- the places of free blocks are what statements about rows change, too
      refine .inl (changesAll_set (table_ok.mp hs) (.tail ?_ (.removeIndex hne)))
      exact .single (.rows rfl)
  | dropForeignKey child fgnName =>
    obtain ⟨sch, hs, h⟩ := bind_ok.mp h
    split at h
    · cases h
    obtain ⟨_, -, h⟩ := bind_ok.mp h
    obtain ⟨p, hp, h⟩ := bind_ok.mp h
    obtain ⟨columns, hr, h⟩ := bind_ok.mp h
    cases h
    exact .inl ((changesAll_set (table_ok.mp hs) (.single (.dropForeign ..))).trans (changesAll_set (table_ok.mp hp) (.single (.refer (unrefer_bare hr)))))
  | rows name sch' =>
    obtain ⟨sch, hs, h⟩ := bind_ok.mp h
    split at h
    · rename_i hf
      cases h
      exact .inl (changesAll_set (table_ok.mp hs) (.single (.rows hf)))
    · cases h

/-- What holds of new schemas and is kept by all changes holds of all schemas. -/
theorem Reachable.schema {P : Schema → Prop} (hcred : P credSchema) (hpriv : P privSchema)
    (hnew : ∀ db name definitions wrk, makeAll db definitions WorkSchema.empty = .ok wrk → P (wrk.toSchema name))
    (hchange : ∀ sch sch', Change sch sch' → P sch → P sch') {db : Schemas} (hr : Reachable db) {name : Name} {sch : Schema}
    (hs : db name = some sch) : P sch := by
  have hchanges : ∀ sch sch', Changes sch sch' → P sch → P sch' := by
    intro sch sch' hc hp
    induction hc with
    | refl => exact hp
    | tail _ hc ih => exact hchange _ _ hc ih
  have hall : ∀ db db' : Schemas, (∀ n sch, db n = some sch → P sch) → ChangesAll db db' → ∀ n sch, db' n = some sch → P sch := by
    intro db db' hp hc n sch' hs'
    obtain ⟨sch, hs, hc⟩ := hc n sch' hs'
    exact hchanges _ _ hc (hp n sch hs)
  obtain ⟨ss, hrun⟩ := hr
  have halways : Actions.Always step (fun _ _ => True) installed ss := fun _ _ _ _ _ _ => trivial
  refine Actions.run_invariant (I := fun db => ∀ n sch, db n = some sch → P sch) ?_ ?_ halways hrun name sch hs
  · intro db s db' hp _ hstep
    rcases step_changes hstep with hc | ⟨name, definitions, wrk, hw, hc⟩
    · exact hall _ _ hp hc
    · refine hall _ _ (fun n sch hs => ?_) hc
      by_cases hn : n = name
      · subst hn
        rw [Schemas.set_self, Option.some.injEq] at hs
        rw [← hs]
        exact hnew _ _ _ _ hw
      · rw [Schemas.set_of_ne _ _ hn] at hs
        exact hp n sch hs
  · intro n sch hs
    rw [installed] at hs
    split at hs
    · rw [← Option.some.inj hs]
      exact hcred
    · split at hs
      · rw [← Option.some.inj hs]
        exact hpriv
      · cases hs

end RedB.Ddl
