import RedB.Dml.Table

/-!
# Statements that write

INSERT, LOAD DATA, UPDATE and DELETE on one table. A statement that fails leaves the table as
it is at that point: nothing is undone. UPDATE and DELETE have `tree::remove` as a parameter, which
is what it is for (`Table.remove`) or what it does by the keys of the row (`Table.removeKeys`). What is
written about a statement, its privileges and the flush of the tree at its end are left out.
-/

namespace RedB.Dml

/-- What a statement throws. -/
inductive Err where
  /-- `ERRNO_VALUE_ERROR` -/
  | value
  /-- `std::stof` or `std::stoi`, in `row::append`. -/
  | number
  /-- The buffer of the row is full. -/
  | overrun
  /-- `ERRNO_COLUMN_ERROR` or `ERRNO_INDEX_ERROR`, in `vm::verify_foreign_key`. -/
  | foreign
  /-- A condition or an expression has no value. -/
  | condition
  /-- `ERRNO_MALFORMED_COLUMN_LIST` -/
  | malformedColumnList
  /-- `ERRNO_MALFORMED_VALUE_LIST` -/
  | malformedValueList
  /-- `ERRNO_DBMS_ERROR` -/
  | dbms
  /-- `ERRNO_UPDATE_ERROR` -/
  | update
deriving DecidableEq, Repr

/-- A statement: it reads and changes a table. -/
abbrev M := EStateM Err Table

/-- The tables by their names. -/
abbrev Db := Name → Option Table

variable (A : Arith)

/-! ### Rows -/

/-- `row::append`: the row, and what is left in the argument. -/
def append (i : ℕ) (value : Text) (r : Row) : M (Row × Text) := do
  let t ← get
  match t.columns[i]? with
  | none => throw .value
  | some col =>
      if col.accepts A value then
        set { t with columns := t.columns.set i col.next }
        match col.store A value with
        | none => throw .number
        | some text => if r.data.length + text.length ≤ capacity t.columns then pure (r.put i text, text) else throw .overrun
      else throw .value

/-- `vm::load_row`, from column `i` on. -/
def loadRow : ℕ → List Text → Row → M Row
  | _, [], r => pure r
  | i, value :: values, r => do
      let (r, _) ← append A i value r
      loadRow (i + 1) values r

/-! ### Checks -/

/-- The tables of the foreign keys, of `vm::load_foreign_tree`. -/
def parent (db : Db) (t : Table) (fgn : Foreign) : Option Table := if fgn.tbl = t.name then some t else db fgn.tbl

/-- `row::make_foreign_key`: nothing if a column of the foreign key is not there. -/
def foreignKey (t : Table) (fgn : Foreign) (r : Row) : Option Text := makeKey? t.columns r fgn.colNameList

/-- `vm::verify_foreign_key`, for the rest of the foreign keys: nothing if it throws, at a column or a
primary index that is not there. -/
def verifyForeignKeys (db : Db) (t : Table) (r : Row) : List Foreign → Option Bool
  | [] => some true
  | fgn :: fgns => do
      let key ← foreignKey t fgn r
      let p ← parent db t fgn
      let _ ← p.getIndex PK_NDX
      if (p.find PK_NDX key).isNone then some false else verifyForeignKeys db t r fgns

/-- `vm::verify_foreign_key` -/
def verifyForeignKey (db : Db) (t : Table) (r : Row) : Option Bool := verifyForeignKeys db t r t.foreignList

/-- `vm::verify_unique_key` -/
def verifyUniqueKey (t : Table) (r : Row) : Bool :=
  t.indexList.all fun ndx => !ndx.isUnique || (t.find ndx.name (t.key ndx r)).isNone

/-! ### INSERT and LOAD DATA -/

/-- The value of a column in a list of columns and values, empty if it is not there. -/
def listed (colValList : List (Text × Text)) (name : Text) : Text :=
  ((colValList.find? fun p => p.1 = name).map Prod.snd).getD []

/-- `vm::verify_value_list` -/
def verifyValueList (columns : List Column) (colValList : List (Text × Text)) : Bool :=
  columns.all fun col => col.isValid A (listed colValList col.name)

/-- `vm::make_value_list` -/
def makeValueList (columns : List Column) (colValList : List (Text × Text)) : List Text :=
  columns.map fun col => listed colValList col.name

/-- The loop of `vm::insert` over the sets of values. -/
def insertSets (db : Db) (colNameList : List Text) : List (List Text) → Row → M Unit
  | [], _ => pure ()
  | values :: sets, rw => do
      let t ← get
      let colValList := colNameList.zip values
      if values.length = colNameList.length ∧ verifyValueList A t.columns colValList then
        let rw ← loadRow A 0 (makeValueList t.columns colValList) rw
        let t ← get
        match verifyForeignKey db t rw with
        | none => throw .foreign
        -- the result is not used
        | some _ =>
            if verifyUniqueKey t rw then set (t.insert rw)
            insertSets db colNameList sets rw.clear
      else throw .malformedValueList

/-- `vm::insert` -/
def insert (db : Db) (colNameList : List Text) (sets : List (List Text)) : M Unit := do
  let t ← get
  if t.foreignList.all fun fgn => (parent db t fgn).isSome then
    if colNameList.all fun name => (columnPos t.columns name).isSome then
      let colNameList := if colNameList = [] then t.columns.map Column.name else colNameList
      insertSets A db colNameList sets (Row.empty t.columns.length)
    else throw .malformedColumnList
  else throw .dbms

/-- The loop of `vm::load_data` over the lines of the file: the values of a line, nothing if
`vm::get_data` cannot read it. -/
def loadLines (db : Db) : List (Option (List Text)) → Row → M Unit
  | [], _ => pure ()
  | none :: lines, rw => loadLines db lines rw
  | some values :: lines, rw => do
      let t ← get
      if values.length = t.columns.length then
        let rw ← loadRow A 0 values rw
        let t ← get
        match verifyForeignKey db t rw with
        | none => throw .foreign
        -- the result is not used
        | some _ =>
            if verifyUniqueKey t rw then
              set (t.insert rw)
              loadLines db lines rw.clear
            -- the row is not cleared
            else loadLines db lines rw
      else loadLines db lines rw

/-- `vm::load_data` -/
def loadData (db : Db) (lines : List (Option (List Text))) : M Unit := do
  let t ← get
  if t.foreignList.all fun fgn => (parent db t fgn).isSome then loadLines A db lines (Row.empty t.columns.length) else throw .dbms

/-! ### UPDATE and DELETE -/

section Remove

variable (remove : Table → Row → Table)

/-- The first loop of `vm::update` and `vm::delete_row`: the primary keys of the rows for which
the condition is true. Without a condition there are none. -/
def selectKeys (t : Table) : Option Cond → List (ℕ × Row) → Option (List Text)
  | none, _ => some []
  | some _, [] => some []
  | some cond, p :: ps => do
      let cond ← setColumnValue A (t.view p.2) cond
      let res ← execCondition A cond
      let keys ← selectKeys t (some cond) ps
      some (if res = boolText true then t.primaryKey p.2 :: keys else keys)

/-- The second loop of `vm::delete_row`. -/
def deleteKeys : List Text → Table → Table
  | [], t => t
  | key :: keys, t =>
      match t.find PK_NDX key with
      | some p => deleteKeys keys (remove t p.2)
      | none => deleteKeys keys t

/-- `vm::delete_row` -/
def deleteRow (cond : Option Cond) : M Unit := do
  let t ← get
  match selectKeys A t cond t.rows with
  | some keys => set (deleteKeys remove keys t)
  | none => throw .condition

/-- An assignment: the column, the value of its item and the expression. -/
structure Assignment where
  colName : Text
  /-- `m_left->m_value` -/
  value : Text
  /-- `m_right` -/
  right : Cond
deriving DecidableEq, Repr

/-- `vm::set_column_value` and `vm::exec_assignment`, for all assignments. -/
def execAssignments (row : View) : List Assignment → Option (List Assignment)
  | [] => some []
  | a :: as => do
      let right ← setColumnValue A row a.right
      let value ← execAssignment A a.value right
      let as ← execAssignments row as
      some ({ a with value := value, right := right } :: as)

/-- The value that is assigned to a column. -/
def assigned (as : List Assignment) (name : Text) : Option Text := (as.find? fun a => a.colName = name).map Assignment.value

/-- What `row::append` leaves in the item of a column. -/
def leave (text : Text) (name : Text) : List Assignment → List Assignment
  | [] => []
  | a :: as => if a.colName = name then { a with value := text } :: as else a :: leave text name as

/-- The row that is put back, from column `i` on: what is assigned, or else what there was. -/
def populate (org : Row) : ℕ → List Column → List Assignment → Row → M (Row × List Assignment)
  | _, [], as, upd => pure (upd, as)
  | i, col :: cols, as, upd =>
      match assigned as col.name with
      | some value => do
          let (upd, text) ← append A i value upd
          populate org (i + 1) cols (leave text col.name as) upd
      | none => do
          let (upd, _) ← append A i (org.valueAt i) upd
          populate org (i + 1) cols as upd

/-- The second loop of `vm::update`. -/
def updateKeys : List Text → List Assignment → M Unit
  | [], _ => pure ()
  | key :: keys, as => do
      let t ← get
      match t.find PK_NDX key with
      | none => updateKeys keys as
      | some p =>
          match execAssignments A (t.view p.2) as with
          | none => throw .condition
          | some as => do
              set (remove t p.2)
              let (upd, as) ← populate A p.2 0 t.columns as (Row.empty t.columns.length)
              modify fun t => t.insert upd
              updateKeys keys as

/-- `vm::make_assignment`: whether the column can be assigned. -/
def assignable (columns : List Column) (name : Text) : Bool :=
  (columns.find? fun col => col.name = name).any fun col => !col.isAutoInc && !col.isPrimary

/-- `vm::update`, with the assignments in the order of `m_assignment_list`.
`vm::compact_condition` leaves assignments as they are. -/
def update (cond : Option Cond) (assignments : List (Text × Cond)) : M Unit := do
  let t ← get
  if assignments.all fun a => assignable t.columns a.1 then
    match selectKeys A t cond t.rows with
    | some keys => updateKeys A remove keys (assignments.map fun a => { colName := a.1, value := [], right := a.2 })
    | none => throw .condition
  else throw .update

end Remove

/-! ### Statements -/

/-- A statement on a table. -/
inductive Statement where
  | insert (colNameList : List Text) (sets : List (List Text))
  | loadData (lines : List (Option (List Text)))
  | update (cond : Option Cond) (assignments : List (Text × Cond))
  | deleteRow (cond : Option Cond)
deriving DecidableEq, Repr

/-- What a statement does, if the tree does what it is for. -/
def Statement.run (db : Db) : Statement → M Unit
  | .insert colNameList sets => Dml.insert A db colNameList sets
  | .loadData lines => Dml.loadData A db lines
  | .update cond assignments => Dml.update A Table.remove cond assignments
  | .deleteRow cond => Dml.deleteRow A Table.remove cond

/-- The table behind a statement, whether it has failed or not. -/
def after {α : Type} : EStateM.Result Err Table α → Table
  | .ok _ t => t
  | .error _ t => t

@[simp] theorem after_ok {α : Type} (a : α) (t : Table) : after (.ok a t) = t := rfl

@[simp] theorem after_error {α : Type} (e : Err) (t : Table) : after (.error e t : EStateM.Result Err Table α) = t := rfl

/-- A statement on one of the tables. -/
def exec (db : Db) (name : Name) (s : Statement) : Db := fun n =>
  if n = name then (db name).map fun t => after (s.run A db t) else db n

end RedB.Dml
