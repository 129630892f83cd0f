import RedB.Btree.Node
import RedB.Ddl.Descriptors
import RedB.Ddl.ForeignKeys
import RedB.Dml.Grant
import RedB.Storage.Copy

/-!
# ALTER TABLE ADD INDEX, step by step

`vm::add_index` flags the columns of the key in the loop that looks for them, and changes the list of
the indexes before it fills the new index with the rows of the table. Nothing is taken back when
something is thrown on the way.

So a statement that throws has no effect if and only if it is denied, or if it names a column that there
is not and all columns that it names before it have the flags already (`addIndex_right_iff`).
-/

namespace RedB.Ddl

open Runs Buffer

/-! ### Tables in memory -/

/-- A table with its schema, and what `tree` has of it in memory and on the disk. -/
structure Table where
  schema : Schema
  /-- `m_block_cache->m_cache` -/
  cache : ℤ → Option Block
  /-- `m_block_cache->m_flush_list` -/
  flushList : List ℤ
  /-- The blocks of the file. -/
  disk : ℤ → Option Block
  /-- `m_node` -/
  node : ℤ → Option Node
  /-- The offsets in `m_data`. -/
  data : ℤ → Bool

/-- What the statement throws. -/
inductive Thrown where
  /-- `ERRNO_ACCESS_DENIED` -/
  | accessDenied
  | schema (e : Err)
  | tree (e : RedB.Err)
  | row (e : Fault)
  /-- `ERRNO_SAVE_SCH_ERROR` -/
  | saveSchema
  /-- The answer cannot be sent. -/
  | send

/-- An exception, not the end of what the model follows: a null pointer, a key that does not fit its
slot, or a loop that goes on. -/
def Thrown.isException : Thrown → Bool
  | .tree .nullPtr | .tree .overrun | .tree .hang | .tree .fuel => false
  | _ => true

/-- A step of the statement. -/
abbrev TableM := EStateM Thrown Table

/-- What the statement depends on besides the table. -/
structure Session where
  arith : Dml.Arith
  acl : Dml.Acl
  who : Dml.Account
  /-- What there was in the memory of new rows. -/
  memory : ℕ → ℕ
  /-- The schema can be saved. -/
  saves : Bool
  /-- The answer can be sent. -/
  sends : Bool

/-- The type of a column, as `tree` tells types apart. -/
def Column.treeType (col : Column) : RedB.ColType :=
  match col.colType with
  | .float => .float
  | .int => .int
  | _ => .other

/-- What `tree` sees of a schema. -/
def Schema.toTree (sch : Schema) : RedB.Schema where
  header :=
    { indexCount := sch.header.indexCount, columnCount := sch.header.columnCount, rowCount := sch.header.rowCount,
      generation := sch.header.generation, nextOffset := sch.header.nextOffset, dataOffset := sch.header.dataOffset,
      dataRoot := sch.header.dataRoot, freeHead := sch.header.freeHead, freeTail := sch.header.freeTail }
  column := sch.column.map fun col => ⟨String.ofList col.name, col.treeType, col.size⟩
  index := sch.index.map fun ndx =>
    ⟨String.ofList ndx.name, ndx.order, ndx.keySize, ndx.root, ndx.colNameList.map String.ofList⟩

/-- What the members of `tree` that nodes are made of change in a schema: the places of blocks and the
roots of indexes. -/
def Schema.ofTree (sch : Schema) (s : RedB.Schema) : Schema :=
  { sch with
    header :=
      { sch.header with
        nextOffset := s.header.nextOffset
        dataOffset := s.header.dataOffset
        dataRoot := s.header.dataRoot
        freeHead := s.header.freeHead
        freeTail := s.header.freeTail }
    index := sch.index.map fun ndx => { ndx with root := ((s.getIndex (String.ofList ndx.name)).map RedB.Index.root).getD ndx.root } }

/-- A member of `tree`. -/
def onTree {α : Type} (x : M α) : TableM α := fun t =>
  match x ⟨t.schema.toTree, t.cache, t.flushList, t.disk, t.node, t.data⟩ with
  | .ok a s => .ok a ⟨t.schema.ofTree s.schema, s.cache, s.flushList, s.disk, s.node, s.data⟩
  | .error e s => .error (.tree e) ⟨t.schema.ofTree s.schema, s.cache, s.flushList, s.disk, s.node, s.data⟩

/-- A buffer is read, or rows are. -/
def ofExcept {ε α : Type} (f : ε → Thrown) : Except ε α → TableM α
  | .ok a => pure a
  | .error e => throw (f e)

/-! ### Rows of a table -/

/-- `iterator2` -/
structure RowIterator where
  /-- `m_position` -/
  position : ℤ
  /-- `m_offset` -/
  offset : ℤ
deriving DecidableEq

def ROW_HEAD_POS : ℤ := 20
def ROW_TAIL_POS : ℤ := 22

/-- The buffer of a block. -/
def blockBuffer (blk : Block) : Buffer := Buffer.make 32768 fun p => (blk.byteAt p).val

/-- `get_data(offset)->m_buffer` -/
def dataBlock (offset : ℤ) : M Block := do
  let d ← deref (← getData offset)
  buffer d

/-- `m_buffer.get_int16(p)` of a block. -/
def field (blk : Block) (p : ℤ) : TableM ℤ :=
  ofExcept .row <| match (do seek p; getInt16 : BufferM ℤ) (blockBuffer blk) with
    | .ok v _ => .ok v
    | .error e _ => .error e

/-- `tree::begin` -/
def beginRows : TableM RowIterator := do
  let t ← get
  if t.schema.header.dataRoot < 0 then pure ⟨-1, invalidSiblingRef⟩
  else do
    let blk ← onTree (dataBlock t.schema.header.dataRoot)
    let position ← field blk ROW_HEAD_POS
    pure ⟨position, t.schema.header.dataRoot⟩

/-- The end of the last row of a block. -/
def endOfRows (blk : Block) : TableM ℤ := do
  let position ← field blk ROW_TAIL_POS
  let size ← field blk (position + rowSizePos)
  pure (position + size)

/-- `tree::end` -/
def endRows : TableM RowIterator := do
  let t ← get
  if t.schema.header.dataRoot < 0 then pure ⟨-1, invalidSiblingRef⟩
  else do
    let blk ← onTree (dataBlock t.schema.header.dataOffset)
    let position ← endOfRows blk
    pure ⟨position, t.schema.header.dataOffset⟩

/-- `iterator2::operator++` -/
def RowIterator.next (it : RowIterator) : TableM RowIterator := do
  let blk ← onTree (dataBlock it.offset)
  let position ← field blk (it.position + rowNextPos)
  if position ≠ 0 then pure ⟨position, it.offset⟩
  else if blk.next = invalidSiblingRef then do
    let position ← endOfRows blk
    pure ⟨position, it.offset⟩
  else do
    let blk' ← onTree (dataBlock blk.next)
    let position ← field blk' ROW_HEAD_POS
    pure ⟨position, blk.next⟩

/-- `row::copy_row` -/
def copyRow : CopyM Unit := do
  onDst clear
  let size ← onSrc getInt16
  let s ← get
  onSrc (seek (s.src.index - 2))
  copyBytes size.toNat
  onDst trip

/-- `iterator2::operator*` -/
def RowIterator.row (memory : ℕ → ℕ) (it : RowIterator) : TableM Buffer := do
  let blk ← onTree (dataBlock it.offset)
  let t ← get
  ofExcept .row <| match (do onSrc (seek it.position); copyRow : CopyM Unit)
      ⟨Dml.makeRowBuffer (t.schema.column.map Column.toRow) memory, blockBuffer blk⟩ with
    | .ok _ s => .ok s.dst
    | .error e _ => .error e

/-- The parts of a key. -/
def keyParts (sch : Schema) : List Text → Buffer → Except Thrown Text
  | [], _ => pure []
  | name :: names, row =>
    match (columnPos sch.column name).bind fun i => sch.column[i]?.map fun col => (i, col) with
    | none => throw (.schema .columnError)
    | some (i, col) =>
      match Dml.valueAt sch.header.columnCount i row with
      | .error e _ => throw (.row e)
      | .ok value row => do
        let key ← keyParts sch names row
        pure (col.toRow.keyPart value ++ key)

/-- `row::make_key` -/
def rowKey (ndxName : Text) (row : Buffer) : TableM Text := do
  let t ← get
  ofExcept id <| match t.schema.getIndex ndxName with
    | .error e => .error (.schema e)
    | .ok ndx => keyParts t.schema ndx.colNameList row

/-- The bytes of a key. -/
def keyBytes (key : Text) : Key := key.map fun c => Fin.ofNat 256 c.toNat

/-- The loop of `tree::fill_index`. -/
def fillLoop (memory : ℕ → ℕ) (ndxName : Text) : ℕ → RowIterator → TableM Unit
  | 0, _ => throw (.tree .fuel)
  | fuel + 1, it => do
    let e ← endRows
    if it = e then pure ()
    else do
      let row ← it.row memory
      let key ← rowKey ndxName row
      onTree (insertElement fuel ⟨it.position, it.offset, String.ofList ndxName, keyBytes key⟩)
      let it ← it.next
      fillLoop memory ndxName fuel it

/-- `tree::fill_index` -/
def fillIndex (memory : ℕ → ℕ) (fuel : ℕ) (ndxName : Text) : TableM Unit := do
  let it ← beginRows
  fillLoop memory ndxName fuel it

/-! ### The statement -/

/-- `dbms::ALTER_PRIV` -/
def ALTER_PRIV : Text := "alter_priv".toList

/-- The user may alter the table. -/
def Session.mayAlter (w : Session) (sch : Schema) : Bool :=
  Dml.verifyPrivilege w.arith w.acl w.who ⟨sch.header.dbName, sch.header.tblName⟩ ALTER_PRIV

/-- The names of the columns are looked for, their sizes are added up, and the columns are flagged. -/
def flagColumns : List Text → ℕ → TableM ℕ
  | [], keySize => pure keySize
  | name :: names, keySize => do
    let t ← get
    match columnPos t.schema.column name with
    | none => throw (.schema .malformedColumnList)
    | some i => do
      set { t with schema := { t.schema with column := t.schema.column.modify i (Column.addFlag multipleFlag) } }
      flagColumns names (keySize + columnSize t.schema.column name)

/-- The new index is put behind the others, and counted. -/
def Schema.pushIndex (sch : Schema) (ndx : Index) : Schema :=
  { sch with index := sch.index ++ [ndx], header := { sch.header with indexCount := sch.header.indexCount + 1 } }

/-- `vm::add_index` -/
def Session.addIndex (w : Session) (fuel : ℕ) (colNameList : List Text) : TableM Unit := do
  let t ← get
  if !w.mayAlter t.schema then throw .accessDenied
  let keySize ← flagColumns colNameList 0
  let t ← get
  let ndxName := makeName NDX_ (t.schema.index.map Index.name)
  let ndx : Index := { flag := multipleFlag, order := order keySize, keySize, blockCount := 0, generation := 0, root := -1,
                       name := ndxName, colNameList }
  set { t with schema := t.schema.pushIndex ndx }
  fillIndex w.memory fuel ndxName
  if !w.saves then throw .saveSchema
  if !w.sends then throw .send

/-! ### What is left behind -/

/-- The flags of the columns, the list of the indexes with their count, and the blocks are as before. -/
structure Unchanged (t t' : Table) : Prop where
  flags : t'.schema.column.map Column.flag = t.schema.column.map Column.flag
  index : t'.schema.index = t.schema.index
  indexCount : t'.schema.header.indexCount = t.schema.header.indexCount
  cache : t'.cache = t.cache
  disk : t'.disk = t.disk

/-- A statement that throws has no effect, and one that succeeds leaves a right count. -/
def Right (t : Table) : EStateM.Result Thrown Table Unit → Prop
  | .ok _ t' => t'.schema.header.indexCount = t'.schema.index.length
  | .error e t' => e.isException → Unchanged t t'

/-- The column of this name has the flags of an index already. -/
def flagged (columns : List Column) (name : Text) : Bool :=
  ((columnPos columns name).bind fun i => columns[i]?).any fun col => col.flag ||| multipleFlag = col.flag

/-- A name is not that of a column, and the columns of all names before it have the flags already. -/
def Harmless (columns : List Column) (colNameList : List Text) : Prop :=
  ¬colNameList.all (hasColumn columns) ∧ ∀ name ∈ colNameList.takeWhile (hasColumn columns), flagged columns name

/-- The table with the new index, before it is filled. -/
def Table.withIndex (t : Table) (colNameList : List Text) : Table := { t with schema := t.schema.addIndex colNameList }

/-- The new index can be filled, saved and reported, and the count has been right. An error that is no
exception is where the code is not followed any further; nothing is said about that. -/
def Session.Completes (w : Session) (fuel : ℕ) (colNameList : List Text) (t : Table) : Prop :=
  colNameList.all (hasColumn t.schema.column) ∧
    match fillIndex w.memory fuel (makeName NDX_ (t.schema.index.map Index.name)) (t.withIndex colNameList) with
    | .ok _ _ => w.saves ∧ w.sends ∧ t.schema.header.indexCount = t.schema.index.length
    | .error e _ => e.isException = false

/-! ### Indexes and their count -/

/-- There are `n` indexes, and the header counts `k`. -/
def Table.Counts (n k : ℕ) (t : Table) : Prop := t.schema.index.length = n ∧ t.schema.header.indexCount = k

section Counts

variable {n k : ℕ} {α : Type}

theorem keeps_onTree (x : M α) : Keeps (Table.Counts n k) (onTree x) := by
  rintro t ⟨hn, hk⟩
  have hlen (s : RedB.Schema) : (t.schema.ofTree s).index.length = n := (List.length_map _).trans hn
  rw [onTree]
  split
  · exact ⟨hlen _, hk⟩
  · exact ⟨hlen _, hk⟩

theorem keeps_ofExcept {ε : Type} (f : ε → Thrown) (r : Except ε α) : Keeps (Table.Counts n k) (ofExcept f r) := by
  cases r with
  | ok a => exact keeps_pure a
  | error e => exact keeps_throw (f e)

theorem keeps_field (blk : Block) (p : ℤ) : Keeps (Table.Counts n k) (field blk p) := keeps_ofExcept _ _

theorem keeps_endOfRows (blk : Block) : Keeps (Table.Counts n k) (endOfRows blk) :=
  (keeps_field _ _).bind fun _ => (keeps_field _ _).bind fun _ => keeps_pure _

theorem keeps_beginRows : Keeps (Table.Counts n k) beginRows := by
  refine keeps_get_bind fun t ht => ?_
  refine Keeps.ite (keeps_pure _) ?_ t ht
  exact (keeps_onTree _).bind fun _ => (keeps_field _ _).bind fun _ => keeps_pure _

theorem keeps_endRows : Keeps (Table.Counts n k) endRows := by
  refine keeps_get_bind fun t ht => ?_
  refine Keeps.ite (keeps_pure _) ?_ t ht
  exact (keeps_onTree _).bind fun blk => (keeps_endOfRows blk).bind fun _ => keeps_pure _

theorem keeps_next (it : RowIterator) : Keeps (Table.Counts n k) it.next := by
  refine (keeps_onTree _).bind fun blk => (keeps_field _ _).bind fun position => ?_
  refine Keeps.ite (keeps_pure _) (Keeps.ite ?_ ?_)
  · exact (keeps_endOfRows blk).bind fun _ => keeps_pure _
  · exact (keeps_onTree _).bind fun _ => (keeps_field _ _).bind fun _ => keeps_pure _

theorem keeps_row (memory : ℕ → ℕ) (it : RowIterator) : Keeps (Table.Counts n k) (it.row memory) :=
  (keeps_onTree _).bind fun _ => keeps_get_bind fun t ht => keeps_ofExcept _ _ t ht

theorem keeps_rowKey (ndxName : Text) (row : Buffer) : Keeps (Table.Counts n k) (rowKey ndxName row) :=
  keeps_get_bind fun t ht => keeps_ofExcept _ _ t ht

/-- A row is put into the index. -/
theorem keeps_fillLoop (memory : ℕ → ℕ) (ndxName : Text) (fuel : ℕ) (it : RowIterator) :
    Keeps (Table.Counts n k) (fillLoop memory ndxName fuel it) := by
  induction fuel generalizing it with
  | zero => exact keeps_throw _
  | succ fuel ih =>
    refine keeps_endRows.bind fun e => Keeps.ite (keeps_pure _) ?_
    refine (keeps_row memory it).bind fun row => (keeps_rowKey ndxName row).bind fun key => ?_
    exact (keeps_onTree _).bind fun _ => (keeps_next it).bind fun it' => ih it'

theorem keeps_fillIndex (memory : ℕ → ℕ) (fuel : ℕ) (ndxName : Text) : Keeps (Table.Counts n k) (fillIndex memory fuel ndxName) :=
  keeps_beginRows.bind fun it => keeps_fillLoop memory ndxName fuel it

end Counts

/-! ### The loop over the names -/

/-- The columns that some names flag. -/
def flagAll (colNameList : List Text) (columns : List Column) : List Column :=
  colNameList.foldl (fun columns name => flagColumn multipleFlag name columns) columns

/-- The table with other columns. -/
def Table.setColumns (t : Table) (columns : List Column) : Table := { t with schema := { t.schema with column := columns } }

@[simp] theorem Table.setColumns_column (t : Table) (columns : List Column) : (t.setColumns columns).schema.column = columns := rfl

@[simp] theorem Table.setColumns_setColumns (t : Table) (columns columns' : List Column) :
    (t.setColumns columns).setColumns columns' = t.setColumns columns' := rfl

theorem flagColumns_cons {t : Table} {name : Text} (h : hasColumn t.schema.column name = true) (names : List Text) (keySize : ℕ) :
    flagColumns (name :: names) keySize t =
      flagColumns names (keySize + columnSize t.schema.column name) (t.setColumns (flagColumn multipleFlag name t.schema.column)) := by
  obtain ⟨i, hi⟩ := hasColumn_iff.mp h
  rw [flagColumns, get_bind, flagColumn, hi]
  rfl

theorem flagColumns_unknown {t : Table} {name : Text} (h : hasColumn t.schema.column name = false) (names : List Text) (keySize : ℕ) :
    flagColumns (name :: names) keySize t = .error (.schema .malformedColumnList) t := by
  have hnone : columnPos t.schema.column name = none := by
    cases hpos : columnPos t.schema.column name with
    | none => rfl
    | some i => exact absurd (hasColumn_iff.mpr ⟨i, hpos⟩) (Bool.eq_false_iff.mp h)
  rw [flagColumns, get_bind, hnone]
  rfl

/-- The columns have the same names and sizes when one of them has been flagged. -/
theorem flagColumn_same (name : Text) (columns : List Column) :
    hasColumn (flagColumn multipleFlag name columns) = hasColumn columns ∧
      columnSize (flagColumn multipleFlag name columns) = columnSize columns :=
  ⟨hasColumn_of_shape (shape_flagColumn ..), columnSize_of_shape (shape_flagColumn ..)⟩

/-- All names are found. -/
theorem flagColumns_ok {names : List Text} {t : Table} (h : ∀ name ∈ names, hasColumn t.schema.column name = true) (keySize : ℕ) :
    flagColumns names keySize t =
      .ok (keySize + (names.map (columnSize t.schema.column)).sum) (t.setColumns (flagAll names t.schema.column)) := by
  induction names generalizing t keySize with
  | nil => rfl
  | cons name names ih =>
    obtain ⟨hhas, hsize⟩ := flagColumn_same name t.schema.column
    have hnames : ∀ n ∈ names, hasColumn (flagColumn multipleFlag name t.schema.column) n = true := fun n hn =>
      (congrFun hhas n).trans (h n (List.mem_cons_of_mem _ hn))
    rw [flagColumns_cons (h name List.mem_cons_self), ih hnames, Table.setColumns_setColumns, Table.setColumns_column, hsize, List.map_cons,
      List.sum_cons, Nat.add_assoc]
    rfl

/-- The columns of all names before the first unknown one have been flagged. -/
theorem flagColumns_error {names : List Text} {t : Table} (h : ¬names.all (hasColumn t.schema.column)) (keySize : ℕ) :
    flagColumns names keySize t =
      .error (.schema .malformedColumnList) (t.setColumns (flagAll (names.takeWhile (hasColumn t.schema.column)) t.schema.column)) := by
  induction names generalizing t keySize with
  | nil => exact absurd rfl h
  | cons name names ih =>
    cases hname : hasColumn t.schema.column name with
    | false =>
      rw [flagColumns_unknown hname, List.takeWhile_cons_of_neg (Bool.eq_false_iff.mp hname)]
      rfl
    | true =>
      obtain ⟨hhas, -⟩ := flagColumn_same name t.schema.column
      have hnames : ¬names.all (hasColumn (flagColumn multipleFlag name t.schema.column)) := by
        rw [hhas]
        rwa [List.all_cons, hname, Bool.true_and] at h
      rw [flagColumns_cons hname, ih hnames, Table.setColumns_setColumns, Table.setColumns_column, hhas, List.takeWhile_cons_of_pos hname]
      rfl

/-! ### Flags that are there already -/

theorem flagged_iff {columns : List Column} {name : Text} (h : hasColumn columns name = true) :
    flagged columns name ↔ ∀ i col, columnPos columns name = some i → columns[i]? = some col → col.flag ||| multipleFlag = col.flag := by
  obtain ⟨i, hi⟩ := hasColumn_iff.mp h
  obtain ⟨hlt, -⟩ := List.findIdx?_eq_some_iff_getElem.mp hi
  rw [flagged, hi, Option.bind_some, List.getElem?_eq_getElem hlt]
  simp only [Option.any_some, decide_eq_true_eq, Option.some.injEq]
  constructor
  · rintro hcol j col rfl hj
    rw [List.getElem?_eq_getElem hlt] at hj
    obtain rfl := Option.some.inj hj
    exact hcol
  · intro hall
    exact hall i _ rfl (List.getElem?_eq_getElem hlt)

/-- Some names flag nothing if their columns have the flags. -/
theorem flagAll_same_iff {names : List Text} {columns : List Column} (h : ∀ name ∈ names, hasColumn columns name = true) :
    (flagAll names columns).map Column.flag = columns.map Column.flag ↔ ∀ name ∈ names, flagged columns name := by
  rw [flagAll, flagColumns_eq]
  constructor
  · intro heq name hm
    refine (flagged_iff (h name hm)).mpr fun i col hi hcol => ?_
    have hplace : i ∈ places columns names := List.mem_filterMap.mpr ⟨name, hm, hi⟩
    have hat := congrArg (fun l => l[i]?) heq
    simp only [List.getElem?_map, getElem?_flagAt, hcol, Option.map_some, hplace, decide_true, if_true, Option.some.injEq] at hat
    exact hat
  · intro hall
    refine List.ext_getElem? fun i => ?_
    rw [List.getElem?_map, List.getElem?_map, getElem?_flagAt, Option.map_map]
    refine Option.map_congr fun col hcol => ?_
    rw [Function.comp_apply]
    split
    · obtain ⟨name, hm, hi⟩ := List.mem_filterMap.mp (of_decide_eq_true ‹_›)
      exact (flagged_iff (h name hm)).mp (hall name hm) i col hi hcol
    · rfl

/-! ### The statement as a whole -/

variable {w : Session} {fuel : ℕ} {colNameList : List Text} {t : Table}

theorem addIndex_denied (h : w.mayAlter t.schema = false) : w.addIndex fuel colNameList t = .error .accessDenied t := by
  rw [Session.addIndex, get_bind, h]
  rfl

theorem addIndex_unknown (h : w.mayAlter t.schema = true) (hnames : ¬colNameList.all (hasColumn t.schema.column)) :
    w.addIndex fuel colNameList t = .error (.schema .malformedColumnList)
      (t.setColumns (flagAll (colNameList.takeWhile (hasColumn t.schema.column)) t.schema.column)) := by
  rw [Session.addIndex, get_bind, h]
  exact bind_throw (flagColumns_error hnames 0)

/-- What is done with the new index. -/
def Session.fillNew (w : Session) (fuel : ℕ) (ndxName : Text) : TableM Unit := do
  fillIndex w.memory fuel ndxName
  if !w.saves then throw .saveSchema
  if !w.sends then throw .send

theorem addIndex_known (h : w.mayAlter t.schema = true) (hnames : colNameList.all (hasColumn t.schema.column)) :
    w.addIndex fuel colNameList t =
      w.fillNew fuel (makeName NDX_ (t.schema.index.map Index.name)) (t.withIndex colNameList) := by
  rw [Session.addIndex, get_bind, h]
  refine (bind_run (flagColumns_ok (fun name hm => List.all_eq_true.mp hnames name hm) 0)).trans ?_
  rw [get_bind, Nat.zero_add]
  rfl

/-- Once the new index is in the list, nothing that is thrown leaves the table as it was. -/
theorem not_unchanged {t' : Table} (h : t'.Counts (t.schema.index.length + 1) (t.schema.header.indexCount + 1)) : ¬Unchanged t t' :=
  fun hsame => Nat.succ_ne_self _ (h.1.symm.trans (congrArg List.length hsame.index))

theorem fillNew_right_iff {ndxName : Text} : Right t (w.fillNew fuel ndxName (t.withIndex colNameList)) ↔
    match fillIndex w.memory fuel ndxName (t.withIndex colNameList) with
    | .ok _ _ => w.saves ∧ w.sends ∧ t.schema.header.indexCount = t.schema.index.length
    | .error e _ => e.isException = false := by
  have hcounts : (t.withIndex colNameList).Counts (t.schema.index.length + 1) (t.schema.header.indexCount + 1) :=
    ⟨List.length_append, rfl⟩
  have hfinal := keeps_fillIndex w.memory fuel ndxName _ hcounts
  cases hfill : fillIndex w.memory fuel ndxName (t.withIndex colNameList) with
  | error e t' =>
    rw [hfill] at hfinal
    rw [Session.fillNew, bind_throw hfill]
    exact ⟨fun h => Bool.eq_false_iff.mpr fun he => not_unchanged hfinal (h he), fun h he => absurd he (Bool.eq_false_iff.mp h)⟩
  | ok a t' =>
    rw [hfill] at hfinal
    rw [Session.fillNew, bind_run hfill]
    cases hsaves : w.saves with
    | false => exact ⟨fun h => absurd (h rfl) (not_unchanged hfinal), fun h => absurd h.1 Bool.false_ne_true⟩
    | true =>
      cases hsends : w.sends with
      | false => exact ⟨fun h => absurd (h rfl) (not_unchanged hfinal), fun h => absurd h.2.1 Bool.false_ne_true⟩
      | true =>
        obtain ⟨hlen, hcount⟩ : t'.Counts _ _ := hfinal
        show t'.schema.header.indexCount = t'.schema.index.length ↔ _
        rw [hlen, hcount, Nat.succ_inj]
        exact ⟨fun h => ⟨rfl, rfl, h⟩, fun h => h.2.2⟩

/-- A statement that throws has no effect if and only if it is denied or there is nothing to flag before
the first name that is not that of a column; otherwise nothing may be thrown. -/
theorem addIndex_right_iff (w : Session) (fuel : ℕ) (colNameList : List Text) (t : Table) : Right t (w.addIndex fuel colNameList t) ↔
    w.mayAlter t.schema = false ∨ Harmless t.schema.column colNameList ∨ w.Completes fuel colNameList t := by
  cases hacl : w.mayAlter t.schema with
  | false =>
    rw [addIndex_denied hacl]
    exact ⟨fun _ => Or.inl rfl, fun _ _ => ⟨rfl, rfl, rfl, rfl, rfl⟩⟩
  | true =>
    rw [or_iff_right (Bool.eq_false_iff.not_left.mpr rfl)]
    by_cases hnames : colNameList.all (hasColumn t.schema.column)
    · rw [addIndex_known hacl hnames, fillNew_right_iff, or_iff_right fun h => h.1 hnames]
      exact ⟨fun h => ⟨hnames, h⟩, fun h => h.2⟩
    · have htake : ∀ name ∈ colNameList.takeWhile (hasColumn t.schema.column), hasColumn t.schema.column name = true :=
        List.all_eq_true.mp List.all_takeWhile
      rw [addIndex_unknown hacl hnames, or_iff_left fun h => hnames h.1]
      constructor
      · intro h
        exact ⟨hnames, (flagAll_same_iff htake).mp (h rfl).flags⟩
      · rintro ⟨-, hflags⟩ -
        exact ⟨(flagAll_same_iff htake).mpr hflags, rfl, rfl, rfl, rfl⟩

/-! ### `ALTER TABLE d.c ADD INDEX (a, z)` -/

/-- The table `d.c` of one column `a`, without rows. -/
def tableA : Table where
  schema := (oneColumn ['a']).toSchema tableC
  cache _ := none
  flushList := []
  disk _ := none
  node _ := none
  data _ := false

/-- The session of an account that may do everything. -/
def rootAlters : Session where
  arith := Dml.wholeNumbers
  acl := Dml.oneScope
  who := Dml.rootSession.who
  memory _ := 0
  saves := true
  sends := true

/-- The column `a` keeps the flags of the index that has not been made. -/
theorem addIndex_flags_kept : ¬∀ (w : Session) (fuel : ℕ) (colNameList : List Text) (t : Table), Right t (w.addIndex fuel colNameList t) := by
  intro h
  have hacl : rootAlters.mayAlter tableA.schema = true := by decide +kernel
  have hright := h rootAlters 1 [['a'], ['z']] tableA
  rw [addIndex_unknown hacl (by decide)] at hright
  exact absurd (hright rfl).flags (by decide)

end RedB.Ddl
