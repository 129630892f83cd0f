import RedB.Dml.Row
import Mathlib.Data.List.Nodup
import Mathlib.Data.List.Perm.Subperm

/-!
# Schemas

A schema has a header, columns, indexes and foreign keys. Columns are found by their names,
and so are indexes and foreign keys, whose names are made of a prefix and a number. A column
knows the foreign keys that refer to it.
-/

namespace RedB.Ddl

open Dml (padLeft)

/-- `PK_NDX` -/
def PK_NDX : Text := "NDX_000".toList

/-- `NDX_` -/
def NDX_ : Text := "NDX_".toList

/-- `FGN_` -/
def FGN_ : Text := "FGN_".toList

/-- `REF_` -/
def REF_ : Text := "REF_".toList

/-! ### Flags and types of columns -/

def FLAG_AUTO_INC : ℕ := 0x1
def FLAG_NOT_NULL : ℕ := 0x4
def FLAG_PRIMARY : ℕ := 0x8
def FLAG_UNIQUE : ℕ := 0x10
def FLAG_MULTIPLE : ℕ := 0x80

def TYPE_CHAR : ℕ := 2
def TYPE_BINARY : ℕ := 3
def TYPE_DATE : ℕ := 4
def TYPE_DATETIME : ℕ := 5
def TYPE_ENUM : ℕ := 6
def TYPE_FLOAT : ℕ := 7
def TYPE_INT : ℕ := 9
def TYPE_TIMESTAMP : ℕ := 12
def TYPE_VARCHAR : ℕ := 13

/-- `(flag & f) == f` -/
def hasFlag (flag f : ℕ) : Bool := flag &&& f = f

/-! ### Parts of a schema -/

/-- `schema::reference` -/
structure Reference where
  name : Text
  dbName : Text
  tblName : Text
  fgnName : Text
deriving DecidableEq, Repr

/-- `schema::column` -/
structure Column where
  flag : ℕ
  prec : ℕ
  size : ℕ
  type : ℕ
  maxSize : ℕ
  autoInc : ℕ
  name : Text
  enumList : List Text
  referenceList : List Reference
deriving DecidableEq, Repr

/-- `schema::index` -/
structure Index where
  flag : ℕ
  order : ℕ
  keySize : ℕ
  blockCount : ℤ
  generation : ℤ
  root : ℤ
  name : Text
  colNameList : List Text
deriving DecidableEq, Repr

/-- `schema::foreign` -/
structure Foreign where
  name : Text
  dbName : Text
  tblName : Text
  colNameList : List Text
deriving DecidableEq, Repr

/-- `schema::header` -/
structure Header where
  dbName : Text
  tblName : Text
  flag : ℕ
  blockSize : ℤ
  indexCount : ℕ
  foreignCount : ℕ
  columnCount : ℕ
  blockCount : ℤ
  rowCount : ℤ
  generation : ℤ
  nextOffset : ℤ
  dataOffset : ℤ
  dataRoot : ℤ
  freeHead : ℤ
  freeTail : ℤ
deriving DecidableEq, Repr

/-- `schema::schema` -/
structure Schema where
  header : Header
  column : List Column
  index : List Index
  foreign : List Foreign
deriving DecidableEq, Repr

/-- `work_schema`: what CREATE TABLE makes a schema of. -/
structure WorkSchema where
  column : List Column
  index : List Index
  foreign : List Foreign
deriving DecidableEq, Repr

/-- What statements about schemas throw. -/
inductive Err where
  | malformedForeignKey
  | malformedPrimaryKey
  | malformedUniqueKey
  | multiplePrimaryKey
  | malformedColumnList
  | malformedReference
  | malformedTableRef
  | dropPrimaryKey
  | createTableError
  | dbmsError
  | columnError
  | foreignError
  | indexError
  /-- A place outside of a vector. -/
  | undefined
deriving DecidableEq, Repr

/-! ### Search by name -/

/-- `schema::column_pos` and `schema::get_column`, with the place of the column. -/
def columnPos (columns : List Column) (name : Text) : Option ℕ := columns.findIdx? fun col => col.name = name

/-- `schema::get_index` -/
def Schema.getIndex (sch : Schema) (name : Text) : Except Err Index :=
  match sch.index.find? fun ndx => ndx.name = name with
  | some ndx => pure ndx
  | none => throw .indexError

/-- `schema::get_foreign` -/
def Schema.getForeign (sch : Schema) (name : Text) : Except Err Foreign :=
  match sch.foreign.find? fun fgn => fgn.name = name with
  | some fgn => pure fgn
  | none => throw .foreignError

/-- There is a column with this name. -/
def hasColumn (columns : List Column) (name : Text) : Bool := columns.any fun col => col.name = name

/-! ### Columns of rows -/

/-- The type of a column. -/
def Column.colType (col : Column) : Dml.ColType :=
  match col.type with
  | 1 => .boolean
  | 2 => .char
  | 3 => .binary
  | 4 => .date
  | 5 => .datetime
  | 6 => .enum
  | 7 => .float
  | 9 => .int
  | 12 => .timestamp
  | _ => .varchar

/-- What rows use of a column. -/
def Column.toRow (col : Column) : Dml.Column where
  name := col.name
  type := col.colType
  size := col.size
  prec := col.prec
  enumList := col.enumList
  isAutoInc := hasFlag col.flag FLAG_AUTO_INC
  isNotNull := hasFlag col.flag FLAG_NOT_NULL
  isPrimary := hasFlag col.flag FLAG_PRIMARY
  isUnique := hasFlag col.flag FLAG_UNIQUE
  autoInc := col.autoInc

/-- The values of these columns of a row. -/
def keyOf (columns : List Column) (colNameList : List Text) (r : Dml.Row) : Except Err Text :=
  if colNameList.all (hasColumn columns) then pure (Dml.makeKey (columns.map Column.toRow) colNameList r) else throw .columnError

/-- `row::make_key` -/
def Schema.makeKey (sch : Schema) (name : Text) (r : Dml.Row) : Except Err Text := do
  let ndx ← sch.getIndex name
  keyOf sch.column ndx.colNameList r

/-- `row::make_foreign_key` -/
def Schema.makeForeignKey (sch : Schema) (name : Text) (r : Dml.Row) : Except Err Text := do
  let fgn ← sch.getForeign name
  keyOf sch.column fgn.colNameList r

/-! ### Names -/

/-- `prefix << std::setw(3) << std::setfill('0') << id` -/
def numbered (start : Text) (id : ℕ) : Text := start ++ padLeft 3 '0' (toText id)

/-- `schema::name::make`: the first numbered name that is not in the list. Among the names with
the numbers up to the length of the list there is one. -/
def makeName (start : Text) (names : List Text) : Text :=
  (((List.range (names.length + 1)).map (numbered start)).find? fun name => !names.contains name).getD []

/-- Leading zeros do not change a number. -/
theorem ofDigitChars_padLeft (n : ℕ) (text : Text) :
    Nat.ofDigitChars 10 (padLeft n '0' text) 0 = Nat.ofDigitChars 10 text 0 := by
  rw [padLeft]
  induction n - text.length with
  | zero => rfl
  | succ k ih => exact ih

theorem padLeft_toText_inj {n m k : ℕ} (h : padLeft k '0' (toText n) = padLeft k '0' (toText m)) : n = m := by
  have := congrArg (fun text => Nat.ofDigitChars 10 text 0) h
  simpa only [ofDigitChars_padLeft, toText, Nat.ofDigitChars_ten_toDigits] using this

theorem numbered_injective (start : Text) : Function.Injective (numbered start) := by
  intro n m h
  exact padLeft_toText_inj (List.append_cancel_left h)

/-- A name that has been made is a numbered one that is new. -/
theorem exists_makeName (start : Text) (names : List Text) : ∃ id, makeName start names = numbered start id ∧ makeName start names ∉ names := by
  rw [makeName]
  cases hf : ((List.range (names.length + 1)).map (numbered start)).find? fun name => !names.contains name with
  | some name =>
    obtain ⟨id, -, rfl⟩ := List.mem_map.mp (List.mem_of_find?_eq_some hf)
    exact ⟨id, rfl, by simpa using List.find?_some hf⟩
  | none =>
    -- all of more names than there are would be among them
    have hsub : (List.range (names.length + 1)).map (numbered start) ⊆ names := by
      intro name hm
      simpa using List.find?_eq_none.mp hf name hm
    have hnodup := List.Nodup.map (numbered_injective start) (List.nodup_range (n := names.length + 1))
    have hle := (hnodup.subperm hsub).length_le
    rw [List.length_map, List.length_range] at hle
    omega

theorem makeName_fresh (start : Text) (names : List Text) : makeName start names ∉ names := by
  obtain ⟨_, -, h⟩ := exists_makeName start names
  exact h

theorem prefix_makeName (start : Text) (names : List Text) : start <+: makeName start names := by
  obtain ⟨id, h, -⟩ := exists_makeName start names
  exact h ▸ List.prefix_append start _

/-! ### Lookups -/

theorem hasColumn_iff {columns : List Column} {name : Text} : hasColumn columns name = true ↔ ∃ i, columnPos columns name = some i := by
  rw [hasColumn, ← Option.isSome_iff_exists, columnPos, List.findIdx?_isSome]

theorem columnPos_lt {columns : List Column} {name : Text} {i : ℕ} (h : columnPos columns name = some i) : i < columns.length := by
  obtain ⟨hi, -⟩ := List.findIdx?_eq_some_iff_getElem.mp h
  exact hi

/-- Columns of the same names. -/
theorem columnPos_congr {columns columns' : List Column} (h : columns.map Column.name = columns'.map Column.name) (name : Text) :
    columnPos columns name = columnPos columns' name := by
  have hcol : ∀ columns : List Column, columnPos columns name = (columns.map Column.name).findIdx? fun n => n = name := by
    intro columns
    rw [List.findIdx?_map]
    rfl
  rw [hcol, hcol, h]

end RedB.Ddl
