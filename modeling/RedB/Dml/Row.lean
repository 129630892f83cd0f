import RedB.Vm.Expr
import Mathlib.Algebra.GroupWithZero.Nat
import Mathlib.Data.List.Basic

/-!
# Rows

A row is a buffer: the sizes of its columns, a byte each, and behind them the values, one
after the other. A value is appended to the end of the buffer whatever column it is for, so
rows are made column by column.

Columns check the values that are appended and change them: a number is written anew, with
leading zeros in a column of a key; an auto-increment column takes the value of its counter.
Floating point numbers and the calendar are parameters.
-/

namespace RedB.Dml

open RedB.Tran (lower)

/-- The comparisons. -/
inductive Cmp where
  | eq | ge | gt | le | lt | ne
deriving DecidableEq, Repr

/-- The types of columns. -/
inductive ColType where
  | boolean | char | binary | date | datetime | enum | float | int | timestamp | varchar
deriving DecidableEq, Repr

/-- What rows and conditions use of floating point numbers and of the calendar. -/
structure Arith extends Vm.Floats where
  add : F → F → F
  sub : F → F → F
  mul : F → F → F
  div : F → F → F
  cmp : Cmp → F → F → Bool
  isZero : F → Bool
  /-- `std::stof`, if it has read all of the text. -/
  stofAll : Text → Option F
  /-- `operator<<` -/
  put : F → Text
  /-- `std::to_string` -/
  toString : F → Text
  /-- `std::fixed << std::setprecision(prec)` -/
  fixed : ℕ → F → Text
  /-- `row::is_date_valid`, `row::is_datetime_valid` and `row::is_timestamp_valid` -/
  isDate : ColType → Text → Bool
  /-- There is no number in an empty text. -/
  stof_nil : stof [] = none

/-- A column of a table. -/
structure Column where
  name : Text
  type : ColType
  size : ℕ
  prec : ℕ
  enumList : List Text
  /-- `FLAG_AUTO_INC` -/
  isAutoInc : Bool
  /-- `FLAG_NOT_NULL` -/
  isNotNull : Bool
  /-- `FLAG_PRIMARY` -/
  isPrimary : Bool
  /-- `FLAG_UNIQUE` -/
  isUnique : Bool
  /-- `m_auto_inc` -/
  autoInc : ℤ
deriving DecidableEq, Repr

/-- `std::setfill(c) << std::setw(n)`, to the right. -/
def padLeft (n : ℕ) (c : Char) (text : Text) : Text := List.replicate (n - text.length) c ++ text

/-- `std::left << std::setfill(c) << std::setw(n)` -/
def padRight (n : ℕ) (c : Char) (text : Text) : Text := text ++ List.replicate (n - text.length) c

theorem length_padLeft (n : ℕ) (c : Char) (text : Text) : (padLeft n c text).length = max n text.length := by
  rw [padLeft, List.length_append, List.length_replicate]
  omega

theorem length_padRight (n : ℕ) (c : Char) (text : Text) : (padRight n c text).length = max n text.length := by
  rw [padRight, List.length_append, List.length_replicate]
  omega

theorem length_padLeft_eq {n : ℕ} {c : Char} {text : Text} (h : text.length ≤ n) : (padLeft n c text).length = n := by
  rw [length_padLeft, max_eq_left h]

theorem length_padRight_eq {n : ℕ} {c : Char} {text : Text} (h : text.length ≤ n) : (padRight n c text).length = n := by
  rw [length_padRight, max_eq_left h]

/-- `row::not_null_compliant` -/
def Column.notNullCompliant (col : Column) (value : Text) : Bool :=
  col.isAutoInc || !col.isNotNull || lower value ≠ "null".toList

variable (A : Arith)

/-- `row::is_valid`, for a column that there is. -/
def Column.isValid (col : Column) (value : Text) : Bool :=
  if !col.notNullCompliant value then false
  else if lower value = "null".toList then true
  else if value.length > col.size then false
  else
    match col.type with
    | .boolean => value = ['0'] || value = ['1']
    | .char | .binary | .varchar => true
    | .enum => col.enumList.contains value
    | .date | .datetime | .timestamp => A.isDate col.type value
    | .float => (A.stof value).isSome
    | .int => (stoi value).isSome

/-- The value that is put into the row for a value that is not null, nothing if a number is
wanted and there is none. -/
def Column.format (col : Column) (value : Text) : Option Text :=
  if col.isAutoInc then
    match col.type with
    | .float | .int => some (padLeft col.size '0' (intToText col.autoInc))
    | _ => some value
  else if col.isPrimary || col.isUnique then
    match col.type with
    | .float => (A.stof value).map fun x => padLeft col.size '0' (A.fixed col.prec x)
    | .int => (stoi value).map fun z => padLeft col.size '0' (intToText z)
    | _ => some value
  else
    match col.type with
    | .float => some (((A.stof value).map (A.fixed col.prec)).getD [])
    | .int => some (((stoi value).map intToText).getD [])
    | .boolean =>
        if lower value = "true".toList then some ['1']
        else if lower value = "false".toList then some ['0']
        else some []
    | _ => some value

/-- Whether `row::append` takes the value. -/
def Column.accepts (col : Column) (value : Text) : Bool := col.isValid A value && value.length ≤ col.size

/-- What `row::append` makes of a value that it takes. -/
def Column.store (col : Column) (value : Text) : Option Text := col.format A (if value = "null".toList then [] else value)

/-- The column behind an append. -/
def Column.next (col : Column) : Column := if col.isAutoInc then { col with autoInc := col.autoInc + 1 } else col

/-- A row. -/
structure Row where
  /-- The column sizes. -/
  sizes : List ℕ
  /-- The values, up to the size of the row. -/
  data : Text
deriving DecidableEq, Repr

/-- A row of `n` columns, without values. -/
def Row.empty (n : ℕ) : Row := { sizes := List.replicate n 0, data := [] }

/-- `row::clear`: the column sizes stay. -/
def Row.clear (r : Row) : Row := { r with data := [] }

/-- `row::value_at` -/
def Row.valueAt (r : Row) (n : ℕ) : Text := (r.data.drop (r.sizes.take n).sum).take (r.sizes.getD n 0)

/-- A value at the end of the buffer, and its size. -/
def Row.put (r : Row) (i : ℕ) (value : Text) : Row := { sizes := r.sizes.set i (value.length % 256), data := r.data ++ value }

/-- The values of all columns. -/
def Row.values (r : Row) : List Text := (List.range r.sizes.length).map r.valueAt

/-- The capacity of a row of a table, without the header and the sizes. -/
def capacity (columns : List Column) : ℕ := (columns.map Column.size).sum

/-- `schema::column_pos` -/
def columnPos (columns : List Column) (name : Text) : Option ℕ := columns.findIdx? fun col => col.name = name

/-- A value in a key. -/
def Column.keyPart (col : Column) (value : Text) : Text :=
  match col.type with
  | .float | .int => padLeft col.size '0' value
  | _ => padRight col.size ' ' value

/-- A key of these columns, if they are columns of the table: `row::make_key` of an index, which is made
of such columns. -/
def makeKey (columns : List Column) (colNameList : List Text) (r : Row) : Text :=
  colNameList.flatMap fun name =>
    match columnPos columns name with
    | some i => (columns[i]?.map fun col => col.keyPart (r.valueAt i)).getD []
    | none => []

/-- `row::make_key` and `row::make_foreign_key`: nothing if a column is not there, where
`schema::column_pos` throws. -/
def makeKey? (columns : List Column) (r : Row) : List Text → Option Text
  | [] => some []
  | name :: names => do
      let i ← columnPos columns name
      let col ← columns[i]?
      let key ← makeKey? columns r names
      some (col.keyPart (r.valueAt i) ++ key)

/-- The key is there if and only if all columns are. -/
theorem makeKey?_eq_some {columns : List Column} {names : List Text} {r : Row} {key : Text} :
    makeKey? columns r names = some key ↔ (∀ name ∈ names, (columnPos columns name).isSome) ∧ key = makeKey columns names r := by
  induction names generalizing key with
  | nil =>
    rw [makeKey?, Option.some.injEq]
    exact ⟨fun h => ⟨fun _ hm => absurd hm List.not_mem_nil, h.symm⟩, fun h => h.2.symm⟩
  | cons name names ih =>
    cases hi : columnPos columns name with
    | none => simp [makeKey?, hi]
    | some i =>
      obtain ⟨hlt, -⟩ := List.findIdx?_eq_some_iff_getElem.mp hi
      have hcol := List.getElem?_eq_getElem hlt
      have hmake : makeKey columns (name :: names) r = columns[i].keyPart (r.valueAt i) ++ makeKey columns names r := by
        simp only [makeKey, List.flatMap_cons, hi, hcol, Option.map_some, Option.getD_some]
      rw [makeKey?, hi, Option.bind_eq_bind, Option.bind_some, hcol, Option.bind_eq_bind, Option.bind_some,
        Option.bind_eq_bind, Option.bind_eq_some_iff, List.forall_mem_cons, hi, hmake]
      constructor
      · rintro ⟨key', hkey, h⟩
        obtain rfl := Option.some.inj h
        obtain ⟨hall, rfl⟩ := ih.mp hkey
        exact ⟨⟨rfl, hall⟩, rfl⟩
      · rintro ⟨⟨-, hall⟩, rfl⟩
        exact ⟨_, ih.mpr ⟨hall, rfl⟩, rfl⟩

end RedB.Dml
