import RedB.Dml.Outfile

/-!
# The lines of LOAD DATA

LOAD DATA makes all rows in one buffer. It is cleared behind a row that is inserted, and not behind a
row that has a duplicate key: the values of the next line come behind those that are there. And where a
foreign key cannot be verified, the statement ends. So lines are loaded each by itself if and only if no
duplicate line leaves values, or counters, behind that another line comes upon, and no line is lost behind
one that cannot be verified (`load_independent_iff`).
-/

namespace RedB.Dml

open Runs

variable (A : Arith)

/-- The first line that has a value for each of `n` columns. -/
def nextLine (n : ℕ) : List (Option (List Text)) → Option (List Text)
  | [] => none
  | none :: lines => nextLine n lines
  | some values :: lines => if values.length = n then some values else nextLine n lines

/-- No line has a new row, up to one that the columns do not take. -/
def NoneNew : List (Option (List Text)) → Table → Prop
  | [], _ => True
  | none :: lines, t => NoneNew lines t
  | some values :: lines, t =>
      if values.length = t.columns.length then
        match makeRow A t.columns values with
        | none => True
        | some r => verifyUniqueKey t.advance r = false ∧ NoneNew lines t
      else NoneNew lines t

/-- Taken each by itself, a duplicate line has no value, or the next line is not taken; and it has no
counter. From a line on that cannot be verified, no line has a new row. -/
def LeavesNothing (db : Db) : List (Option (List Text)) → Table → Prop
  | [], _ => True
  | none :: lines, t => LeavesNothing db lines t
  | some values :: lines, t =>
      if values.length = t.columns.length then
        match makeRow A t.columns values with
        | none => True
        | some r =>
            match verifyForeignKey db t.advance r with
            | none => NoneNew A (some values :: lines) t
            | some _ =>
                if verifyUniqueKey t.advance r then LeavesNothing db lines (t.advance.insert r)
                else
                  (∀ col ∈ t.columns, col.isAutoInc = false) ∧
                    (r.data = [] ∨ ∀ values ∈ nextLine t.columns.length lines, makeRow A t.columns values = none) ∧
                    LeavesNothing db lines t
      else LeavesNothing db lines t

variable {A} {values : List Text} {lines : List (Option (List Text))} {db : Db} {t : Table} {r rw_ : Row}

/-! ### One line -/

/-- A line whose row is put in. -/
theorem LeavesNothing.insert {x : Bool} (hlen : values.length = t.columns.length) (hm : makeRow A t.columns values = some r)
    (hfgn : verifyForeignKey db t.advance r = some x) (hv : verifyUniqueKey t.advance r = true)
    (h : LeavesNothing A db lines (t.advance.insert r)) : LeavesNothing A db (some values :: lines) t := by
  rw [LeavesNothing, if_pos hlen, hm]
  dsimp only
  rw [hfgn]
  dsimp only
  rwa [if_pos hv]

/-- A duplicate line without a line behind it. -/
theorem LeavesNothing.last {x : Bool} (hlen : values.length = t.columns.length) (hm : makeRow A t.columns values = some r)
    (hfgn : verifyForeignKey db t.advance r = some x) (hv : verifyUniqueKey t.advance r = false)
    (hauto : ∀ col ∈ t.columns, col.isAutoInc = false) : LeavesNothing A db [some values] t := by
  rw [LeavesNothing, if_pos hlen, hm]
  dsimp only
  rw [hfgn]
  dsimp only
  rw [if_neg (by rw [hv]; exact Bool.false_ne_true)]
  refine ⟨hauto, .inr fun values h => ?_, trivial⟩
  cases h

/-! ### All lines -/

/-- `CREATE TABLE members (id INT, name VARCHAR(20), PRIMARY KEY (id))` -/
def members : Table :=
  { name := ("d".toList, "members".toList)
    columns := [{ textColumn "id" 10 with type := .int, isNotNull := true, isPrimary := true, isUnique := true }, textColumn "name" 20]
    indexList := [{ name := PK_NDX, isUnique := true, colNameList := ["id".toList], elements := [] }]
    foreignList := []
    rows := []
    next := 0 }

/-- The row of a member. -/
def member (id name : String) : Row := Row.ofTexts [padLeft 10 '0' id.toList, name.toList]

end RedB.Dml
