import RedB.Tran.Shape

/-!
# Building expressions

The virtual machine keeps items on a stack. The instructions of an expression push items
for data records, literals and columns and put them together; what an operator pops first
is its left operand. A minus sign is no item of its own: it changes the item of a number or
marks the item of a column.

Floating point numbers are a parameter: how one is read, negated and written with two
decimals.
-/

namespace RedB.Vm

open RedB.Tran

/-- What the machine uses of floating point numbers. -/
structure Floats where
  /-- The numbers. -/
  F : Type
  /-- The negative of a number. -/
  neg : F → F
  /-- `std::stof`, nothing if it throws. -/
  stof : Text → Option F
  /-- `std::fixed << std::setprecision(2)` -/
  fixed2 : F → Text

/-- A table of the statement, of `m_tree_list`. -/
structure Table where
  dbName : Text
  tblName : Text
  tblAlias : Text
  /-- The columns of its schema: names and types. -/
  columns : List (Text × ℕ)
deriving DecidableEq, Repr

/-- What expressions are built in. -/
structure Env extends Floats where
  /-- The name of the database in use. -/
  dbName : Text
  /-- `m_tree_list` -/
  treeList : List Table
  /-- `m_data`: the type and the text of a record. -/
  data : ℕ → Option (ℕ × Text)

/-- `schema::TYPE_FLOAT` -/
def TYPE_FLOAT : ℕ := 7

/-- `schema::TYPE_INT` -/
def TYPE_INT : ℕ := 9

/-- `schema::TYPE_VARCHAR` -/
def TYPE_VARCHAR : ℕ := 13

/-- The type of a literal. -/
inductive Lit where
  | int
  | float
  | varchar
deriving DecidableEq, Repr

/-- An item on the stack. -/
inductive Item where
  /-- `TYPE_OFFSET`: a data record. -/
  | offset (index : ℕ)
  /-- `TYPE_INT`, `TYPE_FLOAT` or `TYPE_VARCHAR` with `m_value`. -/
  | literal (type : Lit) (value : Text)
  /-- `TYPE_COLUMN` with `m_parent`, `m_col_name` and `m_negate`. -/
  | column (parent : Table) (colName : Text) (negate : Bool)
  /-- An operator with `m_left` and `m_right`. -/
  | binary (op : Op) (left right : Item)
deriving DecidableEq, Repr

/-- The type of a column. -/
def Table.colType (t : Table) (colName : Text) : Option ℕ := (t.columns.find? fun col => col.1 = colName).map Prod.snd

variable (env : Env)

/-- The text of the record that an item stands for. -/
def Env.varchar : Item → Option Text
  | .offset index => (env.data index).map Prod.snd
  | _ => none

/-- `vm::make_expression` -/
def makeExpression : List Item → Option (List Item)
  | .offset index :: stack =>
      match env.data index with
      | some (type, value) =>
          if type = TYPE_INT then (stoi value).map fun _ => .literal .int value :: stack
          else if type = TYPE_FLOAT then (env.stof value).map fun _ => .literal .float value :: stack
          else if type = TYPE_VARCHAR then some (.literal .varchar value :: stack)
          else none
      | none => none
  | _ => none

/-- The column with these names, if there is one; names that are not given are empty. -/
def Env.column (dbName tblName colName : Text) : Option Item :=
  let dbName := if dbName = [] then env.dbName else dbName
  let table :=
    if dbName ≠ [] ∧ tblName ≠ [] then
      env.treeList.find? fun t => t.dbName = dbName && (t.tblName = tblName || t.tblAlias = tblName)
    else env.treeList.getLast?
  table.bind fun t => (t.colType colName).map fun _ => .column t colName false

/-- `vm::make_column_expression` -/
def makeColumnExpression : List Item → Option (List Item)
  | e1 :: e2 :: e3 :: stack => do
      let dbName ← env.varchar e1
      let tblName ← env.varchar e2
      let colName ← env.varchar e3
      let it ← env.column dbName tblName colName
      some (it :: stack)
  | _ => none

/-- What `vm::negate` makes of an item. -/
def Env.negate : Item → Option Item
  | .column parent colName _ =>
      if parent.colType colName = some TYPE_FLOAT ∨ parent.colType colName = some TYPE_INT then
        some (.column parent colName true)
      else none
  | .literal .float value => (env.stof value).map fun x => .literal .float (env.fixed2 (env.neg x))
  | .literal .int value => (stoi value).map fun z => .literal .int (intToText (-z))
  | _ => none

/-- `vm::add` and its like. -/
def binary (op : Op) : List Item → Option (List Item)
  | left :: right :: stack => some (.binary op left right :: stack)
  | _ => none

/-- An instruction of an expression; nothing if it throws or is none of an expression. -/
def step : Line → List Item → Option (List Item)
  | .pusho (some index) _, stack => some (.offset index :: stack)
  | .call op, stack =>
      match op with
      | .mkexpr => makeExpression env stack
      | .mkclmnexpr => makeColumnExpression env stack
      | .negate =>
          match stack with
          | it :: stack => (env.negate it).map (· :: stack)
          | [] => none
      | .mul | .div | .add | .sub | .cmpge | .cmpgt | .cmple | .cmplt | .cmpeq | .cmpne | .or | .and => binary op stack
      | _ => none
  | .nop, stack => some stack
  | _, _ => none

/-- Runs the instructions in this order. -/
def run : List Line → List Item → Option (List Item)
  | [], stack => some stack
  | line :: lines, stack => (step env line stack).bind (run lines)

/-- What the assembler makes of a data record: its type and the text, without quotation marks. -/
def record (tok : Token) : ℕ × Text :=
  (toSchemaType tok.type, match tok.text with
    | '"' :: text => text.dropLast
    | text => text)

/-! ### Syntax trees -/

/-- A syntax tree. The literals are what they say, and a sign is part of a literal or a column. -/
inductive Tree (F : Type) where
  | int (n : ℤ)
  | float (x : F)
  | varchar (text : Text)
  | column (parent : Table) (colName : Text) (negative : Bool)
  | binary (op : Op) (left right : Tree F)

/-- The tree of an item. -/
def Env.denote (env : Env) : Item → Option (Tree env.F)
  | .offset _ => none
  | .literal .int value => (stoi value).map .int
  | .literal .float value => (env.stof value).map .float
  | .literal .varchar value => some (.varchar value)
  | .column parent colName negate => some (.column parent colName negate)
  | .binary op left right => do
      let l ← env.denote left
      let r ← env.denote right
      some (.binary op l r)

/-- The tree with a minus sign before it. A number and a number column have one. -/
def Env.negative : Tree env.F → Option (Tree env.F)
  | .int n => some (.int (-n))
  | .float x => some (.float (env.neg x))
  | .column parent colName negative =>
      if parent.colType colName = some TYPE_FLOAT ∨ parent.colType colName = some TYPE_INT then
        some (.column parent colName (!negative))
      else none
  | _ => none

@[simp] theorem step_pusho (i : ℕ) (tok : Token) (stack : List Item) :
    step env (.pusho (some i) tok) stack = some (.offset i :: stack) := rfl

@[simp] theorem step_mkexpr (stack : List Item) : step env (.call .mkexpr) stack = makeExpression env stack := rfl

@[simp] theorem step_mkclmnexpr (stack : List Item) : step env (.call .mkclmnexpr) stack = makeColumnExpression env stack := rfl

theorem run_append (lines lines' : List Line) (stack : List Item) :
    run env (lines ++ lines') stack = (run env lines stack).bind (run env lines') := by
  induction lines generalizing stack with
  | nil => rfl
  | cons line lines ih =>
    rw [List.cons_append, run, run]
    cases step env line stack with
    | none => rfl
    | some stack' => exact ih stack'

theorem run_singleton (line : Line) (stack : List Item) : run env [line] stack = step env line stack := by
  rw [run]
  cases step env line stack <;> rfl

end RedB.Vm
