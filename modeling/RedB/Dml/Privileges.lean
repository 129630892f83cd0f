import RedB.Dml.Codec

/-!
# Privileges

The global privileges of an account are in its row of `etc.cred`. The privileges on a table are
in rows of `etc.priv`: a row for the table, one for its database, one for everything, and the
first row that there is decides. GRANT adds to the row of what it names, or makes it.

Functions that throw return nothing.
-/

namespace RedB.Dml

/-! ### Names -/

/-- `dbms::ASTERISK` -/
def ASTERISK : Text := ['*']

/-- `dbms::YES` -/
def YES : Text := ['Y']

/-- `dbms::NO` -/
def NO : Text := ['N']

/-- `dbms::ALL_PRIV` -/
def ALL_PRIV : Text := "all_priv".toList

/-- `dbms::GRANT_PRIV` -/
def GRANT_PRIV : Text := "grant_priv".toList

/-- `dbms::GLOBAL_PRIVILEGE_LIST` -/
def GLOBAL_PRIVILEGE_LIST : List Text :=
  ["alter_priv", "create_priv", "create_user_priv", "delete_priv", "drop_priv", "file_priv", "grant_priv", "index_priv",
    "insert_priv", "reload_priv", "select_priv", "show_db_priv", "shutdown_priv", "update_priv"].map String.toList

/-- `dbms::LOCAL_PRIVILEGE_LIST` -/
def LOCAL_PRIVILEGE_LIST : List Text :=
  ["alter_priv", "create_priv", "delete_priv", "drop_priv", "file_priv", "grant_priv", "index_priv", "insert_priv", "select_priv",
    "update_priv"].map String.toList

/-- A column of a key of `etc.cred` or `etc.priv`. -/
def keyColumn (name : String) (size : ℕ) : Column :=
  { name := name.toList, type := .varchar, size := size, prec := 0, enumList := [], isAutoInc := false, isNotNull := true,
    isPrimary := true, isUnique := true, autoInc := 0 }

/-- A column of a privilege. -/
def privColumn (name : String) : Column :=
  { name := name.toList, type := .enum, size := 1, prec := 0, enumList := [NO, YES], isAutoInc := false, isNotNull := true,
    isPrimary := false, isUnique := false, autoInc := 0 }

/-- The columns of `etc.priv`, of `make_priv_schema`. -/
def privColumns : List Column :=
  [keyColumn "hostname" 64, keyColumn "username" 32, keyColumn "db_name" 32, keyColumn "tbl_name" 32] ++
    ["select_priv", "insert_priv", "update_priv", "delete_priv", "index_priv", "alter_priv", "create_priv", "drop_priv", "grant_priv",
      "file_priv"].map privColumn

/-- The columns of its primary key. -/
def privKey : List Text := ["hostname", "username", "db_name", "tbl_name"].map String.toList

/-- An account. -/
structure Account where
  hostname : Text
  username : Text
deriving DecidableEq, Repr

/-- What a privilege is for: a table, all tables of a database, or everything. -/
structure Scope where
  db : Text
  tbl : Text
deriving DecidableEq, Repr

/-- The tables of the privileges. -/
structure Acl where
  /-- `etc.cred` -/
  cred : Table
  /-- `etc.priv` -/
  priv : Table
deriving DecidableEq, Repr

/-- `fsm::get_info` -/
structure Session where
  who : Account
  dbName : Text
deriving DecidableEq, Repr

variable (A : Arith)

/-! ### Checks -/

/-- A row with values for its first columns. -/
def keyRow (t : Table) (values : List Text) : Option Row := do
  let texts ← storeAll A (t.columns.take values.length) values
  if texts.flatten.length ≤ capacity t.columns then some (Row.start texts (t.columns.length - values.length)) else none

/-- `row::value_at`, by the name of the column. -/
def valueOf (t : Table) (r : Row) (colName : Text) : Option Text := (columnPos t.columns colName).map r.valueAt

/-- `vm::verify_global_privilege` -/
def verifyGlobalPrivilege (acl : Acl) (who : Account) (colName : Text) : Option Bool := do
  let rw ← keyRow A acl.cred [who.hostname, who.username]
  match acl.cred.find PK_NDX (acl.cred.primaryKey rw) with
  | none => some false
  | some p => do
      let value ← valueOf acl.cred p.2 colName
      some (value = YES)

/-- The row of a scope. -/
def privRow (acl : Acl) (who : Account) (s : Scope) : Option (Option (ℕ × Row)) := do
  let rw ← keyRow A acl.priv [who.hostname, who.username, s.db, s.tbl]
  some (acl.priv.find PK_NDX (acl.priv.primaryKey rw))

/-- The loop of `vm::verify_local_privilege`: the row of the first scope that has one. -/
def firstRow (acl : Acl) (who : Account) : List Scope → Option (Option Row)
  | [] => some none
  | s :: ss => do
      match ← privRow A acl who s with
      | some p => some (some p.2)
      | none => firstRow acl who ss

/-- The scopes that are asked, of `vm::verify_local_privilege`. -/
def Scope.chain (s : Scope) : List Scope := [s, ⟨s.db, ASTERISK⟩, ⟨ASTERISK, ASTERISK⟩]

/-- `vm::verify_local_privilege` -/
def verifyLocalPrivilege (acl : Acl) (who : Account) (s : Scope) (colName : Text) : Option Bool := do
  match ← firstRow A acl who s.chain with
  | none => some false
  | some r => do
      let value ← valueOf acl.priv r colName
      some (value = YES)

/-- `vm::verify_privilege`: whether it returns. -/
def verifyPrivilege (acl : Acl) (who : Account) (s : Scope) (colName : Text) : Bool :=
  match verifyGlobalPrivilege A acl who colName with
  | none => false
  | some true => true
  | some false => verifyLocalPrivilege A acl who s colName = some true

/-! ### GRANT -/

/-- `populate_all_privilege_list` -/
def populateAllPrivilegeList (privList baseAllList : List Text) : List Text :=
  baseAllList.filter fun colName => colName ∉ privList ∧ colName ≠ GRANT_PRIV

/-- `normalize_privilege_list` -/
def normalizePrivilegeList (privList : List Text) (global : Bool) : List Text :=
  if ALL_PRIV ∈ privList then
    let privList := privList.filter fun colName => colName ≠ ALL_PRIV
    privList ++ populateAllPrivilegeList privList (if global then GLOBAL_PRIVILEGE_LIST else LOCAL_PRIVILEGE_LIST)
  else privList

/-- The values of the columns of privileges, from column `pos` on: what is granted, and else what
there was. -/
def flags (privList : List Text) (old : ℕ → Text) : ℕ → List Column → List Text
  | _, [] => []
  | pos, col :: cols => (if col.name ∈ privList then YES else old pos) :: flags privList old (pos + 1) cols

/-- A GRANT statement. -/
structure GrantStmt where
  privList : List Text
  /-- Empty for the database of the session. -/
  dbName : Text
  tblName : Text
  username : Text
  hostname : Text
deriving DecidableEq, Repr

/-- The account that a GRANT is for. -/
def GrantStmt.account (g : GrantStmt) : Account := ⟨g.hostname, g.username⟩

/-- What a GRANT is for. -/
def GrantStmt.scope (g : GrantStmt) (s : Session) : Scope := ⟨if g.dbName = [] then s.dbName else g.dbName, g.tblName⟩

/-- The row of an account. -/
def credRow (acl : Acl) (who : Account) : Option (ℕ × Row) := do
  let rw ← keyRow A acl.cred [who.hostname, who.username]
  acl.cred.find PK_NDX (acl.cred.primaryKey rw)

/-- `vm::grant_global` -/
def grantGlobal (acl : Acl) (g : GrantStmt) : Option Acl := do
  let p ← credRow A acl g.account
  let privList := normalizePrivilegeList g.privList true
  let rw ← makeRow A acl.cred.columns
    ([p.2.valueAt 0, p.2.valueAt 1, p.2.valueAt 2] ++ flags privList p.2.valueAt 3 (acl.cred.columns.drop 3))
  some { acl with cred := acl.cred.update rw }

/-- `vm::grant_local` -/
def grantLocal (acl : Acl) (s : Session) (g : GrantStmt) : Option Acl := do
  let _ ← credRow A acl g.account
  let privList := normalizePrivilegeList g.privList false
  let scope := g.scope s
  match ← privRow A acl g.account scope with
  | none => do
      let rw ← makeRow A acl.priv.columns
        ([g.hostname, g.username, scope.db, scope.tbl] ++ flags privList (fun _ => NO) 4 (acl.priv.columns.drop 4))
      some { acl with priv := acl.priv.insert rw }
  | some p => do
      let rw ← makeRow A acl.priv.columns
        ([p.2.valueAt 0, p.2.valueAt 1, p.2.valueAt 2, p.2.valueAt 3] ++ flags privList p.2.valueAt 4 (acl.priv.columns.drop 4))
      some { acl with priv := acl.priv.update rw }

/-- Whether `vm::grant` calls `vm::grant_global`. -/
def GrantStmt.isGlobal (g : GrantStmt) : Bool := (g.dbName = [] || g.dbName = ASTERISK) && g.tblName = ASTERISK

/-- `vm::grant` -/
def grant (acl : Acl) (s : Session) (g : GrantStmt) : Option Acl :=
  if verifyPrivilege A acl s.who ⟨g.dbName, g.tblName⟩ GRANT_PRIV then
    if g.isGlobal then grantGlobal A acl g else grantLocal A acl s g
  else none

end RedB.Dml
