import RedB.Dml.Grant
import RedB.Theory.Actions

/-!
# Accounts over runs of statements

CREATE USER makes the row of an account in `etc.cred` and DROP USER removes it, with the rows of
the account in `etc.priv`. Rows are found by keys, in which names are filled with blanks, and
the rows that DROP USER removes from `etc.priv` are those with the very names of the statement:
every privilege is of an account that there is, over a run whose statements write the names as
they are in the rows (`privileges_end_with_users`).
-/

namespace RedB.Dml

open Actions
open RedB.Tran (lower)

/-- `dbms::CREATE_USER_PRIV` -/
def CREATE_USER_PRIV : Text := "create_user_priv".toList

/-- `dbms::DELETE_PRIV` -/
def DELETE_PRIV : Text := "delete_priv".toList

/-- `srvcry::hash_text`: a digest of 32 bytes, two digits for each. -/
structure Digest where
  hashText : Text → Option Text
  length_hashText : ∀ password digest, hashText password = some digest → digest.length = 64

variable (A : Arith) (D : Digest)

/-! ### Statements -/

/-- `vm::verify_privilege`, for one of several privileges. -/
def verifyAnyPrivilege (acl : Acl) (who : Account) (s : Scope) : List Text → Bool
  | [] => false
  | colName :: privList =>
      match verifyGlobalPrivilege A acl who colName with
      | none => false
      | some true => true
      | some false =>
          match verifyLocalPrivilege A acl who s colName with
          | none => false
          | some true => true
          | some false => verifyAnyPrivilege acl who s privList

/-- `vm::create_user` -/
def createUser (acl : Acl) (s : Session) (who : Account) (password : Text) : Option Acl :=
  if verifyPrivilege A acl s.who ⟨ASTERISK, ASTERISK⟩ CREATE_USER_PRIV then do
    let rw ← keyRow A acl.cred [who.hostname, who.username]
    match acl.cred.find PK_NDX (acl.cred.primaryKey rw) with
    | some _ => none
    | none => do
        let hashedPassword ← D.hashText password
        let row ← makeRow A acl.cred.columns
          ([who.hostname, who.username, hashedPassword] ++ (acl.cred.columns.drop 3).map fun _ => NO)
        some { acl with cred := acl.cred.insert row }
  else none

/-- `vm::drop_user_global` -/
def dropUserGlobal (acl : Acl) (who : Account) : Option Acl := do
  let p ← credRow A acl who
  some { acl with cred := acl.cred.remove p.2 }

/-- The account that a row of `etc.cred` or `etc.priv` names. -/
def accountOf (r : Row) : Account := ⟨r.valueAt 0, r.valueAt 1⟩

/-- The row with this key is removed. -/
def removeKey (t : Table) (key : Text) : Table :=
  match t.find PK_NDX key with
  | some p => t.remove p.2
  | none => t

/-- `vm::drop_user_local` -/
def dropUserLocal (acl : Acl) (who : Account) : Acl :=
  let keyList := (acl.priv.rows.filter fun p => accountOf p.2 = who).map fun p => acl.priv.primaryKey p.2
  { acl with priv := keyList.foldl removeKey acl.priv }

/-- `vm::drop_user` -/
def dropUser (acl : Acl) (s : Session) (who : Account) : Option Acl :=
  if verifyAnyPrivilege A acl s.who ⟨ASTERISK, ASTERISK⟩ [CREATE_USER_PRIV, DELETE_PRIV] then
    (dropUserGlobal A acl who).map fun acl => dropUserLocal acl who
  else none

/-- The values of the columns of privileges, from column `pos` on: what is revoked is not there
any more. -/
def revokedFlags (privList : List Text) (old : ℕ → Text) : ℕ → List Column → List Text
  | _, [] => []
  | pos, col :: cols => (if col.name ∈ privList then NO else old pos) :: revokedFlags privList old (pos + 1) cols

/-- `vm::revoke_global` -/
def revokeGlobal (acl : Acl) (g : GrantStmt) : Option Acl := do
  let p ← credRow A acl g.account
  let privList := normalizePrivilegeList g.privList true
  let rw ← makeRow A acl.cred.columns
    ([p.2.valueAt 0, p.2.valueAt 1, p.2.valueAt 2] ++ revokedFlags privList p.2.valueAt 3 (acl.cred.columns.drop 3))
  some { acl with cred := acl.cred.update rw }

/-- `vm::revoke_local` -/
def revokeLocal (acl : Acl) (s : Session) (g : GrantStmt) : Option Acl := do
  let _ ← credRow A acl g.account
  let privList := normalizePrivilegeList g.privList false
  match ← privRow A acl g.account (g.scope s) with
  | none => none
  | some p => do
      let rw ← makeRow A acl.priv.columns
        ([p.2.valueAt 0, p.2.valueAt 1, p.2.valueAt 2, p.2.valueAt 3] ++
          revokedFlags privList p.2.valueAt 4 (acl.priv.columns.drop 4))
      some { acl with priv := acl.priv.update rw }

/-- `vm::revoke` -/
def revoke (acl : Acl) (s : Session) (g : GrantStmt) : Option Acl :=
  if verifyPrivilege A acl s.who ⟨g.dbName, g.tblName⟩ GRANT_PRIV then
    if g.isGlobal then revokeGlobal A acl g else revokeLocal A acl s g
  else none

/-- A statement about accounts. -/
inductive AccountStmt where
  | createUser (who : Account) (password : Text)
  | grant (g : GrantStmt)
  | revoke (g : GrantStmt)
  | dropUser (who : Account)
deriving DecidableEq, Repr

/-- What a statement makes of the tables, nothing if it throws. -/
def execAccount (acl : Acl) (s : Session) : AccountStmt → Option Acl
  | .createUser who password => createUser A D acl s who password
  | .grant g => grant A acl s g
  | .revoke g => revoke A acl s g
  | .dropUser who => dropUser A acl s who

/-- A statement of a session. One that throws leaves the tables as they are. -/
def accountStep (acl : Acl) (a : Session × AccountStmt) : Option Acl := some ((execAccount A D acl a.1 a.2).getD acl)

/-! ### What holds over a run -/

/-- The accounts that are named in the rows of a table. -/
def accounts (t : Table) : List Account := t.rows.map fun p => accountOf p.2

/-- Every privilege is of an account that there is. -/
def Owned (acl : Acl) : Prop := ∀ who ∈ accounts acl.priv, who ∈ accounts acl.cred

/-- The columns of the primary key of `etc.cred`. -/
def credKey : List Text := ["hostname", "username"].map String.toList

/-- A table of rows of these columns, with these columns as its key. -/
structure Keyed (cols : List Column) (names : List Text) (t : Table) : Prop where
  wf : t.Wf
  columns : t.columns = cols
  index : ∃ elements, t.indexList = [{ name := PK_NDX, isUnique := true, colNameList := names, elements := elements }]
  rows : ∀ p ∈ t.rows, ∃ values, makeRow A cols values = some p.2
  keys : (t.rows.map fun p => t.primaryKey p.2).Nodup

/-- The tables of the privileges, with their keys. -/
structure Acl.Keyed (acl : Acl) : Prop where
  cred : Dml.Keyed A credColumns credKey acl.cred
  priv : Dml.Keyed A privColumns privKey acl.priv

/-- Statements write names as they are in the rows: a GRANT that makes a row names its account
as `etc.cred` does, and a DROP USER as the rows of `etc.priv` under its key do. -/
def Spelled (acl : Acl) (a : Session × AccountStmt) : Prop :=
  match a.2 with
  | .grant g => g.isGlobal = false → privRow A acl g.account (g.scope a.1) = some none →
      ∀ p ∈ credRow A acl g.account, accountOf p.2 = g.account
  | .dropUser who => ∀ p ∈ acl.priv.rows, (accountOf p.2).key = who.key → accountOf p.2 = who
  | _ => True

instance (acl : Acl) (a : Session × AccountStmt) : Decidable (Spelled A acl a) :=
  match a with
  | (s, .grant g) => inferInstanceAs (Decidable (g.isGlobal = false → privRow A acl g.account (g.scope s) = some none →
      ∀ p ∈ credRow A acl g.account, accountOf p.2 = g.account))
  | (_, .dropUser who) => inferInstanceAs (Decidable (∀ p ∈ acl.priv.rows, (accountOf p.2).key = who.key → accountOf p.2 = who))
  | (_, .createUser _ _) => inferInstanceAs (Decidable True)
  | (_, .revoke _) => inferInstanceAs (Decidable True)

/-- A GRANT to an account. -/
def AccountStmt.GrantsTo (who : Account) : AccountStmt → Prop
  | .grant g => g.account.key = who.key
  | _ => False

/-- An account that nothing is granted to. -/
structure Bare (acl : Acl) (who : Account) : Prop where
  priv : ∀ p ∈ acl.priv.rows, (accountOf p.2).key ≠ who.key
  cred : ∀ p ∈ acl.cred.rows, (accountOf p.2).key = who.key → ∀ colName ∈ GLOBAL_PRIVILEGE_LIST, valueOf acl.cred p.2 colName ≠ some YES

/-- No privilege outlives its user: every privilege is of an account that there is, and an account
that has been created passes no check until something is granted to it. -/
structure PrivilegesEnd (acl : Acl) (as : List (Session × AccountStmt)) : Prop where
  owned : Throughout (accountStep A D) Owned acl as
  bare : ∀ pre s who password post acl₁ acl₂ acl', as = pre ++ (s, .createUser who password) :: post →
    Actions.run (accountStep A D) acl pre = some acl₁ → createUser A D acl₁ s who password = some acl₂ →
    Actions.run (accountStep A D) acl₂ post = some acl' → (∀ a ∈ post, ¬a.2.GrantsTo who) →
    ∀ (o : Scope), ∀ colName ∈ GLOBAL_PRIVILEGE_LIST, verifyPrivilege A acl' who o colName = false

variable {A D} {acl acl' : Acl} {who : Account} {cols : List Column} {names : List Text} {t : Table} {r : Row}

/-! ### Tables with keys -/

theorem Keyed.primaryKey (h : Keyed A cols names t) (r : Row) : t.primaryKey r = makeKey cols names r := by
  obtain ⟨elements, hi⟩ := h.index
  rw [Table.primaryKey, Table.getIndex, hi]
  show makeKey t.columns names r = _
  rw [h.columns]

theorem Keyed.eq_of_key (h : Keyed A cols names t) {p q : ℕ × Row} (hp : p ∈ t.rows) (hq : q ∈ t.rows)
    (he : t.primaryKey p.2 = t.primaryKey q.2) : p = q :=
  List.inj_on_of_nodup_map h.keys hp hq he

theorem Keyed.find_row (h : Keyed A cols names t) {p : ℕ × Row} (hp : p ∈ t.rows) : t.find PK_NDX (t.primaryKey p.2) = some p := by
  cases hf : t.find PK_NDX (t.primaryKey p.2) with
  | none =>
    rw [h.wf.find_primary] at hf
    have := List.find?_eq_none.mp hf p hp
    simp at this
  | some q =>
    obtain ⟨hq, hkey⟩ := h.wf.find_mem hf
    rw [h.eq_of_key hq hp hkey]

theorem Keyed.insert (h : Keyed A cols names t) (hr : ∃ values, makeRow A cols values = some r)
    (hf : t.find PK_NDX (t.primaryKey r) = none) : Keyed A cols names (t.insert r) where
  wf := h.wf.insert r
  columns := h.columns
  index := by
    obtain ⟨elements, hi⟩ := h.index
    refine ⟨elements ++ [(makeKey t.columns names r, t.next)], ?_⟩
    rw [Table.insert, hi]
    rfl
  rows p hp := by
    rcases List.mem_append.mp hp with hp | hp
    · exact h.rows p hp
    · rw [List.mem_singleton.mp hp]
      exact hr
  keys := by
    rw [h.wf.find_primary, List.find?_eq_none] at hf
    simp only [Table.insert_primaryKey, Table.insert_rows, List.map_append, List.map_cons, List.map_nil]
    refine List.nodup_append.mpr ⟨h.keys, List.nodup_singleton _, fun a ha b hb hab => ?_⟩
    obtain ⟨p, hp, rfl⟩ := List.mem_map.mp ha
    have := hf p hp
    rw [List.mem_singleton.mp hb] at hab
    simp [hab] at this

theorem Keyed.removeAt (h : Keyed A cols names t) (place : ℕ) : Keyed A cols names (t.removeAt place) where
  wf := h.wf.removeAt place
  columns := h.columns
  index := by
    obtain ⟨elements, hi⟩ := h.index
    refine ⟨elements.filter fun e => e.2 ≠ place, ?_⟩
    rw [Table.removeAt, hi]
    rfl
  rows p hp := h.rows p (List.mem_filter.mp hp).1
  keys := by
    simp only [Table.removeAt_primaryKey, Table.removeAt_rows]
    exact (List.filter_sublist.map _).nodup h.keys

/-- A row that takes the place of a row with its key, or does not, if it is of another size. -/
theorem update_cases {p : ℕ × Row} (hf : t.find PK_NDX (t.primaryKey r) = some p) : t.update r = t ∨
    r.data.length = p.2.data.length ∧ t.update r = { t with rows := t.rows.map fun q => if q.1 = p.1 then (q.1, r) else q } := by
  by_cases hs : r.data.length = p.2.data.length
  · exact Or.inr ⟨hs, Table.update_eq hf hs⟩
  · refine Or.inl ?_
    rw [Table.update, hf]
    exact if_neg hs

theorem Keyed.update (h : Keyed A cols names t) {p : ℕ × Row} (hr : ∃ values, makeRow A cols values = some r)
    (hf : t.find PK_NDX (t.primaryKey r) = some p) : Keyed A cols names (t.update r) := by
  obtain ⟨hp, hkey⟩ := h.wf.find_mem hf
  rcases update_cases hf with he | ⟨hs, he⟩
  · rw [he]
    exact h
  · have hkeys : ∀ ndx ∈ t.indexList, t.key ndx r = t.key ndx p.2 := by
      obtain ⟨elements, hi⟩ := h.index
      intro ndx hm
      rw [hi, List.mem_singleton] at hm
      rw [hm, Table.key, Table.key, h.columns]
      rw [h.primaryKey, h.primaryKey] at hkey
      exact hkey.symm
    refine ⟨h.wf.update hf hs hkeys, ?_, ?_, ?_, ?_⟩
    · rw [he]
      exact h.columns
    · rw [he]
      exact h.index
    · intro q hq
      rw [he] at hq
      obtain ⟨q', hq', rfl⟩ := List.mem_map.mp hq
      split
      · exact hr
      · exact h.rows q' hq'
    · have hsame : (t.update r).rows.map (fun q => (t.update r).primaryKey q.2) = t.rows.map fun q => t.primaryKey q.2 := by
        rw [he, List.map_map]
        refine List.map_congr_left fun q hq => ?_
        show t.primaryKey (if q.1 = p.1 then (q.1, r) else q).2 = _
        split
        · rename_i hplace
          rw [List.inj_on_of_nodup_map h.wf.places hq hp hplace, hkey]
        · rfl
      rw [hsame]
      exact h.keys

theorem removeKey_rows (h : Keyed A cols names t) (key : Text) : Keyed A cols names (removeKey t key) ∧
    (∀ r, (removeKey t key).primaryKey r = t.primaryKey r) ∧ (removeKey t key).rows = t.rows.filter fun p => t.primaryKey p.2 ≠ key := by
  rw [removeKey]
  cases hf : t.find PK_NDX key with
  | none =>
    refine ⟨h, fun r => rfl, (List.filter_eq_self.mpr fun p hp => ?_).symm⟩
    rw [h.wf.find_primary, List.find?_eq_none] at hf
    simpa using hf p hp
  | some q =>
    obtain ⟨hq, hkey⟩ := h.wf.find_mem hf
    simp only [h.wf.remove_found hf]
    refine ⟨h.removeAt _, Table.removeAt_primaryKey t _, List.filter_congr fun p hp => decide_eq_decide.mpr (not_congr ⟨fun hplace => ?_, fun hk => ?_⟩)⟩
    · rw [List.inj_on_of_nodup_map h.wf.places hp hq hplace, hkey]
    · rw [h.eq_of_key hp hq (hk.trans hkey.symm)]

/-- The loop over the keys. -/
theorem removeKeys_rows (h : Keyed A cols names t) (keyList : List Text) : Keyed A cols names (keyList.foldl removeKey t) ∧
    (keyList.foldl removeKey t).rows = t.rows.filter fun p => t.primaryKey p.2 ∉ keyList := by
  induction keyList generalizing t with
  | nil => exact ⟨h, (List.filter_eq_self.mpr fun p _ => decide_eq_true List.not_mem_nil).symm⟩
  | cons key keyList ih =>
    obtain ⟨hk, hprimary, hrows⟩ := removeKey_rows h key
    obtain ⟨hk', hrows'⟩ := ih hk
    refine ⟨hk', hrows'.trans ?_⟩
    rw [hrows, List.filter_filter]
    refine List.filter_congr fun p _ => ?_
    simp only [hprimary, List.mem_cons, not_or, ← Bool.decide_and]
    exact decide_eq_decide.mpr and_comm

/-- The rows with the very names of the statement are removed. -/
theorem dropUserLocal_rows (h : Keyed A privColumns privKey acl.priv) (who : Account) :
    Keyed A privColumns privKey (dropUserLocal acl who).priv ∧
      (dropUserLocal acl who).priv.rows = acl.priv.rows.filter fun p => accountOf p.2 ≠ who := by
  obtain ⟨hk, hrows⟩ := removeKeys_rows h ((acl.priv.rows.filter fun p => accountOf p.2 = who).map fun p => acl.priv.primaryKey p.2)
  refine ⟨hk, hrows.trans (List.filter_congr fun p hp => decide_eq_decide.mpr (not_congr ?_))⟩
  rw [List.mem_map]
  constructor
  · rintro ⟨q, hq, hkey⟩
    obtain ⟨hq, hwho⟩ := List.mem_filter.mp hq
    rw [← h.eq_of_key hq hp hkey]
    exact of_decide_eq_true hwho
  · intro hwho
    exact ⟨p, List.mem_filter.mpr ⟨hp, decide_eq_true hwho⟩, rfl⟩

/-! ### Names and keys -/

/-- Columns of a table that begins with the names of an account, as its key does. -/
structure Led (cols : List Column) (names : List Text) : Prop where
  columns : ∃ tail, cols = keyColumn "hostname" 64 :: keyColumn "username" 32 :: tail
  textual : ∀ col ∈ cols, col.Textual
  key : ∃ rest : Row → Text, ∀ r, makeKey cols names r = (accountOf r).key ++ rest r

theorem led_cred : Led credColumns credKey where
  columns := ⟨_, rfl⟩
  textual := credColumns_textual
  key := ⟨fun _ => [], fun r => by
    rw [List.append_nil]
    show padRight 64 ' ' (r.valueAt 0) ++ (padRight 32 ' ' (r.valueAt 1) ++ []) = _
    rw [List.append_nil]
    rfl⟩

theorem led_priv : Led privColumns privKey where
  columns := ⟨_, rfl⟩
  textual := privColumns_textual
  key := ⟨fun r => padRight 32 ' ' (r.valueAt 2) ++ (padRight 32 ' ' (r.valueAt 3) ++ []), fun r => by
    rw [makeKey_priv, Account.key, List.append_assoc]
    rfl⟩

theorem length_key (h : FitsAccount who) : who.key.length = 96 := by
  rw [Account.key, List.length_append, length_padRight_eq h.1, length_padRight_eq h.2.2.1]

/-- The account of the first two texts. -/
theorem accountOf_texts (h : FitsAccount who) (sizes : List ℕ) (rest : Text) :
    accountOf ⟨who.hostname.length % 256 :: who.username.length % 256 :: sizes, who.hostname ++ (who.username ++ rest)⟩ = who := by
  have hh := h.1
  have hu := h.2.2.1
  have h₀ : who.hostname.length % 256 = who.hostname.length := Nat.mod_eq_of_lt (by omega)
  have h₁ : who.username.length % 256 = who.username.length := Nat.mod_eq_of_lt (by omega)
  rw [h₀, h₁]
  refine congrArg₂ Account.mk ?_ ?_
  · exact List.take_left
  · show ((who.hostname ++ (who.username ++ rest)).drop (who.hostname.length + 0)).take who.username.length = _
    rw [Nat.add_zero, List.drop_left, List.take_left]

/-- What the first two columns take are the names of an account. -/
theorem storeAll_led {values texts : List Text} (hl : Led cols names) {n : ℕ} (h : storeAll A (cols.take (n + 2)) values = some texts) :
    ∃ who rest, FitsAccount who ∧ texts = who.hostname :: who.username :: rest ∧
      ∃ more, values = who.hostname :: who.username :: more := by
  obtain ⟨tail, htail⟩ := hl.columns
  obtain ⟨htake, hall⟩ := storeAll_textual (fun col hc => hl.textual col (List.mem_of_mem_take hc)) h
  rw [htail, List.take_succ_cons, List.take_succ_cons] at hall
  obtain ⟨a, _, ha, h₁, rfl⟩ := List.forall₂_cons_left_iff.mp hall
  obtain ⟨b, rest, hb, -, rfl⟩ := List.forall₂_cons_left_iff.mp h₁
  refine ⟨⟨a, b⟩, rest, ⟨ha.1, ha.2.1, hb.1, hb.2.1⟩, rfl, ?_⟩
  rw [htail, List.take_succ_cons, List.take_succ_cons] at htake
  match values, htake with
  | [], htake => cases htake
  | [v], htake => cases (List.cons.inj htake).2
  | v :: w :: more, htake =>
    obtain ⟨rfl, h₂⟩ := List.cons.inj htake
    obtain ⟨rfl, -⟩ := List.cons.inj h₂
    exact ⟨more, rfl⟩

/-- The account of a row that has been made. -/
theorem accountOf_makeRow (hl : Led cols names) {values : List Text} (h : makeRow A cols values = some r) :
    FitsAccount (accountOf r) ∧ ∃ more, values = (accountOf r).hostname :: (accountOf r).username :: more := by
  obtain ⟨texts, hstore, hmade⟩ := Option.bind_eq_some_iff.mp h
  split at hmade
  · obtain rfl := Option.some.inj hmade
    rw [← List.take_of_length_le (Nat.le_add_right cols.length 2)] at hstore
    obtain ⟨who, rest, hfits, rfl, more, rfl⟩ := storeAll_led hl hstore
    have hwho : accountOf (Row.ofTexts (who.hostname :: who.username :: rest)) = who := accountOf_texts hfits _ _
    rw [hwho]
    exact ⟨hfits, more, rfl⟩
  · cases hmade

/-- The account of a row for a search. -/
theorem accountOf_keyRow (hl : Led cols names) (hc : t.columns = cols) {a b : Text} {more : List Text}
    (h : keyRow A t (a :: b :: more) = some r) : FitsAccount ⟨a, b⟩ ∧ accountOf r = ⟨a, b⟩ := by
  obtain ⟨texts, hstore, hmade⟩ := Option.bind_eq_some_iff.mp h
  split at hmade
  · obtain rfl := Option.some.inj hmade
    rw [hc] at hstore
    obtain ⟨who, rest, hfits, rfl, more', hvalues⟩ := storeAll_led hl hstore
    obtain ⟨ha, hvalues⟩ := List.cons.inj hvalues
    have hwho : Account.mk a b = who := congrArg₂ Account.mk ha (List.cons.inj hvalues).1
    rw [hwho]
    exact ⟨hfits, accountOf_texts hfits _ _⟩
  · cases hmade

/-- A row that is found is of the account, by its key. -/
theorem find_account (hl : Led cols names) (h : Keyed A cols names t) {a b : Text} {more : List Text} {p : ℕ × Row}
    (hr : keyRow A t (a :: b :: more) = some r) (hf : t.find PK_NDX (t.primaryKey r) = some p) :
    p ∈ t.rows ∧ (accountOf p.2).key = Account.key ⟨a, b⟩ := by
  obtain ⟨hp, hkey⟩ := h.wf.find_mem hf
  obtain ⟨hfits, hwho⟩ := accountOf_keyRow hl h.columns hr
  obtain ⟨values, hvalues⟩ := h.rows p hp
  obtain ⟨rest, hrest⟩ := hl.key
  refine ⟨hp, ?_⟩
  rw [h.primaryKey, h.primaryKey, hrest, hrest] at hkey
  rw [← hwho]
  exact (List.append_inj hkey (by rw [length_key (accountOf_makeRow hl hvalues).1, hwho, length_key hfits])).1

/-! ### What a statement does -/

/-- A row of these columns. -/
def Made (cols : List Column) (r : Row) : Prop := ∃ values, makeRow A cols values = some r

/-- The row is allowed none of the privileges on everything. -/
def NoFlags (r : Row) : Prop := ∀ colName ∈ GLOBAL_PRIVILEGE_LIST, (columnPos credColumns colName).map r.valueAt ≠ some YES

variable (A) in
/-- What a statement that does not throw makes of the tables. -/
inductive Effect (acl : Acl) (s : Session) : AccountStmt → Acl → Prop
  | created {who : Account} {password : Text} {row : Row} (made : Made (A := A) credColumns row) (names : accountOf row = who)
      (fresh : acl.cred.find PK_NDX (acl.cred.primaryKey row) = none) (flags : NoFlags row) :
      Effect acl s (.createUser who password) { acl with cred := acl.cred.insert row }
  | credChanged {stmt : AccountStmt} {g : GrantStmt} {p : ℕ × Row} {row : Row} (isFor : stmt = .grant g ∧ g.isGlobal = true ∨ stmt = .revoke g)
      (found : acl.cred.find PK_NDX (acl.cred.primaryKey row) = some p) (own : (accountOf p.2).key = g.account.key)
      (made : Made (A := A) credColumns row) (names : accountOf row = accountOf p.2)
      (flags : stmt = .revoke g → NoFlags p.2 → NoFlags row) : Effect acl s stmt { acl with cred := acl.cred.update row }
  | privMade {g : GrantStmt} {p : ℕ × Row} {row : Row} (isLocal : g.isGlobal = false) (account : credRow A acl g.account = some p)
      (new : privRow A acl g.account (g.scope s) = some none) (fresh : acl.priv.find PK_NDX (acl.priv.primaryKey row) = none)
      (made : Made (A := A) privColumns row) (names : accountOf row = g.account) :
      Effect acl s (.grant g) { acl with priv := acl.priv.insert row }
  | privChanged {stmt : AccountStmt} {g : GrantStmt} {p : ℕ × Row} {row : Row} (isFor : stmt = .grant g ∨ stmt = .revoke g)
      (own : privRow A acl g.account (g.scope s) = some (some p)) (found : acl.priv.find PK_NDX (acl.priv.primaryKey row) = some p) (made : Made (A := A) privColumns row)
      (names : accountOf row = accountOf p.2) : Effect acl s stmt { acl with priv := acl.priv.update row }
  | dropped {who : Account} {p : ℕ × Row} (account : credRow A acl who = some p) :
      Effect acl s (.dropUser who) (dropUserLocal { acl with cred := acl.cred.removeAt p.1 } who)

theorem credRow_account (hk : acl.Keyed A) {p : ℕ × Row} (h : credRow A acl who = some p) :
    p ∈ acl.cred.rows ∧ (accountOf p.2).key = who.key := by
  obtain ⟨rw_, hr, hf⟩ := Option.bind_eq_some_iff.mp h
  exact find_account led_cred hk.cred hr hf

/-- Where privileges are in a row of `etc.cred`. -/
theorem columnPos_cred : ∀ p ∈ GLOBAL_PRIVILEGE_LIST, ∃ j < 14, columnPos credColumns p = some (3 + j) := by decide

/-- The texts of a row of `etc.cred`. -/
theorem makeRow_cred {a b c : Text} {fs : List Text} (hfs : fs.length = 14)
    (h : makeRow A credColumns ([a, b, c] ++ fs) = some r) : r = Row.ofTexts ([a, b, c] ++ fs) ∧ ∀ f ∈ fs, f.length ≤ 1 := by
  obtain ⟨texts, hstore, hmade⟩ := Option.bind_eq_some_iff.mp h
  split at hmade
  · obtain rfl := Option.some.inj hmade
    obtain ⟨htake, hall⟩ := storeAll_textual credColumns_textual hstore
    rw [List.take_of_length_le (by
      rw [List.length_append, hfs]
      exact le_rfl)] at htake
    subst htake
    refine ⟨rfl, fun f hf => ?_⟩
    have hdrop : List.Forall₂ (fun (col : Column) (text : Text) => text.length ≤ col.size ∧ lower text ≠ "null".toList ∧
        (col.type = .enum → text ∈ col.enumList)) (credColumns.drop 3) fs := List.forall₂_drop 3 hall
    obtain ⟨i, hi, rfl⟩ := List.getElem_of_mem hf
    have hi' := hi
    rw [← hdrop.length_eq] at hi'
    have hsize : ∀ col ∈ credColumns.drop 3, col.size = 1 := by decide
    have := (hdrop.get hi' hi).1
    rw [hsize _ (List.get_mem _ _)] at this
    exact this
  · cases hmade

/-- The flags of a row of `etc.cred` are those that it is made of. -/
theorem valueAt_flag {a b c : Text} {fs : List Text} (hfs : fs.length = 14) (hc : c.length < 256)
    (h : makeRow A credColumns ([a, b, c] ++ fs) = some r) {colName : Text} {j : ℕ} (hj : j < 14)
    (hpos : columnPos credColumns colName = some (3 + j)) :
    (columnPos credColumns colName).map r.valueAt = fs[j]? := by
  obtain ⟨hfits, more, hvalues⟩ := accountOf_makeRow led_cred h
  obtain ⟨hr, hshort⟩ := makeRow_cred hfs h
  obtain ⟨ha, hvalues⟩ := List.cons.inj hvalues
  have hb := (List.cons.inj hvalues).1
  have hall : ∀ text ∈ [a, b, c] ++ fs, text.length < 256 := by
    have h₁ := hfits.1
    have h₂ := hfits.2.2.1
    intro text ht
    rcases List.mem_append.mp ht with ht | ht
    · simp only [List.mem_cons, List.not_mem_nil, or_false] at ht
      rcases ht with rfl | rfl | rfl
      · rw [ha]
        omega
      · rw [hb]
        omega
      · exact hc
    · have := hshort text ht
      omega
  have hi : 3 + j < ([a, b, c] ++ fs).length := by
    rw [List.length_append, hfs]
    show 3 + j < 3 + 14
    omega
  have hget : ([a, b, c] ++ fs)[3 + j]? = fs[3 + j - 3]? := List.getElem?_append_right (Nat.le_add_right 3 j)
  rw [hpos, Option.map_some, hr, valueAt_ofTexts hall hi, ← List.getElem?_eq_getElem hi, hget, Nat.add_sub_cancel_left]

theorem length_revokedFlags (privList : List Text) (old : ℕ → Text) (pos : ℕ) (cols : List Column) :
    (revokedFlags privList old pos cols).length = cols.length := by
  induction cols generalizing pos with
  | nil => rfl
  | cons col cols ih => exact congrArg (· + 1) (ih (pos + 1))

/-- What is left is what there was. -/
theorem revokedFlags_getElem {privList : List Text} {old : ℕ → Text} {pos : ℕ} {cols : List Column} {j : ℕ}
    (h : (revokedFlags privList old pos cols)[j]? = some YES) : old (pos + j) = YES := by
  induction cols generalizing pos j with
  | nil => cases h
  | cons c cols ih =>
    cases j with
    | zero =>
      have h' : (if c.name ∈ privList then NO else old pos) = YES := Option.some.inj h
      split at h'
      · exact absurd h' (by decide)
      · exact h'
    | succ j =>
      rw [Nat.add_comm j 1, ← Nat.add_assoc]
      exact ih h

theorem length_valueAt_made (h : Made (A := A) cols r) (i : ℕ) : (r.valueAt i).length < 256 := by
  obtain ⟨values, hmade⟩ := h
  obtain ⟨texts, -, hmade⟩ := Option.bind_eq_some_iff.mp hmade
  split at hmade
  · obtain rfl := Option.some.inj hmade
    exact length_valueAt_lt texts i
  · cases hmade

theorem accountOf_made {a b : Text} {more : List Text} (hl : Led cols names) (h : makeRow A cols (a :: b :: more) = some r) :
    accountOf r = ⟨a, b⟩ := by
  obtain ⟨-, more', hvalues⟩ := accountOf_makeRow hl h
  obtain ⟨ha, hvalues⟩ := List.cons.inj hvalues
  exact (congrArg₂ Account.mk ha (List.cons.inj hvalues).1).symm

/-- A row of `etc.cred` with the names of one that there is takes its place. -/
theorem find_cred (hk : acl.Keyed A) {p : ℕ × Row} (hp : p ∈ acl.cred.rows) (h : accountOf r = accountOf p.2) :
    acl.cred.find PK_NDX (acl.cred.primaryKey r) = some p := by
  have hkey : acl.cred.primaryKey r = acl.cred.primaryKey p.2 := by
    rw [hk.cred.primaryKey, hk.cred.primaryKey]
    show padRight 64 ' ' (accountOf r).hostname ++ (padRight 32 ' ' (accountOf r).username ++ []) = _
    rw [h]
    rfl
  rw [hkey, hk.cred.find_row hp]

/-- A row of `etc.priv` with the names of one that there is takes its place. -/
theorem find_priv (hk : acl.Keyed A) {p : ℕ × Row} {fs : List Text} (hfs : fs.length = 10) (hp : p ∈ acl.priv.rows)
    (h : makeRow A privColumns ([p.2.valueAt 0, p.2.valueAt 1, p.2.valueAt 2, p.2.valueAt 3] ++ fs) = some r) :
    acl.priv.find PK_NDX (acl.priv.primaryKey r) = some p := by
  obtain ⟨who, s, fs', ht, rfl, htake⟩ := makeRow_priv h
  rw [List.take_of_length_le (by
    rw [List.length_append, hfs]
    exact le_rfl)] at htake
  simp only [List.cons_append, List.nil_append, List.cons.injEq] at htake
  obtain ⟨h₀, h₁, h₂, h₃, -⟩ := htake
  have hkey : acl.priv.primaryKey (privRowOf who s fs') = acl.priv.primaryKey p.2 := by
    rw [hk.priv.primaryKey, hk.priv.primaryKey, ht.makeKey, makeKey_priv, h₀, h₁, h₂, h₃, List.append_nil, rowKey, Account.key,
      List.append_assoc]
  rw [hkey, hk.priv.find_row hp]

/-- The key of a search for a scope. -/
theorem makeKey_keyRow {s : Scope} (hc : t.columns = privColumns)
    (h : keyRow A t [who.hostname, who.username, s.db, s.tbl] = some r) : makeKey privColumns privKey r = rowKey who s := by
  obtain ⟨texts, hstore, hmade⟩ := Option.bind_eq_some_iff.mp h
  rw [hc] at hstore hmade
  obtain ⟨htake, hall⟩ := storeAll_textual (fun col hcol => privColumns_textual col (List.mem_of_mem_take hcol)) hstore
  have htexts : texts = [who.hostname, who.username, s.db, s.tbl] := htake
  subst htexts
  split at hmade
  · obtain rfl := Option.some.inj hmade
    have hsizes : ∀ col ∈ privColumns, col.size < 256 := by decide
    have hshort : ∀ text ∈ [who.hostname, who.username, s.db, s.tbl] ++ List.replicate 10 [], text.length < 256 := by
      intro text ht
      rcases List.mem_append.mp ht with ht | ht
      · obtain ⟨i, hi, rfl⟩ := List.getElem_of_mem ht
        have hi' := hi
        rw [← hall.length_eq] at hi'
        exact lt_of_le_of_lt (hall.get hi' hi).1 (hsizes _ (List.mem_of_mem_take (List.get_mem _ _)))
      · rw [List.eq_of_mem_replicate ht]
        decide
    show makeKey privColumns privKey (Row.start [who.hostname, who.username, s.db, s.tbl] 10) = _
    rw [Row.start_eq, makeKey_priv, valueAt_ofTexts hshort (i := 0) (by simp), valueAt_ofTexts hshort (i := 1) (by simp),
      valueAt_ofTexts hshort (i := 2) (by simp), valueAt_ofTexts hshort (i := 3) (by simp), List.append_nil, rowKey, Account.key,
      List.append_assoc]
    rfl
  · cases hmade

variable {s : Session} {g : GrantStmt}

theorem createUser_effect (hk : acl.Keyed A) {password : Text} (h : createUser A D acl s who password = some acl') :
    Effect A acl s (.createUser who password) acl' := by
  rw [createUser] at h
  split at h
  · obtain ⟨rw_, hr, h⟩ := Option.bind_eq_some_iff.mp h
    split at h
    · cases h
    · rename_i hfresh
      obtain ⟨digest, hd, h⟩ := Option.bind_eq_some_iff.mp h
      obtain ⟨row, hrow, h⟩ := Option.bind_eq_some_iff.mp h
      obtain rfl := Option.some.inj h
      rw [hk.cred.columns] at hrow
      have hwho : accountOf row = who := accountOf_made led_cred hrow
      have hkey : acl.cred.primaryKey row = acl.cred.primaryKey rw_ := by
        obtain ⟨-, hrw⟩ := accountOf_keyRow led_cred hk.cred.columns hr
        rw [hk.cred.primaryKey, hk.cred.primaryKey]
        show padRight 64 ' ' (accountOf row).hostname ++ (padRight 32 ' ' (accountOf row).username ++ []) =
          padRight 64 ' ' (accountOf rw_).hostname ++ (padRight 32 ' ' (accountOf rw_).username ++ [])
        rw [hwho, hrw]
      refine .created ⟨_, hrow⟩ hwho (hkey ▸ hfresh) fun colName hcol => ?_
      obtain ⟨j, hj, hpos⟩ := columnPos_cred colName hcol
      have hlt : digest.length < 256 := by
        rw [D.length_hashText _ _ hd]
        decide
      rw [valueAt_flag (by decide) hlt hrow hj hpos, List.getElem?_map]
      cases (credColumns.drop 3)[j]? with
      | none => exact fun hn => by cases hn
      | some col => exact fun hn => absurd (Option.some.inj hn) (show NO ≠ YES by decide)
  · cases h

/-- A row of `etc.cred` with other flags. -/
theorem credChanged_effect (hk : acl.Keyed A) {stmt : AccountStmt} {p : ℕ × Row} {fs : List Text}
    (hfor : stmt = .grant g ∧ g.isGlobal = true ∨ stmt = .revoke g) (hp : credRow A acl g.account = some p) (hfs : fs.length = 14)
    (h : makeRow A credColumns ([p.2.valueAt 0, p.2.valueAt 1, p.2.valueAt 2] ++ fs) = some r)
    (hflags : stmt = .revoke g → ∀ j, fs[j]? = some YES → p.2.valueAt (3 + j) = YES) :
    Effect A acl s stmt { acl with cred := acl.cred.update r } := by
  obtain ⟨hmem, hown⟩ := credRow_account hk hp
  have hnames : accountOf r = accountOf p.2 := accountOf_made led_cred h
  refine .credChanged hfor (find_cred hk hmem hnames) hown ⟨_, h⟩ hnames fun hrevoke hno colName hcol hyes => ?_
  obtain ⟨j, hj, hpos⟩ := columnPos_cred colName hcol
  rw [valueAt_flag hfs (length_valueAt_made (hk.cred.rows p hmem) 2) h hj hpos] at hyes
  refine hno colName hcol ?_
  rw [hpos, Option.map_some, hflags hrevoke j hyes]

/-- A row of `etc.priv` with other flags. -/
theorem privChanged_effect (hk : acl.Keyed A) {stmt : AccountStmt} {p : ℕ × Row} {fs : List Text}
    (hfor : stmt = .grant g ∨ stmt = .revoke g) (hp : privRow A acl g.account (g.scope s) = some (some p)) (hfs : fs.length = 10)
    (h : makeRow A privColumns ([p.2.valueAt 0, p.2.valueAt 1, p.2.valueAt 2, p.2.valueAt 3] ++ fs) = some r) :
    Effect A acl s stmt { acl with priv := acl.priv.update r } := by
  obtain ⟨rw_, -, hf⟩ := Option.bind_eq_some_iff.mp hp
  have hmem := (hk.priv.wf.find_mem (Option.some.inj hf)).1
  exact .privChanged hfor hp (find_priv hk hfs hmem h) ⟨_, h⟩ (accountOf_made led_priv h)

theorem grant_effect (hk : acl.Keyed A) (h : grant A acl s g = some acl') : Effect A acl s (.grant g) acl' := by
  rw [grant] at h
  split at h
  · split at h
    · rename_i hglobal
      obtain ⟨p, hp, h⟩ := Option.bind_eq_some_iff.mp h
      obtain ⟨row, hrow, h⟩ := Option.bind_eq_some_iff.mp h
      obtain rfl := Option.some.inj h
      rw [hk.cred.columns] at hrow
      exact credChanged_effect hk (Or.inl ⟨rfl, hglobal⟩) hp (length_flags ..) hrow fun hn => by cases hn
    · rename_i hlocal
      obtain ⟨q, hq, h⟩ := Option.bind_eq_some_iff.mp h
      dsimp only at h
      obtain ⟨found, hp, h⟩ := Option.bind_eq_some_iff.mp h
      cases found with
      | none =>
        obtain ⟨row, hrow, h⟩ := Option.bind_eq_some_iff.mp h
        obtain rfl := Option.some.inj h
        rw [hk.priv.columns] at hrow
        obtain ⟨rw_, hr, hf⟩ := Option.bind_eq_some_iff.mp hp
        obtain ⟨ht, hrow'⟩ := makeRow_flags hrow
        have hkey : acl.priv.primaryKey row = acl.priv.primaryKey rw_ := by
          rw [hk.priv.primaryKey, hk.priv.primaryKey, makeKey_keyRow hk.priv.columns hr, hrow', ht.makeKey]
          rfl
        exact .privMade (Bool.eq_false_iff.mpr hlocal) hq hp (hkey ▸ Option.some.inj hf) ⟨_, hrow⟩ (accountOf_made led_priv hrow)
      | some p =>
        obtain ⟨row, hrow, h⟩ := Option.bind_eq_some_iff.mp h
        obtain rfl := Option.some.inj h
        rw [hk.priv.columns] at hrow
        exact privChanged_effect hk (Or.inl rfl) hp (length_flags ..) hrow
  · cases h

theorem revoke_effect (hk : acl.Keyed A) (h : revoke A acl s g = some acl') : Effect A acl s (.revoke g) acl' := by
  rw [revoke] at h
  split at h
  · split at h
    · obtain ⟨p, hp, h⟩ := Option.bind_eq_some_iff.mp h
      obtain ⟨row, hrow, h⟩ := Option.bind_eq_some_iff.mp h
      obtain rfl := Option.some.inj h
      rw [hk.cred.columns] at hrow
      exact credChanged_effect hk (Or.inr rfl) hp (length_revokedFlags ..) hrow fun _ j hj => revokedFlags_getElem hj
    · obtain ⟨q, hq, h⟩ := Option.bind_eq_some_iff.mp h
      dsimp only at h
      obtain ⟨found, hp, h⟩ := Option.bind_eq_some_iff.mp h
      cases found with
      | none => cases h
      | some p =>
        obtain ⟨row, hrow, h⟩ := Option.bind_eq_some_iff.mp h
        obtain rfl := Option.some.inj h
        rw [hk.priv.columns] at hrow
        exact privChanged_effect hk (Or.inr rfl) hp (length_revokedFlags ..) hrow
  · cases h

theorem dropUser_effect (hk : acl.Keyed A) (h : dropUser A acl s who = some acl') : Effect A acl s (.dropUser who) acl' := by
  rw [dropUser] at h
  split at h
  · obtain ⟨mid, hmid, h⟩ := Option.map_eq_some_iff.mp h
    obtain ⟨p, hp, hmid⟩ := Option.bind_eq_some_iff.mp hmid
    obtain rfl := Option.some.inj hmid
    subst h
    have hmem := (credRow_account hk hp).1
    rw [hk.cred.wf.remove_found (hk.cred.find_row hmem)]
    exact .dropped hp
  · cases h

theorem execAccount_effect (hk : acl.Keyed A) {stmt : AccountStmt} (h : execAccount A D acl s stmt = some acl') :
    Effect A acl s stmt acl' := by
  cases stmt with
  | createUser who password => exact createUser_effect hk h
  | grant g => exact grant_effect hk h
  | revoke g => exact revoke_effect hk h
  | dropUser who => exact dropUser_effect hk h

/-! ### Steps -/

@[simp] theorem accounts_insert (t : Table) (r : Row) : accounts (t.insert r) = accounts t ++ [accountOf r] := List.map_append

/-- A row with the same names changes no names. -/
theorem accounts_update (h : t.Wf) {p : ℕ × Row} (hf : t.find PK_NDX (t.primaryKey r) = some p) (hr : accountOf r = accountOf p.2) :
    accounts (t.update r) = accounts t := by
  rcases update_cases hf with he | ⟨-, he⟩
  · rw [he]
  · rw [he, accounts, accounts, List.map_map]
    refine List.map_congr_left fun q hq => ?_
    show accountOf (if q.1 = p.1 then (q.1, r) else q).2 = _
    split
    · rename_i hplace
      rw [List.inj_on_of_nodup_map h.places hq (h.find_mem hf).1 hplace, hr]
    · rfl

theorem mem_accounts {a : Account} : a ∈ accounts t ↔ ∃ p ∈ t.rows, accountOf p.2 = a := List.mem_map

theorem primaryKey_cred (hk : acl.Keyed A) (r : Row) : acl.cred.primaryKey r = (accountOf r).key := by
  rw [hk.cred.primaryKey]
  show padRight 64 ' ' (r.valueAt 0) ++ (padRight 32 ' ' (r.valueAt 1) ++ []) = _
  rw [List.append_nil]
  rfl

/-- No two rows of `etc.cred` are of one account, by its key. -/
theorem cred_unique (hk : acl.Keyed A) {p q : ℕ × Row} (hp : p ∈ acl.cred.rows) (hq : q ∈ acl.cred.rows)
    (h : (accountOf p.2).key = (accountOf q.2).key) : p = q :=
  hk.cred.eq_of_key hp hq (by rw [primaryKey_cred hk, primaryKey_cred hk, h])

theorem Effect.keyed {stmt : AccountStmt} (hk : acl.Keyed A) (h : Effect A acl s stmt acl') : acl'.Keyed A := by
  cases h with
  | created made _ fresh _ => exact ⟨hk.cred.insert made fresh, hk.priv⟩
  | credChanged _ found _ made _ _ => exact ⟨hk.cred.update made found, hk.priv⟩
  | privMade _ _ _ fresh made _ => exact ⟨hk.cred, hk.priv.insert made fresh⟩
  | privChanged _ _ found made _ => exact ⟨hk.cred, hk.priv.update made found⟩
  | dropped _ => exact ⟨hk.cred.removeAt _, (@dropUserLocal_rows A { acl with cred := acl.cred.removeAt _ } hk.priv _).1⟩

/-- A statement keeps every privilege with an account if and only if it writes the names as they
are in the rows. -/
theorem Effect.owned_iff {stmt : AccountStmt} (hk : acl.Keyed A) (ho : Owned acl) (h : Effect A acl s stmt acl') :
    Owned acl' ↔ Spelled A acl (s, stmt) := by
  cases h with
  | created made names fresh flags =>
    refine iff_of_true (fun who hwho => ?_) trivial
    rw [accounts_insert]
    exact List.mem_append_left _ (ho who hwho)
  | @credChanged _ g p row isFor found own made names flags =>
    refine iff_of_true (fun who hwho => ?_) ?_
    · show who ∈ accounts (acl.cred.update row)
      rw [accounts_update hk.cred.wf found names]
      exact ho who hwho
    · rcases isFor with ⟨rfl, hglobal⟩ | rfl
      · intro hlocal
        rw [hglobal] at hlocal
        cases hlocal
      · trivial
  | @privMade g p row isLocal account new fresh made names =>
    obtain ⟨hp, hkey⟩ := credRow_account hk account
    constructor
    · intro ho' _ _ q hq
      obtain rfl := Option.some.inj (account.symm.trans hq)
      have hmem : g.account ∈ accounts (acl.priv.insert row) := by
        rw [accounts_insert, names]
        exact List.mem_append_right _ (List.mem_singleton_self _)
      obtain ⟨q, hq', hname⟩ := mem_accounts.mp (ho' g.account hmem)
      rw [cred_unique hk hp hq' (by rw [hkey, hname]), hname]
    · intro hs who hwho
      have hwho : who ∈ accounts (acl.priv.insert row) := hwho
      rw [accounts_insert, names] at hwho
      rcases List.mem_append.mp hwho with hwho | hwho
      · exact ho who hwho
      · rw [List.mem_singleton.mp hwho]
        exact mem_accounts.mpr ⟨p, hp, hs isLocal new p account⟩
  | @privChanged _ g p row isFor own found made names =>
    refine iff_of_true (fun who hwho => ?_) ?_
    · have hwho : who ∈ accounts (acl.priv.update row) := hwho
      rw [accounts_update hk.priv.wf found names] at hwho
      exact ho who hwho
    · rcases isFor with rfl | rfl
      · intro _ hnew
        rw [own] at hnew
        cases Option.some.inj hnew
      · trivial
  | @dropped who p account =>
    obtain ⟨hp, hkey⟩ := credRow_account hk account
    have hrows := (@dropUserLocal_rows A { acl with cred := acl.cred.removeAt p.1 } hk.priv who).2
    have hcred : (dropUserLocal { acl with cred := acl.cred.removeAt p.1 } who).cred = acl.cred.removeAt p.1 := rfl
    -- only the row of the account is gone
    have hleft : ∀ a, a ∈ accounts (acl.cred.removeAt p.1) ↔ a ∈ accounts acl.cred ∧ a.key ≠ who.key := by
      intro a
      rw [mem_accounts, mem_accounts, Table.removeAt_rows]
      constructor
      · rintro ⟨q, hq, rfl⟩
        obtain ⟨hq, hplace⟩ := List.mem_filter.mp hq
        refine ⟨⟨q, hq, rfl⟩, fun he => of_decide_eq_true hplace ?_⟩
        rw [cred_unique hk hq hp (he.trans hkey.symm)]
      · rintro ⟨⟨q, hq, rfl⟩, hne⟩
        refine ⟨q, List.mem_filter.mpr ⟨hq, decide_eq_true fun hplace => hne ?_⟩, rfl⟩
        rw [List.inj_on_of_nodup_map hk.cred.wf.places hq hp hplace, hkey]
    constructor
    · intro ho' q hq hown
      by_contra hne
      have hmem : accountOf q.2 ∈ accounts (dropUserLocal { acl with cred := acl.cred.removeAt p.1 } who).priv := by
        rw [mem_accounts, hrows]
        exact ⟨q, List.mem_filter.mpr ⟨hq, decide_eq_true hne⟩, rfl⟩
      have := ho' _ hmem
      rw [hcred, hleft] at this
      exact this.2 hown
    · intro hs a ha
      rw [mem_accounts, hrows] at ha
      obtain ⟨q, hq, rfl⟩ := ha
      obtain ⟨hq, hne⟩ := List.mem_filter.mp hq
      rw [hcred, hleft]
      exact ⟨ho _ (mem_accounts.mpr ⟨q, hq, rfl⟩), fun hown => of_decide_eq_true hne (hs q hq hown)⟩

theorem mem_update {p q : ℕ × Row} (hf : t.find PK_NDX (t.primaryKey r) = some p) (hq : q ∈ (t.update r).rows) : q ∈ t.rows ∨ q.2 = r := by
  rcases update_cases hf with he | ⟨-, he⟩
  · exact Or.inl (he ▸ hq)
  · rw [he] at hq
    obtain ⟨q', hq', rfl⟩ := List.mem_map.mp hq
    split
    · exact Or.inr rfl
    · exact Or.inl hq'

theorem bare_iff (hk : acl.Keyed A) : Bare acl who ↔ (∀ p ∈ acl.priv.rows, (accountOf p.2).key ≠ who.key) ∧
    ∀ p ∈ acl.cred.rows, (accountOf p.2).key = who.key → NoFlags p.2 := by
  have hvalue : ∀ (r : Row) (colName : Text), valueOf acl.cred r colName = (columnPos credColumns colName).map r.valueAt := fun r colName => by
    rw [valueOf, hk.cred.columns]
  simp only [← hvalue, NoFlags]
  exact ⟨fun h => ⟨h.priv, h.cred⟩, fun h => ⟨h.1, h.2⟩⟩

/-- An account that nothing is granted to stays so, until something is. -/
theorem Effect.bare {stmt : AccountStmt} (hk : acl.Keyed A) (hb : Bare acl who) (hn : ¬stmt.GrantsTo who)
    (h : Effect A acl s stmt acl') : Bare acl' who := by
  have hk' := h.keyed hk
  rw [bare_iff hk] at hb
  rw [bare_iff hk']
  obtain ⟨hpriv, hcred⟩ := hb
  cases h with
  | created made names fresh flags =>
    refine ⟨hpriv, fun q hq hown => ?_⟩
    rcases List.mem_append.mp hq with hq | hq
    · exact hcred q hq hown
    · rw [List.mem_singleton.mp hq]
      exact flags
  | @credChanged _ g p row isFor found own made names flags =>
    refine ⟨hpriv, fun q hq hown => ?_⟩
    rcases mem_update found hq with hq | hq
    · exact hcred q hq hown
    · rw [hq, names] at hown
      rw [hq]
      rcases isFor with ⟨rfl, -⟩ | rfl
      · exact absurd (own.symm.trans hown) hn
      · exact flags rfl (hcred p (hk.cred.wf.find_mem found).1 hown)
  | @privMade g p row isLocal account new fresh made names =>
    refine ⟨fun q hq hown => ?_, hcred⟩
    rcases List.mem_append.mp hq with hq | hq
    · exact hpriv q hq hown
    · rw [List.mem_singleton.mp hq, names] at hown
      exact hn hown
  | @privChanged _ g p row isFor own found made names =>
    refine ⟨fun q hq hown => ?_, hcred⟩
    rcases mem_update found hq with hq | hq
    · exact hpriv q hq hown
    · rw [hq, names] at hown
      exact hpriv p (hk.priv.wf.find_mem found).1 hown
  | @dropped who' p account =>
    refine ⟨fun q hq hown => ?_, fun q hq hown => hcred q (List.mem_filter.mp hq).1 hown⟩
    rw [(@dropUserLocal_rows A { acl with cred := acl.cred.removeAt p.1 } hk.priv who').2] at hq
    exact hpriv q (List.mem_filter.mp hq).1 hown

/-- A new account has no privileges. -/
theorem createUser_bare (hk : acl.Keyed A) (ho : Owned acl) {password : Text}
    (h : createUser A D acl s who password = some acl') : Bare acl' who := by
  have he := createUser_effect hk h
  rw [bare_iff (he.keyed hk)]
  cases he with
  | @created _ _ row made names fresh flags =>
    have hnone : ∀ q ∈ acl.cred.rows, (accountOf q.2).key ≠ who.key := by
      intro q hq hown
      have hf := hk.cred.find_row hq
      rw [primaryKey_cred hk, hown, ← names, ← primaryKey_cred hk, fresh] at hf
      cases hf
    refine ⟨fun q hq hown => ?_, fun q hq hown => ?_⟩
    · obtain ⟨q', hq', hname⟩ := mem_accounts.mp (ho _ (mem_accounts.mpr ⟨q, hq, rfl⟩))
      exact hnone q' hq' (by rw [hname, hown])
    · rcases List.mem_append.mp hq with hq | hq
      · exact absurd hown (hnone q hq)
      · rw [List.mem_singleton.mp hq]
        exact flags
  | credChanged isFor _ _ _ _ _ =>
    rcases isFor with ⟨he, -⟩ | he <;> cases he
  | privChanged isFor _ _ _ _ =>
    rcases isFor with he | he <;> cases he

/-- An account that nothing is granted to passes no check. -/
theorem Bare.verifyPrivilege (hk : acl.Keyed A) (hb : Bare acl who) (o : Scope) {colName : Text} (hcol : colName ∈ GLOBAL_PRIVILEGE_LIST) :
    verifyPrivilege A acl who o colName = false := by
  have hrow : ∀ sc q, privRow A acl who sc ≠ some (some q) := fun sc q hq => by
    obtain ⟨rw_, hr, hf⟩ := Option.bind_eq_some_iff.mp hq
    obtain ⟨hm, hown⟩ := find_account led_priv hk.priv hr (Option.some.inj hf)
    exact hb.priv q hm hown
  have hfirst : ∀ scs r, firstRow A acl who scs ≠ some (some r) := fun scs => by
    induction scs with
    | nil => exact fun r h => by cases h
    | cons sc scs ih =>
      intro r h
      obtain ⟨found, hfound, h⟩ := Option.bind_eq_some_iff.mp h
      cases found with
      | none => exact ih r h
      | some q => exact hrow sc q hfound
  have hlocal : verifyLocalPrivilege A acl who o colName ≠ some true := fun h => by
    obtain ⟨found, hfound, h⟩ := Option.bind_eq_some_iff.mp h
    cases found with
    | none => cases h
    | some r => exact hfirst _ r hfound
  have hglobal : verifyGlobalPrivilege A acl who colName ≠ some true := fun h => by
    obtain ⟨rw_, hr, h⟩ := Option.bind_eq_some_iff.mp h
    split at h
    · cases h
    · rename_i p hf
      obtain ⟨hm, hown⟩ := find_account led_cred hk.cred hr hf
      obtain ⟨value, hvalue, h⟩ := Option.bind_eq_some_iff.mp h
      rw [of_decide_eq_true (Option.some.inj h)] at hvalue
      exact hb.cred p hm hown colName hcol hvalue
  rw [Dml.verifyPrivilege]
  cases h : verifyGlobalPrivilege A acl who colName with
  | none => rfl
  | some b =>
    cases b with
    | true => exact absurd h hglobal
    | false => exact decide_eq_false hlocal

/-! ### Runs -/

/-- A step keeps the keys, and every privilege with an account if it writes the names as they are. -/
theorem accountStep_owned {a : Session × AccountStmt} (h : acl.Keyed A ∧ Owned acl) (ha : Spelled A acl a)
    (hstep : accountStep A D acl a = some acl') : acl'.Keyed A ∧ Owned acl' := by
  obtain rfl := Option.some.inj hstep
  cases he : execAccount A D acl a.1 a.2 with
  | none => exact h
  | some acl' =>
    have heffect := execAccount_effect h.1 he
    exact ⟨heffect.keyed h.1, (heffect.owned_iff h.1 h.2).mpr ha⟩

theorem accountStep_bare {a : Session × AccountStmt} (h : acl.Keyed A ∧ Bare acl who) (ha : ¬a.2.GrantsTo who)
    (hstep : accountStep A D acl a = some acl') : acl'.Keyed A ∧ Bare acl' who := by
  obtain rfl := Option.some.inj hstep
  cases he : execAccount A D acl a.1 a.2 with
  | none => exact h
  | some acl' =>
    have heffect := execAccount_effect h.1 he
    exact ⟨heffect.keyed h.1, heffect.bare h.1 h.2 ha⟩

/-- No privilege outlives its user over a run whose statements write the names as they are in the
rows. -/
theorem privileges_end_with_users {acl : Acl} {as : List (Session × AccountStmt)} (hk : acl.Keyed A) (hpriv : acl.priv.rows = [])
    (hok : Always (accountStep A D) (Spelled A) acl as) : PrivilegesEnd A D acl as := by
  have hstart : acl.Keyed A ∧ Owned acl := by
    refine ⟨hk, fun who hwho => ?_⟩
    rw [accounts, hpriv] at hwho
    cases hwho
  refine ⟨?_, ?_⟩
  · rintro pre post acl' rfl hrun
    exact (run_invariant (fun _ _ _ => accountStep_owned) hstart hok.left hrun).2
  · rintro pre s who password post acl₁ acl₂ acl' rfl hpre hcreate hpost hno
    obtain ⟨hk₁, ho₁⟩ := run_invariant (fun _ _ _ => accountStep_owned) hstart hok.left hpre
    have hk₂ := (createUser_effect hk₁ hcreate).keyed hk₁
    have hno' : Always (accountStep A D) (fun _ a => ¬a.2.GrantsTo who) acl₂ post := by
      rintro pre' a post' acl'' rfl -
      exact hno a (List.mem_append_right _ List.mem_cons_self)
    obtain ⟨hk', hb'⟩ := run_invariant (fun _ _ _ => accountStep_bare) ⟨hk₂, createUser_bare hk₁ ho₁ hcreate⟩ hno' hpost
    exact fun o colName hcol => hb'.verifyPrivilege hk' o hcol

/-! ### A name with a blank -/

/-- The tables as they are installed: the account of `root`, and no privileges. -/
def installed : Acl where
  cred :=
    { name := ("etc".toList, "cred".toList)
      columns := credColumns
      indexList := [{ name := PK_NDX, isUnique := true, colNameList := credKey
                      elements := [(Account.key rootSession.who, 0)] }]
      foreignList := []
      rows := [(0, Row.ofTexts ([['h'], "root".toList, ['x']] ++ List.replicate 14 YES))]
      next := 1 }
  priv :=
    { name := ("etc".toList, "priv".toList)
      columns := privColumns
      indexList := [{ name := PK_NDX, isUnique := true, colNameList := privKey, elements := [] }]
      foreignList := []
      rows := []
      next := 0 }

theorem installed_keyed : installed.Keyed wholeNumbers where
  cred := by
    refine ⟨⟨⟨by decide, by decide, by decide, by decide, by decide⟩, ⟨_, rfl, rfl⟩⟩, rfl, ⟨_, rfl⟩, fun p hp => ?_, by decide⟩
    obtain rfl := List.mem_singleton.mp hp
    exact ⟨[['h'], "root".toList, ['x']] ++ List.replicate 14 YES, by decide⟩
  priv := ⟨⟨⟨by decide, by decide, by decide, by decide, by decide⟩, ⟨_, rfl, rfl⟩⟩, rfl, ⟨_, rfl⟩, fun p hp => (by cases hp), by decide⟩

/-- A digest for every password. -/
def sameDigest : Digest where
  hashText _ := some (List.replicate 64 'A')
  length_hashText _ _ h := by
    obtain rfl := Option.some.inj h
    rfl

/-- `CREATE USER 'bob'@'h' IDENTIFIED BY 'p'`, `GRANT SELECT ON d.t TO` the account of this name and
`DROP USER 'bob'@'h'`. -/
def bobComesAndGoes (username : String) : List (Session × AccountStmt) :=
  [(rootSession, .createUser bob ['p']), (rootSession, .grant ⟨["select_priv".toList], ['d'], ['t'], username.toList, ['h']⟩),
    (rootSession, .dropUser bob)]

/-- The account that is made anew has no privilege of the one before. -/
theorem bob_spelled :
    PrivilegesEnd wholeNumbers sameDigest installed (bobComesAndGoes "bob" ++ [(rootSession, .createUser bob ['p'])]) := by
  refine privileges_end_with_users installed_keyed rfl ?_
  refine always_cons (by decide +kernel) fun acl₁ h₁ => ?_
  obtain rfl := Option.some.inj h₁
  refine always_cons (by decide +kernel) fun acl₂ h₂ => ?_
  obtain rfl := Option.some.inj h₂
  refine always_cons (by decide +kernel) fun acl₃ h₃ => ?_
  obtain rfl := Option.some.inj h₃
  exact always_cons (by decide +kernel) fun acl₄ _ => always_nil

/-- A privilege that is granted to `'bob '` is there after `bob` is gone. -/
theorem privilege_outlives_bob : ¬∀ (A : Arith) (D : Digest) (acl : Acl) (as : List (Session × AccountStmt)), acl.Keyed A →
    acl.priv.rows = [] → PrivilegesEnd A D acl as := by
  intro hall
  have hend := hall wholeNumbers sameDigest installed (bobComesAndGoes "bob " ++ [(rootSession, .createUser bob ['p'])]) installed_keyed rfl
  obtain ⟨acl₁, h₁⟩ := Option.isSome_iff_exists.mp
    (show (Actions.run (accountStep wholeNumbers sameDigest) installed (bobComesAndGoes "bob ")).isSome = true by decide +kernel)
  have hcreated : ((Actions.run (accountStep wholeNumbers sameDigest) installed (bobComesAndGoes "bob ")).bind fun acl =>
      (createUser wholeNumbers sameDigest acl rootSession bob ['p']).map fun acl =>
        verifyPrivilege wholeNumbers acl bob tableT.toScope "select_priv".toList) = some true := by decide +kernel
  rw [h₁, Option.bind_some, Option.map_eq_some_iff] at hcreated
  obtain ⟨acl₂, h₂, hverify⟩ := hcreated
  have hbare := hend.bare _ _ _ _ [] acl₁ acl₂ acl₂ rfl h₁ h₂ rfl (fun _ ha => absurd ha List.not_mem_nil) tableT.toScope
    "select_priv".toList (by decide)
  rw [hverify] at hbare
  cases hbare

end RedB.Dml
