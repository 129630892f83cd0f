import RedB.Dml.Privileges
import RedB.Theory.Scopes

/-!
# What a GRANT changes

The rows of `etc.priv` are entries of permissions, by their keys, and a check goes along the
keys of its scopes (`verifyLocal_iff`). GRANT adds to the entry of its scope (`entries_grant`).

GRANT keeps what there was and adds what it names and nothing else, for all tables of what it
names, if and only if the new row, where one is made, hides nothing, the privileges are
privileges on tables, and no narrower row is in their way (`grant_exact_iff`).
-/

namespace RedB.Dml

open RedB.Tran (lower)

variable (A : Arith)

/-- A name that a row of `etc.priv` can hold. -/
def FitsName (name : Text) : Prop := name.length ≤ 32 ∧ lower name ≠ "null".toList ∧ name.getLast? ≠ some ' '

instance (name : Text) : Decidable (FitsName name) := inferInstanceAs (Decidable (_ ∧ _ ∧ _))

/-- A table, or all tables of a database, by names that `etc.priv` can hold. -/
structure Obj extends Scope where
  db_fits : FitsName db
  tbl_fits : FitsName tbl

/-- What is covered: the object itself, and the tables of a database. -/
def Obj.Covers (o obj : Obj) : Prop := obj.toScope = o.toScope ∨ o.tbl = ASTERISK ∧ obj.db = o.db

/-- The privileges that a list stands for, on tables. -/
def Granted (privList : List Text) (p : Text) : Prop :=
  p ∈ privList ∧ p ≠ ALL_PRIV ∨ ALL_PRIV ∈ privList ∧ p ∈ LOCAL_PRIVILEGE_LIST ∧ p ≠ GRANT_PRIV

/-- The key of an account in `etc.cred`. -/
def Account.key (who : Account) : Text := padRight 64 ' ' who.hostname ++ padRight 32 ' ' who.username

/-- The columns of `etc.cred`, of `make_cred_schema`. -/
def credColumns : List Column :=
  [keyColumn "hostname" 64, keyColumn "username" 32, { keyColumn "password" 256 with isPrimary := false, isUnique := false }] ++
    ["select_priv", "insert_priv", "update_priv", "delete_priv", "index_priv", "alter_priv", "create_priv", "drop_priv", "grant_priv",
      "reload_priv", "shutdown_priv", "file_priv", "show_db_priv", "create_user_priv"].map privColumn

/-- The tables of the privileges as they are made and kept. -/
structure Acl.Wf (acl : Acl) : Prop where
  cred : acl.cred.columns = credColumns
  priv : acl.priv.Wf
  columns : acl.priv.columns = privColumns
  index : ∃ elements, acl.priv.indexList = [{ name := PK_NDX, isUnique := true, colNameList := privKey, elements := elements }]
  rows : ∀ p ∈ acl.priv.rows, ∃ values, makeRow A privColumns values = some p.2

/-- A GRANT keeps all privileges of the account and adds those it names on what it
names, and no others; nothing changes for other accounts. -/
structure Exact (acl acl' : Acl) (who : Account) (o : Obj) (privList : List Text) : Prop where
  keeps : ∀ obj : Obj, ∀ p ∈ GLOBAL_PRIVILEGE_LIST, verifyPrivilege A acl who obj.toScope p = true →
    verifyPrivilege A acl' who obj.toScope p = true
  gives : ∀ obj : Obj, o.Covers obj → ∀ p ∈ GLOBAL_PRIVILEGE_LIST, Granted privList p → verifyPrivilege A acl' who obj.toScope p = true
  only : ∀ obj : Obj, ∀ p ∈ GLOBAL_PRIVILEGE_LIST, verifyPrivilege A acl who obj.toScope p = false → ¬(o.Covers obj ∧ Granted privList p) →
    verifyPrivilege A acl' who obj.toScope p = false
  others : ∀ who' : Account, who'.key ≠ who.key → ∀ (obj : Obj) (p : Text),
    verifyPrivilege A acl' who' obj.toScope p = verifyPrivilege A acl who' obj.toScope p

/-- No row is hidden by a new one or is in the way of what is granted. -/
structure Unhidden (acl : Acl) (who : Account) (o : Obj) (privList : List Text) : Prop where
  /-- Where the object has no row, its account may do on it what is granted or is allowed everywhere. -/
  fresh : privRow A acl who o.toScope = some none → ∀ p ∈ GLOBAL_PRIVILEGE_LIST, verifyPrivilege A acl who o.toScope p = true →
    Granted privList p ∨ verifyGlobalPrivilege A acl who p = some true
  /-- What is granted can be granted on tables or is allowed everywhere. -/
  onTables : ∀ p ∈ GLOBAL_PRIVILEGE_LIST, Granted privList p →
    p ∈ LOCAL_PRIVILEGE_LIST ∨ verifyGlobalPrivilege A acl who p = some true
  /-- A table of the database with a row of its own has what is granted. -/
  narrow : ∀ obj : Obj, o.Covers obj → obj.toScope ≠ o.toScope → (∃ q, privRow A acl who obj.toScope = some (some q)) →
    ∀ p ∈ GLOBAL_PRIVILEGE_LIST, Granted privList p → verifyPrivilege A acl who obj.toScope p = true

variable {A}

/-! ### Values of names and privileges -/

/-- A column of texts that are not null. -/
def Column.Textual (col : Column) : Prop := col.isNotNull = true ∧ col.isAutoInc = false ∧ (col.type = .varchar ∨ col.type = .enum)

instance (col : Column) : Decidable col.Textual := inferInstanceAs (Decidable (_ ∧ _ ∧ (_ ∨ _)))

theorem notNullCompliant_textual {col : Column} (h : col.Textual) (value : Text) :
    col.notNullCompliant value = decide (lower value ≠ "null".toList) := by
  rw [Column.notNullCompliant, h.1, h.2.1]
  rfl

theorem format_textual {col : Column} (h : col.Textual) (value : Text) : col.format A value = some value := by
  rw [Column.format, if_neg (by rw [h.2.1]; decide)]
  rcases h.2.2 with ht | ht
  all_goals
    rw [ht]
    dsimp only
    split <;> rfl

/-- What such a column takes is stored as it is. -/
theorem take_textual {col : Column} (h : col.Textual) {value text : Text} (ht : col.take A value = some text) :
    text = value ∧ value.length ≤ col.size ∧ lower value ≠ "null".toList ∧ (col.type = .enum → value ∈ col.enumList) := by
  rw [Column.take] at ht
  split at ht
  · rename_i hacc
    rw [Column.accepts, Bool.and_eq_true, decide_eq_true_eq] at hacc
    obtain ⟨hvalid, hlen⟩ := hacc
    rw [Column.isValid, notNullCompliant_textual h] at hvalid
    by_cases hn : lower value = "null".toList
    · rw [if_pos (by rw [hn]; decide)] at hvalid
      cases hvalid
    · have hnull : value ≠ "null".toList := by
        rintro rfl
        exact hn (by decide)
      rw [if_neg (by rw [decide_eq_true hn]; decide), if_neg hn, if_neg (by omega)] at hvalid
      rw [Column.store, if_neg hnull, format_textual h] at ht
      refine ⟨(Option.some.inj ht).symm, hlen, hn, fun he => ?_⟩
      rw [he] at hvalid
      exact List.contains_iff_mem.mp hvalid
  · cases ht

/-- A name is taken if there is room for it. -/
theorem take_varchar {col : Column} (h : col.Textual) (hv : col.type = .varchar) {value : Text} (hlen : value.length ≤ col.size)
    (hn : lower value ≠ "null".toList) : col.take A value = some value := by
  have hnull : value ≠ "null".toList := by
    rintro rfl
    exact hn (by decide)
  have hvalid : col.isValid A value = true := by
    rw [Column.isValid, notNullCompliant_textual h, if_neg (by rw [decide_eq_true hn]; decide), if_neg hn, if_neg (by omega), hv]
  rw [Column.take, if_pos (by rw [Column.accepts, hvalid, decide_eq_true hlen, Bool.and_true]), Column.store, if_neg hnull,
    format_textual h]

/-- What the columns make of their values. -/
theorem storeAll_textual {cols : List Column} (hcols : ∀ col ∈ cols, col.Textual) {values texts : List Text}
    (h : storeAll A cols values = some texts) : texts = values.take cols.length ∧
      List.Forall₂ (fun col text => text.length ≤ col.size ∧ lower text ≠ "null".toList ∧ (col.type = .enum → text ∈ col.enumList))
        cols texts := by
  induction cols generalizing values texts with
  | nil =>
    obtain rfl := Option.some.inj h
    exact ⟨rfl, .nil⟩
  | cons col cols ih =>
    cases values with
    | nil => cases h
    | cons value values =>
      obtain ⟨text, ht, h'⟩ := Option.bind_eq_some_iff.mp h
      obtain ⟨rest, hrest, hcons⟩ := Option.bind_eq_some_iff.mp h'
      obtain rfl := Option.some.inj hcons
      obtain ⟨rfl, hlen, hn, he⟩ := take_textual (hcols col List.mem_cons_self) ht
      obtain ⟨htake, hall⟩ := ih (fun c hc => hcols c (List.mem_cons_of_mem _ hc)) hrest
      exact ⟨congrArg (text :: ·) htake, .cons ⟨hlen, hn, he⟩ hall⟩

theorem privColumns_textual : ∀ col ∈ privColumns, col.Textual := by decide

theorem credColumns_textual : ∀ col ∈ credColumns, col.Textual := by decide

/-! ### Rows of `etc.priv` -/

/-- The key of a row of `etc.priv`. -/
def rowKey (who : Account) (s : Scope) : Text := who.key ++ (padRight 32 ' ' s.db ++ padRight 32 ' ' s.tbl)

/-- The texts of a row of `etc.priv`. -/
structure PrivTexts (who : Account) (s : Scope) (fs : List Text) : Prop where
  hostname : who.hostname.length ≤ 64
  username : who.username.length ≤ 32
  db : s.db.length ≤ 32
  tbl : s.tbl.length ≤ 32
  length : fs.length = 10
  flags : ∀ f ∈ fs, f = NO ∨ f = YES

/-- The row of these texts. -/
def privRowOf (who : Account) (s : Scope) (fs : List Text) : Row := Row.ofTexts ([who.hostname, who.username, s.db, s.tbl] ++ fs)

/-- A row that has been made for `etc.priv`. -/
theorem makeRow_priv {values : List Text} {r : Row} (h : makeRow A privColumns values = some r) :
    ∃ who s fs, PrivTexts who s fs ∧ r = privRowOf who s fs ∧ values.take 14 = [who.hostname, who.username, s.db, s.tbl] ++ fs := by
  obtain ⟨texts, hstore, hmade⟩ := Option.bind_eq_some_iff.mp h
  split at hmade
  · obtain rfl := Option.some.inj hmade
    obtain ⟨htake, hall⟩ := storeAll_textual privColumns_textual hstore
    have htake' : texts = values.take 14 := htake
    rw [← htake']
    obtain ⟨a, _, ha, h₁, rfl⟩ := List.forall₂_cons_left_iff.mp hall
    obtain ⟨b, _, hb, h₂, rfl⟩ := List.forall₂_cons_left_iff.mp h₁
    obtain ⟨c, _, hc, h₃, rfl⟩ := List.forall₂_cons_left_iff.mp h₂
    obtain ⟨d, fs, hd, h₄, rfl⟩ := List.forall₂_cons_left_iff.mp h₃
    refine ⟨⟨a, b⟩, ⟨c, d⟩, fs, ⟨ha.1, hb.1, hc.1, hd.1, h₄.length_eq.symm, fun f hf => ?_⟩, rfl, rfl⟩
    obtain ⟨i, hi, rfl⟩ := List.getElem_of_mem hf
    have hi' := hi
    rw [← h₄.length_eq] at hi'
    obtain ⟨-, -, he⟩ := h₄.get hi' hi
    obtain ⟨name, -, hname⟩ := List.mem_map.mp (List.get_mem _ ⟨i, hi'⟩)
    rw [← hname] at he
    simpa [privColumn] using he rfl
  · cases hmade

theorem PrivTexts.short {who : Account} {s : Scope} {fs : List Text} (h : PrivTexts who s fs) :
    ∀ text ∈ [who.hostname, who.username, s.db, s.tbl] ++ fs, text.length < 256 := by
  have := h.hostname
  have := h.username
  have := h.db
  have := h.tbl
  intro text ht
  rcases List.mem_append.mp ht with ht | ht
  · simp only [List.mem_cons, List.not_mem_nil, or_false] at ht
    rcases ht with rfl | rfl | rfl | rfl <;> omega
  · rcases h.flags text ht with rfl | rfl <;> decide

/-- The values of a row of `etc.priv`. -/
theorem PrivTexts.valueAt {who : Account} {s : Scope} {fs : List Text} (h : PrivTexts who s fs) {i : ℕ}
    (hi : i < ([who.hostname, who.username, s.db, s.tbl] ++ fs).length) :
    (privRowOf who s fs).valueAt i = ([who.hostname, who.username, s.db, s.tbl] ++ fs)[i] :=
  valueAt_ofTexts h.short hi

theorem flatten_flags {fs : List Text} (h : ∀ f ∈ fs, f = NO ∨ f = YES) : fs.flatten.length = fs.length := by
  induction fs with
  | nil => rfl
  | cons f fs ih =>
    have hf : f.length = 1 := by rcases h f List.mem_cons_self with rfl | rfl <;> rfl
    rw [List.flatten_cons, List.length_append, ih fun g hg => h g (List.mem_cons_of_mem _ hg), hf, List.length_cons, Nat.add_comm]

/-- Two rows with the same names are of one size. -/
theorem PrivTexts.data_length {who : Account} {s : Scope} {fs fs' : List Text} (h : PrivTexts who s fs) (h' : PrivTexts who s fs') :
    (privRowOf who s fs).data.length = (privRowOf who s fs').data.length := by
  have : fs.flatten.length = fs'.flatten.length := by
    rw [flatten_flags h.flags, flatten_flags h'.flags, h.length, h'.length]
  simp only [privRowOf, Row.ofTexts, List.flatten_append, List.length_append, this]

theorem makeKey_priv (r : Row) : makeKey privColumns privKey r =
    padRight 64 ' ' (r.valueAt 0) ++ (padRight 32 ' ' (r.valueAt 1) ++ (padRight 32 ' ' (r.valueAt 2) ++
      (padRight 32 ' ' (r.valueAt 3) ++ []))) := rfl

/-- The key of a row of `etc.priv`. -/
theorem PrivTexts.makeKey {who : Account} {s : Scope} {fs : List Text} (h : PrivTexts who s fs) :
    makeKey privColumns privKey (privRowOf who s fs) = rowKey who s := by
  rw [makeKey_priv, h.valueAt (i := 0) (by simp), h.valueAt (i := 1) (by simp), h.valueAt (i := 2) (by simp), h.valueAt (i := 3) (by simp),
    List.append_nil, rowKey, Account.key, List.append_assoc]
  rfl

variable {acl acl' : Acl}

theorem Acl.Wf.primaryKey (h : acl.Wf A) (r : Row) : acl.priv.primaryKey r = makeKey privColumns privKey r := by
  obtain ⟨elements, hi⟩ := h.index
  rw [Table.primaryKey, Table.getIndex, hi]
  show Dml.makeKey acl.priv.columns privKey r = _
  rw [h.columns]

/-- An account that the tables of the privileges can hold. -/
def FitsAccount (who : Account) : Prop :=
  who.hostname.length ≤ 64 ∧ lower who.hostname ≠ "null".toList ∧ who.username.length ≤ 32 ∧ lower who.username ≠ "null".toList

/-- A scope by names that `etc.priv` can hold. -/
def Scope.Fits (s : Scope) : Prop := FitsName s.db ∧ FitsName s.tbl

theorem Obj.chain_fits (obj : Obj) : ∀ s ∈ obj.chain, s.Fits := by
  have ha : FitsName ASTERISK := by decide
  intro s hs
  simp only [Scope.chain, List.mem_cons, List.not_mem_nil, or_false] at hs
  rcases hs with rfl | rfl | rfl
  · exact ⟨obj.db_fits, obj.tbl_fits⟩
  · exact ⟨obj.db_fits, ha⟩
  · exact ⟨ha, ha⟩

/-! ### Keys -/

theorem Row.start_eq (texts : List Text) (n : ℕ) : Row.start texts n = Row.ofTexts (texts ++ List.replicate n []) := by
  simp only [Row.start, Row.ofTexts, List.map_append, List.map_replicate, List.flatten_append, List.flatten_replicate_nil,
    List.append_nil, List.length_nil, Nat.zero_mod]

theorem keyRow_some {who : Account} {s : Scope} {rw_ : Row} (hw : acl.Wf A)
    (h : keyRow A acl.priv [who.hostname, who.username, s.db, s.tbl] = some rw_) : FitsAccount who := by
  obtain ⟨texts, hstore, -⟩ := Option.bind_eq_some_iff.mp h
  rw [hw.columns] at hstore
  obtain ⟨htake, hall⟩ := storeAll_textual (fun col hc => privColumns_textual col (List.mem_of_mem_take hc)) hstore
  have htexts : texts = [who.hostname, who.username, s.db, s.tbl] := htake
  rw [htexts] at hall
  obtain ⟨_, _, ha, h₁, he₁⟩ := List.forall₂_cons_left_iff.mp hall
  obtain ⟨rfl, rfl⟩ := List.cons.inj he₁
  obtain ⟨_, _, hb, h₂, he₂⟩ := List.forall₂_cons_left_iff.mp h₁
  obtain ⟨rfl, rfl⟩ := List.cons.inj he₂
  exact ⟨ha.1, ha.2.1, hb.1, hb.2.1⟩

/-- The key of a scope. -/
theorem privRow_eq {who : Account} {s : Scope} (hw : acl.Wf A) (hwho : FitsAccount who) (hs : s.Fits) :
    privRow A acl who s = some (acl.priv.find PK_NDX (rowKey who s)) := by
  obtain ⟨hh, hhn, hu, hun⟩ := hwho
  obtain ⟨⟨hd, hdn, -⟩, ⟨ht, htn, -⟩⟩ := hs
  have hstore : storeAll A (privColumns.take 4) [who.hostname, who.username, s.db, s.tbl] =
      some [who.hostname, who.username, s.db, s.tbl] := by
    show storeAll A [keyColumn "hostname" 64, keyColumn "username" 32, keyColumn "db_name" 32, keyColumn "tbl_name" 32] _ = _
    simp only [storeAll, Option.bind_eq_bind, @take_varchar A (keyColumn "hostname" 64) (by decide) rfl _ hh hhn,
      @take_varchar A (keyColumn "username" 32) (by decide) rfl _ hu hun,
      @take_varchar A (keyColumn "db_name" 32) (by decide) rfl _ hd hdn,
      @take_varchar A (keyColumn "tbl_name" 32) (by decide) rfl _ ht htn, Option.bind_some]
  have hcap : [who.hostname, who.username, s.db, s.tbl].flatten.length ≤ capacity privColumns := by
    have : capacity privColumns = 170 := by decide
    simp only [List.flatten_cons, List.flatten_nil, List.length_append, List.length_nil, this]
    omega
  have hkey : keyRow A acl.priv [who.hostname, who.username, s.db, s.tbl] =
      some (Row.start [who.hostname, who.username, s.db, s.tbl] 10) := by
    rw [keyRow, hw.columns]
    show (storeAll A (privColumns.take 4) _).bind _ = _
    rw [hstore, Option.bind_some, if_pos hcap]
    rfl
  have hshort : ∀ text ∈ [who.hostname, who.username, s.db, s.tbl] ++ List.replicate 10 [], text.length < 256 := by
    intro text htext
    rcases List.mem_append.mp htext with htext | htext
    · simp only [List.mem_cons, List.not_mem_nil, or_false] at htext
      rcases htext with rfl | rfl | rfl | rfl <;> omega
    · rw [List.eq_of_mem_replicate htext]
      decide
  have hprimary : acl.priv.primaryKey (Row.start [who.hostname, who.username, s.db, s.tbl] 10) = rowKey who s := by
    rw [hw.primaryKey, Row.start_eq, makeKey_priv, valueAt_ofTexts hshort (i := 0) (by simp), valueAt_ofTexts hshort (i := 1) (by simp),
      valueAt_ofTexts hshort (i := 2) (by simp), valueAt_ofTexts hshort (i := 3) (by simp), List.append_nil, rowKey, Account.key,
      List.append_assoc]
    rfl
  rw [privRow, hkey, Option.bind_eq_bind, Option.bind_some, hprimary]

theorem privRow_none {who : Account} {s : Scope} (hw : acl.Wf A) (hwho : ¬FitsAccount who) : privRow A acl who s = none := by
  rw [privRow]
  cases hk : keyRow A acl.priv [who.hostname, who.username, s.db, s.tbl] with
  | none => rfl
  | some r => exact absurd (keyRow_some hw hk) hwho

theorem padRight_inj {n : ℕ} {a b : Text} (ha' : a.getLast? ≠ some ' ') (hb' : b.getLast? ≠ some ' ')
    (h : padRight n ' ' a = padRight n ' ' b) : a = b := by
  have key : ∀ {a b : Text}, a.length ≤ b.length → b.getLast? ≠ some ' ' → padRight n ' ' a = padRight n ' ' b → a = b := by
    intro a b hle hlast hpad
    have htake := congrArg (List.take b.length) hpad
    rw [padRight, padRight, List.take_left' rfl, List.take_append, List.take_of_length_le hle, List.take_replicate] at htake
    rcases Nat.eq_zero_or_pos (min (b.length - a.length) (n - a.length)) with hz | hp
    · rw [hz, List.replicate_zero, List.append_nil] at htake
      exact htake
    · rw [← htake, List.getLast?_append_of_ne_nil _ (by
        rw [ne_eq, List.replicate_eq_nil_iff]
        omega), List.getLast?_replicate, if_neg (by omega)] at hlast
      exact absurd rfl hlast
  rcases Nat.le_total a.length b.length with hle | hle
  · exact key hle hb' h
  · exact (key hle ha' h.symm).symm

/-- Different scopes have different keys. -/
theorem rowKey_scope_inj {who : Account} {s s' : Scope} (hs : s.Fits) (hs' : s'.Fits) (h : rowKey who s = rowKey who s') : s = s' := by
  obtain ⟨⟨hd, -, hdl⟩, ⟨ht, -, htl⟩⟩ := hs
  obtain ⟨⟨hd', -, hdl'⟩, ⟨ht', -, htl'⟩⟩ := hs'
  have hpair := List.append_cancel_left h
  obtain ⟨hdb, htbl⟩ := List.append_inj hpair (by rw [length_padRight_eq hd, length_padRight_eq hd'])
  have hdb' := padRight_inj hdl hdl' hdb
  have htbl' := padRight_inj htl htl' htbl
  cases s
  cases s'
  exact congrArg₂ Scope.mk hdb' htbl'

/-- Different accounts have different keys. -/
theorem rowKey_account_inj {who who' : Account} {s s' : Scope} (hwho : FitsAccount who) (hwho' : FitsAccount who')
    (h : rowKey who s = rowKey who' s') : who.key = who'.key := by
  refine (List.append_inj h ?_).1
  rw [Account.key, Account.key, List.length_append, List.length_append, length_padRight_eq hwho.1, length_padRight_eq hwho'.1,
    length_padRight_eq hwho.2.2.1, length_padRight_eq hwho'.2.2.1]

/-! ### Checks and entries -/

/-- The privileges of a row, on tables. -/
def privsOf (r : Row) : Set Text := {p | p ∈ LOCAL_PRIVILEGE_LIST ∧ (columnPos privColumns p).map r.valueAt = some YES}

/-- The rows of `etc.priv` as entries of permissions. -/
def entries (acl : Acl) (key : Text) : Option (Set Text) := (acl.priv.find PK_NDX key).map fun p => privsOf p.2

theorem columnPos_priv : ∀ p ∈ GLOBAL_PRIVILEGE_LIST, p ∉ LOCAL_PRIVILEGE_LIST → columnPos privColumns p = none := by decide

/-- The first row that is found has the privileges of the first entry. -/
theorem firstRow_allows {who : Account} {p : Text} (hw : acl.Wf A) (hwho : FitsAccount who) {ss : List Scope} (hs : ∀ s ∈ ss, s.Fits) :
    ∃ r, firstRow A acl who ss = some r ∧ (Scopes.Allows (entries acl) (ss.map (rowKey who)) p ↔ ∃ row, r = some row ∧ p ∈ privsOf row) := by
  induction ss with
  | nil => exact ⟨none, rfl, fun h => absurd h Scopes.not_allows_nil, fun ⟨_, h, _⟩ => by cases h⟩
  | cons s ss ih =>
    have hrow := privRow_eq hw hwho (hs s List.mem_cons_self)
    cases hf : acl.priv.find PK_NDX (rowKey who s) with
    | none =>
      obtain ⟨r, hr, hiff⟩ := ih fun s' hs' => hs s' (List.mem_cons_of_mem _ hs')
      refine ⟨r, ?_, ?_⟩
      · rw [firstRow, hrow, hf]
        exact hr
      · have hnone : entries acl (rowKey who s) = none := by rw [entries, hf, Option.map_none]
        exact (Scopes.allows_cons_none hnone).trans hiff
    | some q =>
      refine ⟨some q.2, ?_, ?_⟩
      · rw [firstRow, hrow, hf]
        rfl
      · have hsome : entries acl (rowKey who s) = some (privsOf q.2) := by rw [entries, hf, Option.map_some]
        rw [List.map_cons, Scopes.allows_cons_some hsome]
        simp only [Option.some.injEq, exists_eq_left']

/-- A check goes along the keys of its scopes. -/
theorem verifyLocal_iff {who : Account} {p : Text} (hw : acl.Wf A) (hwho : FitsAccount who) (obj : Obj) (hp : p ∈ GLOBAL_PRIVILEGE_LIST) :
    verifyLocalPrivilege A acl who obj.toScope p = some true ↔ Scopes.Allows (entries acl) (obj.chain.map (rowKey who)) p := by
  obtain ⟨r, hr, hiff⟩ := firstRow_allows (p := p) hw hwho obj.chain_fits
  rw [hiff, verifyLocalPrivilege, hr, Option.bind_eq_bind, Option.bind_some]
  cases r with
  | none => simp
  | some row =>
    simp only [Option.some.injEq, exists_eq_left', valueOf, hw.columns]
    by_cases hl : p ∈ LOCAL_PRIVILEGE_LIST
    · show _ ↔ p ∈ LOCAL_PRIVILEGE_LIST ∧ _
      cases (columnPos privColumns p).map row.valueAt with
      | none => simp
      | some value => simp [hl]
    · rw [columnPos_priv p hp hl]
      exact ⟨fun h => (by cases h), fun h => absurd h.1 hl⟩

theorem verifyPrivilege_iff {who : Account} {p : Text} (hw : acl.Wf A) (hwho : FitsAccount who) (obj : Obj)
    (hp : p ∈ GLOBAL_PRIVILEGE_LIST) (hg : verifyGlobalPrivilege A acl who p ≠ none) : verifyPrivilege A acl who obj.toScope p = true ↔
      verifyGlobalPrivilege A acl who p = some true ∨ Scopes.Allows (entries acl) (obj.chain.map (rowKey who)) p := by
  rw [verifyPrivilege]
  cases hv : verifyGlobalPrivilege A acl who p with
  | none => exact absurd hv hg
  | some b =>
    cases b with
    | true => simp
    | false =>
      rw [← verifyLocal_iff hw hwho obj hp]
      simp

/-- An account that has a row has an answer for every privilege. -/
theorem verifyGlobal_ne_none {who : Account} {p : Text} {q : ℕ × Row} (hw : acl.Wf A) (hq : credRow A acl who = some q)
    (hp : p ∈ GLOBAL_PRIVILEGE_LIST) : verifyGlobalPrivilege A acl who p ≠ none := by
  obtain ⟨rw_, hkey, hfind⟩ := Option.bind_eq_some_iff.mp hq
  have hcol : ∀ p ∈ GLOBAL_PRIVILEGE_LIST, (columnPos credColumns p).isSome = true := by decide
  rw [verifyGlobalPrivilege, hkey, Option.bind_eq_bind, Option.bind_some, hfind]
  obtain ⟨i, hi⟩ := Option.isSome_iff_exists.mp (hcol p hp)
  simp only [valueOf, hw.cred, hi, Option.map_some]
  exact Option.some_ne_none _

/-! ### What is granted -/

theorem mem_normalizePrivilegeList {privList : List Text} {p : Text} :
    p ∈ normalizePrivilegeList privList false ↔ Granted privList p := by
  rw [normalizePrivilegeList]
  split
  · rename_i h
    simp only [populateAllPrivilegeList, List.mem_append, List.mem_filter, decide_eq_true_eq, Bool.false_eq_true, if_false, Granted, h,
      true_and, not_and, not_not]
    constructor
    · rintro (h' | ⟨hl, -, hg⟩)
      · exact Or.inl h'
      · exact Or.inr ⟨hl, hg⟩
    · rintro (h' | ⟨hl, hg⟩)
      · exact Or.inl h'
      · by_cases hm : p ∈ privList ∧ p ≠ ALL_PRIV
        · exact Or.inl hm
        · exact Or.inr ⟨hl, fun hm' => by_contra fun hne => hm ⟨hm', hne⟩, hg⟩
  · rename_i h
    simp only [Granted, h, false_and, or_false]
    exact ⟨fun hp => ⟨hp, fun he => h (he ▸ hp)⟩, And.left⟩

theorem length_flags (privList : List Text) (old : ℕ → Text) (pos : ℕ) (cols : List Column) :
    (flags privList old pos cols).length = cols.length := by
  induction cols generalizing pos with
  | nil => rfl
  | cons col cols ih => exact congrArg (· + 1) (ih (pos + 1))

theorem flags_getElem {privList : List Text} {old : ℕ → Text} {pos : ℕ} {cols : List Column} {j : ℕ} {col : Column}
    (h : cols[j]? = some col) : (flags privList old pos cols)[j]? = some (if col.name ∈ privList then YES else old (pos + j)) := by
  induction cols generalizing pos j with
  | nil => cases h
  | cons c cols ih =>
    cases j with
    | zero =>
      obtain rfl := Option.some.inj h
      rfl
    | succ j =>
      rw [flags, List.getElem?_cons_succ, ih h, Nat.add_right_comm, Nat.add_assoc]

/-- The columns of the privileges on tables. -/
theorem columnPos_local : ∀ p ∈ LOCAL_PRIVILEGE_LIST, ∃ j < 10, columnPos privColumns p = some (4 + j) ∧
    (privColumns.drop 4)[j]?.map Column.name = some p := by decide

/-- The privileges of a row with these flags. -/
theorem privsOf_flags {who : Account} {s : Scope} {privList : List Text} {old : ℕ → Text}
    (h : PrivTexts who s (flags privList old 4 (privColumns.drop 4))) {p : Text} (hp : p ∈ LOCAL_PRIVILEGE_LIST) :
    p ∈ privsOf (privRowOf who s (flags privList old 4 (privColumns.drop 4))) ↔
      p ∈ privList ∨ (columnPos privColumns p).map old = some YES := by
  obtain ⟨j, hj, hpos, hname⟩ := columnPos_local p hp
  obtain ⟨col, hcol, rfl⟩ := Option.map_eq_some_iff.mp hname
  have hlen := h.length
  have hi : 4 + j < ([who.hostname, who.username, s.db, s.tbl] ++ flags privList old 4 (privColumns.drop 4)).length := by
    rw [List.length_append, hlen]
    show 4 + j < 4 + 10
    omega
  have hflag := @flags_getElem privList old 4 _ _ _ hcol
  have hvalue : (privRowOf who s (flags privList old 4 (privColumns.drop 4))).valueAt (4 + j) =
      if col.name ∈ privList then YES else old (4 + j) := by
    rw [h.valueAt hi]
    have hget : ([who.hostname, who.username, s.db, s.tbl] ++ flags privList old 4 (privColumns.drop 4))[4 + j]? =
        (flags privList old 4 (privColumns.drop 4))[4 + j - 4]? := List.getElem?_append_right (Nat.le_add_right 4 j)
    rw [List.getElem?_eq_getElem hi, Nat.add_sub_cancel_left, hflag] at hget
    exact Option.some.inj hget
  show _ ∧ _ ↔ _
  rw [hpos, Option.map_some, Option.map_some, hvalue, and_iff_right hp]
  split
  · rename_i hm
    exact ⟨fun _ => Or.inl hm, fun _ => rfl⟩
  · rename_i hm
    exact ⟨Or.inr, fun h => h.resolve_left hm⟩

/-! ### The new row -/

/-- A row of names and flags. -/
theorem makeRow_flags {a b c d : Text} {privList : List Text} {old : ℕ → Text} {r : Row}
    (h : makeRow A privColumns ([a, b, c, d] ++ flags privList old 4 (privColumns.drop 4)) = some r) :
    PrivTexts ⟨a, b⟩ ⟨c, d⟩ (flags privList old 4 (privColumns.drop 4)) ∧
      r = privRowOf ⟨a, b⟩ ⟨c, d⟩ (flags privList old 4 (privColumns.drop 4)) := by
  obtain ⟨⟨a', b'⟩, ⟨c', d'⟩, fs, ht, rfl, htake⟩ := makeRow_priv h
  have hlen : (flags privList old 4 (privColumns.drop 4)).length = 10 := length_flags ..
  rw [List.take_of_length_le (by rw [List.length_append, hlen]; exact le_rfl)] at htake
  simp only [List.cons_append, List.nil_append, List.cons.injEq] at htake
  obtain ⟨rfl, rfl, rfl, rfl, rfl⟩ := htake
  exact ⟨ht, rfl⟩

/-- What a GRANT does to the tables of the privileges. -/
structure Grants (acl acl' : Acl) (who : Account) (s : Scope) (privList : List Text) : Prop where
  cred : acl'.cred = acl.cred
  wf : acl'.Wf A
  other : ∀ key, key ≠ rowKey who s → acl'.priv.find PK_NDX key = acl.priv.find PK_NDX key
  own : entries acl' (rowKey who s) =
    some ((entries acl (rowKey who s)).getD ∅ ∪ {p | p ∈ LOCAL_PRIVILEGE_LIST ∧ Granted privList p})

/-- A new row. -/
theorem grants_insert {who : Account} {s : Scope} {privList : List Text} {rw_ : Row} (hw : acl.Wf A)
    (hf : acl.priv.find PK_NDX (rowKey who s) = none)
    (h : makeRow A privColumns ([who.hostname, who.username, s.db, s.tbl] ++
      flags (normalizePrivilegeList privList false) (fun _ => NO) 4 (privColumns.drop 4)) = some rw_) :
    Grants (A := A) acl { acl with priv := acl.priv.insert rw_ } who s privList := by
  obtain ⟨ht, hr⟩ := makeRow_flags h
  have hkey : acl.priv.primaryKey rw_ = rowKey who s := by rw [hw.primaryKey, hr, ht.makeKey]
  have hfind := fun key => hw.priv.find_insert rw_ key
  refine ⟨rfl, ⟨hw.cred, hw.priv.insert rw_, hw.columns, ?_, ?_⟩, ?_, ?_⟩
  · obtain ⟨elements, hi⟩ := hw.index
    refine ⟨elements ++ [(makeKey privColumns privKey rw_, acl.priv.next)], ?_⟩
    rw [Table.insert, hi, ← hw.columns]
    rfl
  · intro p hp
    rcases List.mem_append.mp hp with hp | hp
    · exact hw.rows p hp
    · rw [List.mem_singleton.mp hp]
      exact ⟨_, h⟩
  · intro key hne
    rw [hfind, hkey, if_neg (Ne.symm hne), Option.or_none]
  · have hnone : entries acl (rowKey who s) = none := by rw [entries, hf, Option.map_none]
    rw [hnone, entries, hfind, hf, hkey, if_pos rfl]
    simp only [Option.none_or, Option.map_some, Option.getD_none, Set.empty_union, Option.some.injEq]
    have hno : ∀ p, (columnPos privColumns p).map (fun _ => NO) ≠ some YES := fun p => by
      cases columnPos privColumns p <;> simp [NO, YES]
    ext p
    constructor
    · intro hp
      exact ⟨hp.1, mem_normalizePrivilegeList.mp (((privsOf_flags ht hp.1).mp (hr ▸ hp)).resolve_right (hno p))⟩
    · rintro ⟨hl, hg⟩
      rw [hr]
      exact (privsOf_flags ht hl).mpr (Or.inl (mem_normalizePrivilegeList.mpr hg))

/-- A row that there was. -/
theorem grants_update {who : Account} {s : Scope} {privList : List Text} {rw_ : Row} {q : ℕ × Row} (hw : acl.Wf A)
    (hf : acl.priv.find PK_NDX (rowKey who s) = some q)
    (h : makeRow A privColumns ([q.2.valueAt 0, q.2.valueAt 1, q.2.valueAt 2, q.2.valueAt 3] ++
      flags (normalizePrivilegeList privList false) q.2.valueAt 4 (privColumns.drop 4)) = some rw_) :
    Grants (A := A) acl { acl with priv := acl.priv.update rw_ } who s privList := by
  obtain ⟨hq, hqkey⟩ := hw.priv.find_mem hf
  obtain ⟨values, hvalues⟩ := hw.rows q hq
  obtain ⟨who₀, s₀, fs, ht₀, hr₀, -⟩ := makeRow_priv hvalues
  have hv : [q.2.valueAt 0, q.2.valueAt 1, q.2.valueAt 2, q.2.valueAt 3] = [who₀.hostname, who₀.username, s₀.db, s₀.tbl] := by
    rw [hr₀, ht₀.valueAt (i := 0) (by simp), ht₀.valueAt (i := 1) (by simp), ht₀.valueAt (i := 2) (by simp), ht₀.valueAt (i := 3) (by simp)]
    rfl
  have hmade := h
  rw [hv] at h
  obtain ⟨ht, hr⟩ := makeRow_flags h
  have hsame : makeKey privColumns privKey rw_ = makeKey privColumns privKey q.2 := by
    rw [hr, ht.makeKey, hr₀, ht₀.makeKey]
  have hkey : acl.priv.primaryKey rw_ = rowKey who s := by rw [hw.primaryKey, hsame, ← hw.primaryKey, hqkey]
  have hf' : acl.priv.find PK_NDX (acl.priv.primaryKey rw_) = some q := by rw [hkey, hf]
  have hsize : rw_.data.length = q.2.data.length := by
    have := ht.data_length ht₀
    rwa [← hr, ← hr₀] at this
  have hkeys : ∀ ndx ∈ acl.priv.indexList, acl.priv.key ndx rw_ = acl.priv.key ndx q.2 := by
    obtain ⟨elements, hi⟩ := hw.index
    intro ndx hm
    rw [hi, List.mem_singleton] at hm
    rw [hm, Table.key, Table.key, hw.columns]
    exact hsame
  have hfind := fun key => hw.priv.find_update hf' hsize hkeys key
  have hupdate := Table.update_eq hf' hsize
  refine ⟨rfl, ⟨hw.cred, hw.priv.update hf' hsize hkeys, ?_, ?_, ?_⟩, ?_, ?_⟩
  · rw [hupdate]
    exact hw.columns
  · rw [hupdate]
    exact hw.index
  · intro p hp
    rw [hupdate] at hp
    obtain ⟨p', hp', rfl⟩ := List.mem_map.mp hp
    split
    · exact ⟨_, hmade⟩
    · exact hw.rows p' hp'
  · intro key hne
    rw [hfind, hkey, if_neg (Ne.symm hne)]
  · have hsome : entries acl (rowKey who s) = some (privsOf q.2) := by rw [entries, hf, Option.map_some]
    rw [hsome, entries, hfind, hkey, if_pos rfl]
    simp only [Option.map_some, Option.getD_some, Option.some.injEq]
    ext p
    constructor
    · intro hp
      rcases (privsOf_flags ht hp.1).mp (hr ▸ hp) with hg | hold
      · exact Or.inr ⟨hp.1, mem_normalizePrivilegeList.mp hg⟩
      · exact Or.inl ⟨hp.1, hold⟩
    · rintro (⟨hl, hold⟩ | ⟨hl, hg⟩)
      · rw [hr]
        exact (privsOf_flags ht hl).mpr (Or.inr hold)
      · rw [hr]
        exact (privsOf_flags ht hl).mpr (Or.inl (mem_normalizePrivilegeList.mpr hg))

/-- What `vm::grant_local` does. -/
theorem grantLocal_spec {s : Session} {g : GrantStmt} (hw : acl.Wf A) (hs : (g.scope s).Fits) (h : grantLocal A acl s g = some acl') :
    FitsAccount g.account ∧ (∃ q, credRow A acl g.account = some q) ∧ Grants (A := A) acl acl' g.account (g.scope s) g.privList := by
  obtain ⟨q, hq, hrest⟩ := Option.bind_eq_some_iff.mp h
  dsimp only at hrest
  have hfits : FitsAccount g.account := by
    by_contra hn
    rw [privRow_none hw hn] at hrest
    cases hrest
  refine ⟨hfits, ⟨q, hq⟩, ?_⟩
  rw [privRow_eq hw hfits hs, Option.bind_eq_bind, Option.bind_some, hw.columns] at hrest
  cases hf : acl.priv.find PK_NDX (rowKey g.account (g.scope s)) with
  | none =>
    rw [hf] at hrest
    obtain ⟨rw_, hrow, he⟩ := Option.bind_eq_some_iff.mp hrest
    obtain rfl := Option.some.inj he
    exact grants_insert hw hf hrow
  | some p =>
    rw [hf] at hrest
    obtain ⟨rw_, hrow, he⟩ := Option.bind_eq_some_iff.mp hrest
    obtain rfl := Option.some.inj he
    exact grants_update hw hf hrow

/-- The entries behind a GRANT. -/
theorem Grants.entries_eq {who : Account} {s : Scope} {privList : List Text} (h : Grants (A := A) acl acl' who s privList) :
    entries acl' = Scopes.grant (entries acl) (rowKey who s) {p | p ∈ LOCAL_PRIVILEGE_LIST ∧ Granted privList p} := by
  funext key
  by_cases hk : key = rowKey who s
  · subst hk
    rw [h.own, Scopes.grant_self]
  · rw [Scopes.grant_of_ne hk, entries, entries, h.other key hk]

/-! ### Objects that are covered -/

variable {who : Account} {o obj : Obj}

theorem Obj.fits (o : Obj) : o.toScope.Fits := ⟨o.db_fits, o.tbl_fits⟩

theorem rowKey_inj (h : rowKey who obj.toScope = rowKey who o.toScope) : obj.toScope = o.toScope :=
  rowKey_scope_inj obj.fits o.fits h

/-- A covered object without a row of its own reaches the row of the other. -/
theorem reaches_of_covers {e : Text → Option (Set Text)} (h : o.Covers obj) (he : obj.toScope = o.toScope ∨ e (rowKey who obj.toScope) = none) :
    Scopes.Reaches e (rowKey who o.toScope) (obj.chain.map (rowKey who)) := by
  by_cases hs : obj.toScope = o.toScope
  · exact ⟨[], _, by rw [Scope.chain, hs]; rfl, List.not_mem_nil, fun _ hk => absurd hk List.not_mem_nil⟩
  · obtain ⟨ht, hd⟩ := h.resolve_left hs
    have ho : (⟨obj.db, ASTERISK⟩ : Scope) = o.toScope := by rw [hd, ← ht]
    refine ⟨[rowKey who obj.toScope], [rowKey who ⟨ASTERISK, ASTERISK⟩], by rw [Scope.chain, ho]; rfl, fun hm => ?_, fun k hk => ?_⟩
    · exact hs (rowKey_inj (List.mem_singleton.mp hm).symm)
    · rw [List.mem_singleton.mp hk]
      exact he.resolve_left hs

/-- Only covered objects reach the row. -/
theorem covers_of_reaches {e : Text → Option (Set Text)} (ho : o.toScope ≠ ⟨ASTERISK, ASTERISK⟩)
    (h : Scopes.Reaches e (rowKey who o.toScope) (obj.chain.map (rowKey who))) : o.Covers obj := by
  obtain ⟨pre, post, heq, -, -⟩ := h
  have hm : rowKey who o.toScope ∈ obj.chain.map (rowKey who) := heq ▸ List.mem_append_right _ List.mem_cons_self
  obtain ⟨s, hs, hkey⟩ := List.mem_map.mp hm
  obtain rfl := rowKey_scope_inj (obj.chain_fits s hs) o.fits hkey
  simp only [Scope.chain, List.mem_cons, List.not_mem_nil, or_false] at hs
  rcases hs with hs | hs | hs
  · exact Or.inl hs.symm
  · exact Or.inr ⟨congrArg Scope.tbl hs, (congrArg Scope.db hs).symm⟩
  · exact absurd hs ho

/-- An object with a row of its own does not reach another row. -/
theorem not_reaches_of_row {e : Text → Option (Set Text)} (hne : obj.toScope ≠ o.toScope) (he : e (rowKey who obj.toScope) ≠ none) :
    ¬Scopes.Reaches e (rowKey who o.toScope) (obj.chain.map (rowKey who)) := by
  rintro ⟨pre, post, heq, -, hpre⟩
  cases pre with
  | nil => exact hne (rowKey_inj (List.cons.inj heq).1)
  | cons k pre =>
    obtain ⟨rfl, -⟩ := List.cons.inj heq
    exact he (hpre _ List.mem_cons_self)

/-- Where there is no row, a covered object is allowed what the other one is. -/
theorem allows_covered {e : Text → Option (Set Text)} {p : Text} (h : o.Covers obj) (ho : e (rowKey who o.toScope) = none)
    (hobj : e (rowKey who obj.toScope) = none) :
    Scopes.Allows e (obj.chain.map (rowKey who)) p ↔ Scopes.Allows e (o.chain.map (rowKey who)) p := by
  by_cases hs : obj.toScope = o.toScope
  · rw [hs]
  · obtain ⟨ht, hd⟩ := h.resolve_left hs
    have ho' : (⟨obj.db, ASTERISK⟩ : Scope) = o.toScope := by rw [hd, ← ht]
    have ho'' : (⟨o.db, ASTERISK⟩ : Scope) = o.toScope := by rw [← ht]
    simp only [Scope.chain, ho', ho'', List.map_cons, Scopes.allows_cons_none hobj, Scopes.allows_cons_none ho]

theorem privRow_none_iff {e : Acl} (hw : e.Wf A) (hwho : FitsAccount who) :
    privRow A e who obj.toScope = some none ↔ entries e (rowKey who obj.toScope) = none := by
  rw [privRow_eq hw hwho obj.fits, entries, Option.map_eq_none_iff, Option.some.injEq]

theorem privRow_some_iff {e : Acl} (hw : e.Wf A) (hwho : FitsAccount who) :
    (∃ q, privRow A e who obj.toScope = some (some q)) ↔ entries e (rowKey who obj.toScope) ≠ none := by
  rw [privRow_eq hw hwho obj.fits, entries, ne_eq, Option.map_eq_none_iff, ← ne_eq, Option.ne_none_iff_exists']
  simp only [Option.some.injEq]

/-! ### GRANT -/

theorem verifyGlobal_congr (h : acl'.cred = acl.cred) (who : Account) (p : Text) :
    verifyGlobalPrivilege A acl' who p = verifyGlobalPrivilege A acl who p := by
  rw [verifyGlobalPrivilege, verifyGlobalPrivilege, h]

/-- Other accounts do not ask for the row. -/
theorem verifyPrivilege_other {who' : Account} {privList : List Text} (hw : acl.Wf A) (hwho : FitsAccount who)
    (h : Grants (A := A) acl acl' who o.toScope privList) (hne : who'.key ≠ who.key) (obj : Obj) (p : Text) :
    verifyPrivilege A acl' who' obj.toScope p = verifyPrivilege A acl who' obj.toScope p := by
  have hrow : ∀ s : Scope, s.Fits → privRow A acl' who' s = privRow A acl who' s := fun s hs => by
    by_cases hwho' : FitsAccount who'
    · rw [privRow_eq h.wf hwho' hs, privRow_eq hw hwho' hs, h.other _ fun he => hne (rowKey_account_inj hwho' hwho he)]
    · rw [privRow_none h.wf hwho', privRow_none hw hwho']
  have hfirst : ∀ ss : List Scope, (∀ s ∈ ss, s.Fits) → firstRow A acl' who' ss = firstRow A acl who' ss := fun ss hs => by
    induction ss with
    | nil => rfl
    | cons s ss ih =>
      rw [firstRow, firstRow, hrow s (hs s List.mem_cons_self), ih fun s' hs' => hs s' (List.mem_cons_of_mem _ hs')]
  have hlocal : verifyLocalPrivilege A acl' who' obj.toScope p = verifyLocalPrivilege A acl who' obj.toScope p := by
    simp only [verifyLocalPrivilege, hfirst _ obj.chain_fits, valueOf, h.wf.columns, hw.columns]
  rw [verifyPrivilege, verifyPrivilege, verifyGlobal_congr h.cred, hlocal]

/-- A GRANT on a table or a database keeps what its account had and gives what it names, and
nothing else, if and only if the row that it writes hides nothing and none is in its way. -/
theorem grant_exact_iff {acl acl' : Acl} {s : Session} {g : GrantStmt} {o : Obj} (hw : acl.Wf A) (ho : g.scope s = o.toScope)
    (hl : g.isGlobal = false) (h : grant A acl s g = some acl') :
    Exact A acl acl' g.account o g.privList ↔ Unhidden A acl g.account o g.privList := by
  have hlocal : grantLocal A acl s g = some acl' := by
    rw [grant, hl] at h
    split at h
    · exact h
    · cases h
  have hne : o.toScope ≠ ⟨ASTERISK, ASTERISK⟩ := by
    intro he
    rw [← ho, GrantStmt.scope] at he
    obtain ⟨hdb, htbl⟩ := Scope.mk.inj he
    rw [GrantStmt.isGlobal, htbl] at hl
    split at hdb
    · rename_i hn
      rw [hn] at hl
      exact absurd hl (by decide)
    · rw [hdb] at hl
      exact absurd hl (by decide)
  obtain ⟨hwho, ⟨q, hq⟩, hg⟩ := grantLocal_spec hw (ho ▸ o.fits) hlocal
  rw [ho] at hg
  have hnone : ∀ p ∈ GLOBAL_PRIVILEGE_LIST, verifyGlobalPrivilege A acl g.account p ≠ none := fun p hp => verifyGlobal_ne_none hw hq hp
  -- the checks before and after, by entries
  have hbefore : ∀ (obj : Obj), ∀ p ∈ GLOBAL_PRIVILEGE_LIST, verifyPrivilege A acl g.account obj.toScope p = true ↔
      verifyGlobalPrivilege A acl g.account p = some true ∨ Scopes.Allows (entries acl) (obj.chain.map (rowKey g.account)) p :=
    fun obj p hp => verifyPrivilege_iff hw hwho obj hp (hnone p hp)
  have hafter : ∀ (obj : Obj), ∀ p ∈ GLOBAL_PRIVILEGE_LIST, verifyPrivilege A acl' g.account obj.toScope p = true ↔
      verifyGlobalPrivilege A acl g.account p = some true ∨
        Scopes.Allows (Scopes.grant (entries acl) (rowKey g.account o.toScope) {p | p ∈ LOCAL_PRIVILEGE_LIST ∧ Granted g.privList p})
          (obj.chain.map (rowKey g.account)) p := fun obj p hp => by
    rw [verifyPrivilege_iff hg.wf hwho obj hp (by rw [verifyGlobal_congr hg.cred]; exact hnone p hp), verifyGlobal_congr hg.cred,
      hg.entries_eq]
  have hself : Scopes.Reaches (entries acl) (rowKey g.account o.toScope) (o.chain.map (rowKey g.account)) :=
    reaches_of_covers (Or.inl rfl) (Or.inl rfl)
  constructor
  · intro he
    refine ⟨fun hrow p hp hv => ?_, fun p hp hgr => ?_, fun obj hc hs hrow p hp hgr => ?_⟩
    · rcases (hafter o p hp).mp (he.keeps o p hp hv) with hv' | hv'
      · exact Or.inr hv'
      · rw [Scopes.allows_grant_of_reaches hself, (privRow_none_iff hw hwho).mp hrow, Option.getD_none, Set.empty_union] at hv'
        exact Or.inl hv'.2
    · rcases (hafter o p hp).mp (he.gives o (Or.inl rfl) p hp hgr) with hv' | hv'
      · exact Or.inr hv'
      · rw [Scopes.allows_grant_of_reaches hself] at hv'
        rcases hv' with hv' | hv'
        · cases hrow : entries acl (rowKey g.account o.toScope) with
          | none =>
            rw [hrow] at hv'
            exact absurd hv' (Set.notMem_empty p)
          | some set =>
            rw [entries, Option.map_eq_some_iff] at hrow
            obtain ⟨row, hrow, rfl⟩ := hrow
            rw [entries, hrow] at hv'
            exact Or.inl hv'.1
        · exact Or.inl hv'.1
    · have hv := (hafter obj p hp).mp (he.gives obj hc p hp hgr)
      rw [Scopes.allows_grant_of_not_reaches (not_reaches_of_row hs ((privRow_some_iff hw hwho).mp hrow))] at hv
      exact (hbefore obj p hp).mpr hv
  · intro hu
    refine ⟨fun obj p hp hv => ?_, fun obj hc p hp hgr => ?_, fun obj p hp hv hn => ?_, fun who' hwho' obj p => ?_⟩
    · refine (hafter obj p hp).mpr ?_
      rcases (hbefore obj p hp).mp hv with hv' | hv'
      · exact Or.inl hv'
      · by_cases hglobal : verifyGlobalPrivilege A acl g.account p = some true
        · exact Or.inl hglobal
        · refine Or.inr (Scopes.allows_mono_iff.mpr (fun hr hnone' _ => ?_) hv')
          have hc := covers_of_reaches hne hr
          have hobj : entries acl (rowKey g.account obj.toScope) = none := by
            by_cases hs : obj.toScope = o.toScope
            · rw [hs, hnone']
            · by_contra hrow
              exact not_reaches_of_row hs hrow hr
          have hvo : verifyPrivilege A acl g.account o.toScope p = true :=
            (hbefore o p hp).mpr (Or.inr ((allows_covered hc hnone' hobj).mp hv'))
          have hgr := (hu.fresh ((privRow_none_iff hw hwho).mpr hnone') p hp hvo).resolve_right hglobal
          exact ⟨(hu.onTables p hp hgr).resolve_right hglobal, hgr⟩
    · by_cases hglobal : verifyGlobalPrivilege A acl g.account p = some true
      · exact (hafter obj p hp).mpr (Or.inl hglobal)
      · have hloc := (hu.onTables p hp hgr).resolve_right hglobal
        refine (hafter obj p hp).mpr (Or.inr ?_)
        by_cases hs : obj.toScope = o.toScope
        · exact (Scopes.allows_grant_of_reaches (reaches_of_covers hc (Or.inl hs))).mpr (Or.inr ⟨hloc, hgr⟩)
        · by_cases hrow : entries acl (rowKey g.account obj.toScope) = none
          · exact (Scopes.allows_grant_of_reaches (reaches_of_covers hc (Or.inr hrow))).mpr (Or.inr ⟨hloc, hgr⟩)
          · rw [Scopes.allows_grant_of_not_reaches (not_reaches_of_row hs hrow)]
            exact ((hbefore obj p hp).mp (hu.narrow obj hc hs ((privRow_some_iff hw hwho).mpr hrow) p hp hgr)).resolve_left hglobal
    · by_contra hv'
      rw [Bool.not_eq_false] at hv'
      have hbad : ¬(verifyGlobalPrivilege A acl g.account p = some true ∨
          Scopes.Allows (entries acl) (obj.chain.map (rowKey g.account)) p) := fun hb => by
        rw [(hbefore obj p hp).mpr hb] at hv
        cases hv
      rcases (hafter obj p hp).mp hv' with hg' | ha
      · exact hbad (Or.inl hg')
      · by_cases hr : Scopes.Reaches (entries acl) (rowKey g.account o.toScope) (obj.chain.map (rowKey g.account))
        · by_cases hgr : Granted g.privList p
          · exact hn ⟨covers_of_reaches hne hr, hgr⟩
          · exact hbad (Or.inr (Scopes.allows_of_allows_grant ha fun hp' => hgr hp'.2))
        · exact hbad (Or.inr ((Scopes.allows_grant_of_not_reaches hr).mp ha))
    · exact verifyPrivilege_other hw hwho hg hwho' obj p

/-! ### Two grants -/

/-- `etc.cred`, with an account that may do everything and one that may do nothing. -/
def twoAccounts : Table :=
  { name := ("etc".toList, "cred".toList)
    columns := credColumns
    indexList := [{ name := PK_NDX, isUnique := true, colNameList := ["hostname".toList, "username".toList]
                    elements := [(Account.key ⟨['h'], "root".toList⟩, 0), (Account.key ⟨['h'], "bob".toList⟩, 1)] }]
    foreignList := []
    rows := [(0, Row.ofTexts ([['h'], "root".toList, ['x']] ++ List.replicate 14 YES)),
      (1, Row.ofTexts ([['h'], "bob".toList, ['x']] ++ List.replicate 14 NO))]
    next := 2 }

def bob : Account := ⟨['h'], "bob".toList⟩

/-- `etc.priv`, with a row for all tables of a database: `bob` may select. -/
def oneScope : Acl where
  cred := twoAccounts
  priv :=
    { name := ("etc".toList, "priv".toList)
      columns := privColumns
      indexList := [{ name := PK_NDX, isUnique := true, colNameList := privKey, elements := [(rowKey bob ⟨['d'], ASTERISK⟩, 0)] }]
      foreignList := []
      rows := [(0, privRowOf bob ⟨['d'], ASTERISK⟩ (YES :: List.replicate 9 NO))]
      next := 1 }

theorem oneScope_wf : oneScope.Wf wholeNumbers where
  cred := rfl
  priv := ⟨⟨by decide, by decide, by decide, by decide, by decide⟩, ⟨_, rfl, rfl⟩⟩
  columns := rfl
  index := ⟨_, rfl⟩
  rows p hp := by
    obtain rfl := List.mem_singleton.mp hp
    exact ⟨[['h'], "bob".toList, ['d'], ASTERISK] ++ (YES :: List.replicate 9 NO), by decide⟩

def rootSession : Session := ⟨⟨['h'], "root".toList⟩, ['d']⟩

/-- `GRANT SELECT ON d.t TO 'bob'@'h'`, or another privilege. -/
def grantOnTable (privilege : String) : GrantStmt := ⟨[privilege.toList], ['d'], ['t'], "bob".toList, ['h']⟩

/-- `d.t` -/
def tableT : Obj := ⟨⟨['d'], ['t']⟩, by decide, by decide⟩

theorem granted_singleton {p p' : Text} (h : Granted [p'] p) (hp' : p' ≠ ALL_PRIV) : p = p' := by
  rcases h with ⟨hm, -⟩ | ⟨ha, -⟩
  · exact List.mem_singleton.mp hm
  · exact absurd (List.mem_singleton.mp ha).symm hp'

theorem grant_exact_select : ∃ acl', grant wholeNumbers oneScope rootSession (grantOnTable "select_priv") = some acl' ∧
    Exact wholeNumbers oneScope acl' bob tableT ["select_priv".toList] := by
  obtain ⟨acl', h⟩ := Option.isSome_iff_exists.mp
    (show (grant wholeNumbers oneScope rootSession (grantOnTable "select_priv")).isSome = true by decide +kernel)
  refine ⟨acl', h, (grant_exact_iff oneScope_wf rfl (by decide) h).mpr ⟨fun _ p hp hv => ?_, fun p _ hg => ?_, fun obj hc hne => ?_⟩⟩
  · have honly : ∀ p ∈ GLOBAL_PRIVILEGE_LIST, verifyPrivilege wholeNumbers oneScope bob tableT.toScope p = true → p = "select_priv".toList := by
      decide +kernel
    obtain rfl := honly p hp hv
    exact Or.inl (Or.inl ⟨List.mem_singleton_self _, by decide⟩)
  · obtain rfl := granted_singleton hg (by decide)
    exact Or.inl (by decide)
  · rcases hc with hs | ⟨ht, -⟩
    · exact absurd hs hne
    · exact absurd ht (by decide)

/-- With `GRANT INSERT ON d.t`, `bob` may no longer select from `d.t`. -/
theorem grant_hides_select : ¬∀ (A : Arith) (acl acl' : Acl) (s : Session) (g : GrantStmt) (o : Obj), acl.Wf A → g.scope s = o.toScope →
    g.isGlobal = false → grant A acl s g = some acl' → Exact A acl acl' g.account o g.privList := by
  intro hall
  obtain ⟨acl', h⟩ := Option.isSome_iff_exists.mp
    (show (grant wholeNumbers oneScope rootSession (grantOnTable "insert_priv")).isSome = true by decide +kernel)
  have hafter : (grant wholeNumbers oneScope rootSession (grantOnTable "insert_priv")).map
      (fun acl' => verifyPrivilege wholeNumbers acl' bob tableT.toScope "select_priv".toList) = some false := by decide +kernel
  rw [h, Option.map_some, Option.some.injEq] at hafter
  have hkeeps := (hall _ _ _ _ _ tableT oneScope_wf rfl (by decide) h).keeps tableT "select_priv".toList (by decide) (by decide +kernel)
  exact absurd (hkeeps.symm.trans hafter) (by decide)

end RedB.Dml
