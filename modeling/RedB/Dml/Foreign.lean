import RedB.Dml.LoadLines

/-!
# Foreign keys over runs of statements

INSERT and LOAD DATA call `verify_foreign_key` and do not use its result; UPDATE and DELETE
check nothing. Every foreign key refers to a row over a run if the rows that are put in find the
rows that they refer to, and no row is taken out, or loses its primary key, that another row refers
to (`run_referential`).
-/

namespace RedB.Dml

open Runs

variable (A : Arith)

/-- All columns of a foreign key are there and have values. -/
def present (t : Table) (fgn : Foreign) (r : Row) : Prop :=
  ∀ name ∈ fgn.colNameList, ∃ i, columnPos t.columns name = some i ∧ r.valueAt i ≠ NULL_VALUE

/-- The key of a row that refers by this foreign key. -/
def RefersTo (t : Table) (fgn : Foreign) (r : Row) (key : Text) : Prop := present t fgn r ∧ foreignKey t fgn r = some key

/-- There is a live row with this primary key in the table. -/
def HasKey (db : Db) (tbl : Name) (key : Text) : Prop := ∃ t, db tbl = some t ∧ ∃ q ∈ t.rows, t.primaryKey q.2 = key

/-- Every live row whose foreign-key columns are all present refers to a live row. -/
def Referential (db : Db) : Prop :=
  ∀ n t, db n = some t → ∀ q ∈ t.rows, ∀ fgn ∈ t.foreignList, ∀ key, RefersTo t fgn q.2 key → HasKey db fgn.tbl key

/-- The database with this state of a table. -/
def Db.set (db : Db) (t : Table) : Db := fun n => if n = t.name then some t else db n

/-! ### What statements have to observe -/

/-- A live row, or a row that the statement has put in, has a unique key of this row. -/
def KeyTaken (t : Table) (added : List Row) (r : Row) : Prop :=
  ∃ ndx ∈ t.indexList, ndx.isUnique = true ∧ ∃ q ∈ t.rows.map Prod.snd ++ added, t.key ndx q = t.key ndx r

/-- The rows that this row refers to are there, or the statement has put them in, or it is the row itself. -/
def Finds (db : Db) (t : Table) (added : List Row) (r : Row) : Prop :=
  ∀ fgn ∈ t.foreignList, ∀ key, RefersTo t fgn r key →
    HasKey db fgn.tbl key ∨ fgn.tbl = t.name ∧ ∃ q ∈ added ++ [r], t.primaryKey q = key

/-- The rows that are made of these values find the rows that they refer to, if none of their keys is taken.
LOAD DATA `keeps` a row whose key is taken in its buffer. -/
def AddsFind (keeps : Bool) (db : Db) (t : Table) : List (List Text) → Text → ℕ → List Row → Prop
  | [], _, _, _ => True
  | values :: rest, left, k, added =>
      ∀ r, fillRow A (columnsAt t k) left values = some r →
        (KeyTaken t added r → AddsFind keeps db t rest (if keeps then r.data else []) (k + 1) added) ∧
          (¬KeyTaken t added r → Finds db t added r ∧ AddsFind keeps db t rest [] (k + 1) (added ++ [r]))

/-- The values of the sets of INSERT, up to one that is not taken. -/
def setValues (columns : List Column) (colNameList : List Text) (sets : List (List Text)) : List (List Text) :=
  (sets.takeWhile fun values => values.length = colNameList.length ∧ verifyValueList A columns (colNameList.zip values)).map
    fun values => makeValueList columns (colNameList.zip values)

/-- If UPDATE takes the row out, it is put back under its primary key. -/
def KeepsKey (t : Table) (rights : List (Text × Cond)) (sel : List (ℕ × Row)) (p : ℕ × Row) : Prop :=
  ∀ k values, sel[k]? = some p → PutsBack A t rights sel k → giveAll A (t.view p.2) rights = some values →
    ∃ upd, putBack A (columnsAt t k) values p.2 = some upd ∧ t.primaryKey upd = t.primaryKey p.2

variable {A} {db : Db} {t t' : Table} {fgn : Foreign} {key : Text} {r : Row}

/-! ### Keys -/

theorem Alike.refersTo (h : Alike t t') : RefersTo t' fgn r key ↔ RefersTo t fgn r key := by
  simp only [RefersTo, present, foreignKey, makeKey?_eq_some, h.counted.columnPos, h.counted.makeKey]

@[simp] theorem Db.set_self (db : Db) (t : Table) : db.set t t.name = some t := if_pos rfl

theorem Db.set_of_ne {n : Name} (h : n ≠ t.name) : db.set t n = db n := if_neg h

/-- A table changes: its new rows refer to rows, and keys that are referred to are still there. -/
theorem referential_set (h : Referential (db.set t)) (ha : Alike t t')
    (hnew : ∀ q ∈ t'.rows, q ∈ t.rows ∨ ∀ fgn ∈ t.foreignList, ∀ key, RefersTo t fgn q.2 key → HasKey (db.set t') fgn.tbl key)
    (hkeys : ∀ n c, db.set t n = some c → ∀ q ∈ c.rows, (n = t.name → q ∈ t'.rows) → ∀ fgn ∈ c.foreignList, fgn.tbl = t.name →
      ∀ p ∈ t.rows, RefersTo c fgn q.2 (t.primaryKey p.2) → ∃ p' ∈ t'.rows, t.primaryKey p'.2 = t.primaryKey p.2) :
    Referential (db.set t') := by
  have hother : ∀ n, n ≠ t.name → db.set t' n = db.set t n := fun n hn => by
    rw [Db.set, Db.set, if_neg hn, if_neg (ha.name ▸ hn)]
  -- a key that was there and is referred to
  have hkey : ∀ n c, db.set t n = some c → ∀ q ∈ c.rows, (n = t.name → q ∈ t'.rows) → ∀ fgn ∈ c.foreignList, ∀ key,
      RefersTo c fgn q.2 key → HasKey (db.set t') fgn.tbl key := by
    intro n c hc q hq hq' fgn hf key hp
    obtain ⟨P, hP, p, hpm, rfl⟩ := h n c hc q hq fgn hf key hp
    by_cases htbl : fgn.tbl = t.name
    · rw [htbl, Db.set_self] at hP
      obtain rfl := Option.some.inj hP
      obtain ⟨p', hp', hk'⟩ := hkeys n c hc q hq hq' fgn hf htbl p hpm hp
      exact ⟨t', by rw [htbl, ← ha.name, Db.set_self], p', hp', (ha.primaryKey p'.2).trans hk'⟩
    · exact ⟨P, (hother fgn.tbl htbl).trans hP, p, hpm, rfl⟩
  intro n c hc q hq fgn hf key hp
  by_cases hn : n = t.name
  · subst hn
    rw [← ha.name, Db.set_self] at hc
    obtain rfl := Option.some.inj hc
    rw [ha.foreignList] at hf
    rw [ha.refersTo] at hp
    rcases hnew q hq with hold | hnew
    · exact hkey t.name t (Db.set_self db t) q hold (fun _ => hq) fgn hf key hp
    · exact hnew fgn hf key hp
  · rw [hother n hn] at hc
    exact hkey n c hc q hq (fun he => absurd he hn) fgn hf key hp

/-- A table with the same rows. -/
theorem referential_alike (h : Referential (db.set t)) (ha : Alike t t') (hr : t'.rows = t.rows) : Referential (db.set t') :=
  referential_set h ha (fun _ hq => .inl (hr ▸ hq)) fun _ _ _ _ _ _ _ _ _ p hp _ => ⟨p, hr ▸ hp, rfl⟩

/-! ### INSERT and LOAD DATA -/

/-- A table that has been given rows: `k` have been made, and these have been put in. -/
structure Added (db : Db) (org : Table) (k : ℕ) (added : List Row) (t : Table) : Prop where
  self : db org.name = some org
  alike : Alike org t
  tidy : t.Tidy
  columns : t.columns = columnsAt org k
  rows : t.rows.map Prod.snd = org.rows.map Prod.snd ++ added
  refers : Referential (db.set t)

section Added

variable {org : Table} {k : ℕ} {added : List Row}

theorem Alike.symm (h : Alike t t') : Alike t' t := ⟨h.name.symm, Eq.symm h.counted, h.foreignList.symm, h.indexList.symm⟩

theorem Added.advance (h : Added db org k added t) : Added db org (k + 1) added t.advance where
  self := h.self
  alike := h.alike.trans (alike_withColumns (counted_next t.columns))
  tidy := by
    refine ⟨?_, h.tidy.names, h.tidy.places, h.tidy.fresh, fun ndx hm => ?_⟩
    · show (t.advance.columns.map Column.name).Nodup
      rw [show t.advance.columns.map Column.name = t.columns.map Column.name from (counted_next t.columns).names]
      exact h.tidy.columns
    · simp only [Table.advance, Table.key_withColumns (counted_next t.columns)]
      exact h.tidy.elements ndx hm
  columns := by
    rw [columnsAt, Function.iterate_succ_apply', ← columnsAt, ← h.columns]
    rfl
  rows := h.rows
  refers := referential_alike h.refers (alike_withColumns (counted_next t.columns)) rfl

/-- The rows with the keys of a row are those of the table before the statement and those that have been put in. -/
theorem Added.keyTaken (h : Added db org k added t) : verifyUniqueKey t r = false ↔ KeyTaken org added r := by
  have hkeys : ∀ ndx ∈ t.indexList, ∀ ndx' : Index, (∀ x, t.key ndx x = org.key ndx' x) →
      ((∃ q ∈ t.rows, t.key ndx q.2 = t.key ndx r) ↔ ∃ q ∈ org.rows.map Prod.snd ++ added, org.key ndx' q = org.key ndx' r) := by
    intro ndx _ ndx' hkey
    rw [← h.rows]
    simp only [hkey, List.mem_map, exists_exists_and_eq_and]
  rw [← Bool.not_eq_true, verifyUniqueKey_iff h.tidy]
  push Not
  constructor
  · rintro ⟨ndx, hm, hu, hq⟩
    obtain ⟨ndx', hm', -, huniq, hkey⟩ := h.alike.index hm
    exact ⟨ndx', hm', huniq ▸ hu, (hkeys ndx hm ndx' hkey).mp hq⟩
  · rintro ⟨ndx', hm', hu, hq⟩
    obtain ⟨ndx, hm, -, huniq, hkey⟩ := h.alike.symm.index hm'
    exact ⟨ndx, hm, huniq ▸ hu, (hkeys ndx hm ndx' fun x => (hkey x).symm).mpr hq⟩

/-- A row is put in that finds the rows that it refers to. -/
theorem Added.insert (h : Added db org k added t) (hf : Finds db org added r) : Added db org k (added ++ [r]) (t.insert r) where
  self := h.self
  alike := h.alike.trans (alike_insert t r)
  tidy := h.tidy.insert r
  columns := h.columns
  rows := by rw [Table.insert_rows, List.map_append, h.rows, List.append_assoc]; rfl
  refers := by
    have hrows : (t.insert r).rows.map Prod.snd = org.rows.map Prod.snd ++ (added ++ [r]) := by
      rw [Table.insert_rows, List.map_append, h.rows, List.append_assoc]
      rfl
    refine referential_set h.refers (alike_insert t r) (fun q hq => ?_) fun _ _ _ _ _ _ _ _ _ p hp _ =>
      ⟨p, List.mem_append_left _ hp, rfl⟩
    rcases List.mem_append.mp hq with hq | hq
    · exact .inl hq
    obtain rfl := List.mem_singleton.mp hq
    refine .inr fun fgn hm key hrefers => ?_
    -- the key of a row that is there, as the table is behind the insert
    have hown : fgn.tbl = org.name → ∀ x ∈ org.rows.map Prod.snd ++ (added ++ [r]), org.primaryKey x = key →
        HasKey (db.set (t.insert r)) fgn.tbl key := by
      intro htbl x hx hk
      rw [← hrows] at hx
      obtain ⟨p, hp, rfl⟩ := List.mem_map.mp hx
      refine ⟨t.insert r, ?_, p, hp, ?_⟩
      · rw [htbl, ← h.alike.name]
        exact Db.set_self db (t.insert r)
      · rw [Table.insert_primaryKey, h.alike.primaryKey, hk]
    rw [h.alike.foreignList] at hm
    rw [h.alike.refersTo] at hrefers
    rcases hf fgn hm key hrefers with ⟨P, hP, q, hq, hk⟩ | ⟨htbl, q, hq, hk⟩
    · by_cases htbl : fgn.tbl = org.name
      · rw [htbl, h.self] at hP
        obtain rfl := Option.some.inj hP
        exact hown htbl q.2 (List.mem_append_left _ (List.mem_map_of_mem hq)) hk
      · refine ⟨P, ?_, q, hq, hk⟩
        rw [Db.set_of_ne (show fgn.tbl ≠ (t.insert r).name from fun he => htbl (he.trans h.alike.name)), hP]
    · exact hown htbl q (List.mem_append_right _ hq) hk

/-- A row that is put in unless its key is taken. -/
theorem Added.step {keeps : Bool} {values : List Text} {rest : List (List Text)} {left : Text} (h : Added db org k added t)
    (hr : AddsFind A keeps db org (values :: rest) left k added) (hf : fillRow A t.columns left values = some r) :
    (verifyUniqueKey t.advance r = false →
      Added db org (k + 1) added t.advance ∧ AddsFind A keeps db org rest (if keeps then r.data else []) (k + 1) added) ∧
    (verifyUniqueKey t.advance r = true →
      Added db org (k + 1) (added ++ [r]) (t.advance.insert r) ∧ AddsFind A keeps db org rest [] (k + 1) (added ++ [r])) := by
  have hadv := h.advance
  rw [h.columns] at hf
  obtain ⟨htaken, hnew⟩ := hr r hf
  refine ⟨fun hv => ⟨hadv, htaken (hadv.keyTaken.mp hv)⟩, fun hv => ?_⟩
  have hnot : ¬KeyTaken org added r := fun hk => by
    rw [hadv.keyTaken.mpr hk] at hv
    cases hv
  obtain ⟨hfinds, hrest⟩ := hnew hnot
  exact ⟨hadv.insert hfinds, hrest⟩

theorem Added.withColumns (h : Added db org k added t) {c : List Column} (hc : Counted c t.columns) :
    Referential (db.set (t.withColumns c)) := referential_alike h.refers (alike_withColumns hc) rfl

/-- The values of a row are taken by all columns or by none, whatever their counters are. -/
theorem Counted.verifyValueList {c c' : List Column} (h : Counted c c') (l : List (Text × Text)) :
    Dml.verifyValueList A c l = Dml.verifyValueList A c' l := by
  have hbase : ∀ c : List Column, Dml.verifyValueList A (c.map Column.base) l = Dml.verifyValueList A c l := fun c => by
    rw [Dml.verifyValueList, List.all_map]
    rfl
  rw [← hbase c, h, hbase c']

theorem Counted.makeValueList {c c' : List Column} (h : Counted c c') (l : List (Text × Text)) :
    Dml.makeValueList c l = Dml.makeValueList c' l := by
  have hbase : ∀ c : List Column, Dml.makeValueList (c.map Column.base) l = Dml.makeValueList c l := fun c => by
    rw [Dml.makeValueList, List.map_map]
    rfl
  rw [← hbase c, h, hbase c']

end Added

/-! ### DELETE -/

/-- A row that keeps its primary key, or that UPDATE does not take out: its key is still there. -/
theorem KeepsKey.there {rights : List (Text × Cond)} {sel : List (ℕ × Row)} {cond : Option Cond} {p : ℕ × Row} (hw : t.Wf)
    (hs : selects A t cond t.rows = some sel) (hp : p ∈ t.rows) (h : KeepsKey A t rights sel p) :
    ∃ q ∈ t.rows.filter (fun q => q.1 ∉ (taken sel (updates A t rights sel)).map Prod.fst) ++ newRows t.next (updates A t rights sel).1,
      t.primaryKey q.2 = t.primaryKey p.2 := by
  by_cases hm : p.1 ∈ (taken sel (updates A t rights sel)).map Prod.fst
  swap
  · exact ⟨p, List.mem_append_left _ (List.mem_filter.mpr ⟨hp, decide_eq_true hm⟩), rfl⟩
  obtain ⟨p', hp', hplace⟩ := List.mem_map.mp hm
  obtain rfl := List.inj_on_of_nodup_map hw.places
    ((selects_sublist hs).subset ((taken_sublist sel (updates A t rights sel)).subset hp')) hp hplace
  obtain ⟨k, hk, hget⟩ := List.mem_take_iff_getElem.mp hp'
  have hsel : sel[k]? = some p' := List.getElem?_eq_some_iff.mpr ⟨_, hget⟩
  by_cases hlt : k < (updates A t rights sel).1.length
  · obtain ⟨q, upd, hq, hu, values, hg, hpb⟩ := updates_isUpdate hlt
    obtain rfl := Option.some.inj (hsel.symm.trans hq)
    obtain ⟨upd', hpb', hkey⟩ := h k values hsel (fun j hj => putsBack_updates j (hj.trans hlt)) hg
    obtain rfl := Option.some.inj (hpb.symm.trans hpb')
    exact ⟨_, List.mem_append_right _ (mem_newRows hu), hkey⟩
  · have hbecause := @updates_because A rights t sel
    cases hstop : (updates A t rights sel).2 with
    | done =>
      rw [hstop, if_neg (by decide)] at hk
      omega
    | expression =>
      rw [hstop, if_neg (by decide)] at hk
      omega
    | refused =>
      -- the row that a column has refused
      rw [hstop, if_pos rfl] at hk
      rw [hstop] at hbecause
      obtain rfl : k = (updates A t rights sel).1.length := by omega
      obtain ⟨q, values, hq, hg, hpb⟩ := hbecause
      obtain rfl := Option.some.inj (hsel.symm.trans hq)
      obtain ⟨upd, hpb', -⟩ := h _ values hsel putsBack_updates hg
      rw [hpb] at hpb'
      cases hpb'

/-- A row that is put in. -/
theorem AddsFind.cons {keeps : Bool} {values : List Text} {rest : List (List Text)} {left : Text} {k : ℕ} {added : List Row}
    (hr : fillRow A (columnsAt t k) left values = some r) (hnot : ¬KeyTaken t added r) (hfinds : Finds db t added r)
    (h : AddsFind A keeps db t rest [] (k + 1) (added ++ [r])) : AddsFind A keeps db t (values :: rest) left k added := by
  intro r' hr'
  obtain rfl := Option.some.inj (hr.symm.trans hr')
  exact ⟨fun htaken => absurd htaken hnot, fun _ => ⟨hfinds, h⟩⟩

/-- A column that `vm::make_primary_key` has flagged. -/
def flaggedColumn (name : String) (size : ℕ) : Column :=
  { textColumn name size with type := .char, isNotNull := true, isPrimary := true, isUnique := true }

/-- `CREATE TABLE p (id CHAR(2), PRIMARY KEY (id))` -/
def parentTable : Table :=
  { name := ("d".toList, "p".toList)
    columns := [flaggedColumn "id" 2]
    indexList := [{ name := PK_NDX, isUnique := true, colNameList := ["id".toList], elements := [] }]
    foreignList := []
    rows := []
    next := 0 }

/-- `CREATE TABLE c (id CHAR(2), pid CHAR(2), PRIMARY KEY (id))` and
`ALTER TABLE c ADD FOREIGN KEY (pid) REFERENCES p (id)` -/
def childTable : Table :=
  { name := ("d".toList, "c".toList)
    columns := [flaggedColumn "id" 2, { textColumn "pid" 2 with type := .char }]
    indexList := [{ name := PK_NDX, isUnique := true, colNameList := ["id".toList], elements := [] }]
    foreignList := [{ name := "FGN_000".toList, tbl := parentTable.name, colNameList := ["pid".toList] }]
    rows := []
    next := 0 }

/-- A database of a parent and a child. -/
def familyDb (p c : Table) : Db := fun n => if n = parentTable.name then some p else if n = childTable.name then some c else none

/-- `INSERT INTO p VALUES ('1'), ('2')` -/
def insertParents : Statement := .insert [] [["1".toList], ["2".toList]]

/-- `INSERT INTO c VALUES ('1', ..)` -/
def insertChild (pid : String) : Statement := .insert [] [["1".toList, pid.toList]]

/-- The table of the parents behind the first statement. -/
def parents : Table := after (insertParents.run wholeNumbers (familyDb parentTable childTable) parentTable)

/-- The table of the child behind the second one. -/
def children : Table := after ((insertChild "1").run wholeNumbers (familyDb parents childTable) childTable)

end RedB.Dml
