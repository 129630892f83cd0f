import RedB.Ddl.Statements
import Mathlib.Data.List.Perm.Subperm

/-!
# The two declarations of a foreign key

CREATE TABLE stores the names of the primary key of the other table in a foreign key and refers
back from the first columns of that table; ALTER TABLE stores the names of the columns of the
table itself and refers back from the columns of the primary key. They agree, and do what they
should, if the columns have the names of the primary key and the primary key is made of the first
columns of the other table (`foreignKeys_agree_iff`).
-/

namespace RedB.Ddl

open Dml (Name)

/-- A column is one of those that the names name. -/
def Named (columns : List Column) (names : List Text) (i : ℕ) : Prop := ∃ name ∈ names, columnPos columns name = some i

instance (columns : List Column) (names : List Text) (i : ℕ) : Decidable (Named columns names i) :=
  inferInstanceAs (Decidable (∃ name ∈ names, columnPos columns name = some i))

/-- A foreign key of the table has been declared, between these two states of the schemas: it is
behind the others, with the names of columns of the table, so that a key is made of these columns
of a row; and there is one more back-reference at each column of the primary key of the other
table, and at no other column. -/
structure Declared (db db' : Schemas) (child parent : Name) (colNameList fgnNameList : List Text) : Prop where
  foreign : ∃ sch sch' fgnName, db child = some sch ∧ db' child = some sch' ∧
    sch'.foreign = sch.foreign ++ [{ name := fgnName, dbName := parent.1, tblName := parent.2, colNameList }] ∧
    (∀ r, sch'.makeForeignKey fgnName r = .ok (Dml.makeKey (sch'.column.map Column.toRow) colNameList r)) ∧
    ∃ p p', db parent = some p ∧ db' parent = some p' ∧
      p'.column = p.column.mapIdx fun i col => if Named p.column fgnNameList i then col.refer child fgnName else col

/-- Both declarations of a foreign key do what they should, and the table has the same foreign
keys behind both. -/
structure Agree (db dbCreate dbAlter : Schemas) (child parent : Name) (colNameList fgnNameList : List Text) : Prop where
  create : Declared db dbCreate child parent colNameList fgnNameList
  alter : Declared db dbAlter child parent colNameList fgnNameList
  same : (dbCreate child).map Schema.foreign = (dbAlter child).map Schema.foreign

/-! ### Back-references -/

variable {child : Name} {fgnName : Text}

theorem refer_ne (child : Name) (fgnName : Text) (col : Column) : col.refer child fgnName ≠ col := by
  intro h
  have := congrArg (fun col => col.referenceList.length) h
  simp [Column.refer] at this

/-- Back-references at different places. -/
theorem referAt_nodup {is : List ℕ} (h : is.Nodup) (columns : List Column) :
    referAt child fgnName is columns = columns.mapIdx fun i col => if i ∈ is then col.refer child fgnName else col := by
  induction is generalizing columns with
  | nil =>
    refine List.ext_getElem? fun i => ?_
    rw [referAt, List.getElem?_mapIdx]
    cases columns[i]? <;> rfl
  | cons k is ih =>
    obtain ⟨hk, hn⟩ := List.nodup_cons.mp h
    rw [referAt, ih hn]
    refine List.ext_getElem? fun i => ?_
    rw [List.getElem?_mapIdx, List.getElem?_mapIdx, List.getElem?_modify]
    rcases eq_or_ne k i with rfl | hik
    · cases columns[k]? <;> simp [hk]
    · cases columns[i]? <;> simp [hik, Ne.symm hik]

theorem names_of_toRow {columns columns' : List Column} (h : columns.map Column.toRow = columns'.map Column.toRow) :
    columns.map Column.name = columns'.map Column.name := by
  have := congrArg (List.map Dml.Column.name) h
  rwa [List.map_map, List.map_map] at this

theorem columnPos_of_toRow {columns columns' : List Column} (h : columns.map Column.toRow = columns'.map Column.toRow) :
    columnPos columns = columnPos columns' :=
  funext (columnPos_congr (names_of_toRow h))

theorem hasColumn_of_toRow {columns columns' : List Column} (h : columns.map Column.toRow = columns'.map Column.toRow) :
    hasColumn columns = hasColumn columns' := by
  funext name
  rw [Bool.eq_iff_iff, hasColumn_iff, hasColumn_iff, columnPos_of_toRow h]

theorem named_of_toRow {columns columns' : List Column} (h : columns.map Column.toRow = columns'.map Column.toRow) (names : List Text) :
    Named columns names = Named columns' names := by
  funext i
  rw [Named, Named, columnPos_of_toRow h]

/-- Back-references by names are back-references at the places of the names. -/
theorem referNamed_ok {names : List Text} {columns columns' : List Column} (h : referNamed child fgnName names columns = .ok columns') :
    ∃ is : List ℕ, names.map (columnPos columns) = is.map some ∧ columns' = referAt child fgnName is columns := by
  induction names generalizing columns with
  | nil =>
    cases h
    exact ⟨[], rfl, rfl⟩
  | cons name names ih =>
    rw [referNamed] at h
    split at h
    · rename_i i hi
      obtain ⟨is, his, hcol⟩ := ih h
      have hrow : (columns.modify i (Column.refer child fgnName)).map Column.toRow = columns.map Column.toRow :=
        map_modify (f := Column.refer child fgnName) (fun _ => rfl) _ _
      rw [columnPos_of_toRow hrow] at his
      refine ⟨i :: is, ?_, hcol⟩
      rw [List.map_cons, List.map_cons, hi, his]
    · cases h

/-! ### CREATE TABLE -/

/-- Schemas that are the same but for the keys of one table. -/
structure Like (child : Name) (db db' : Schemas) : Prop where
  others : ∀ n, n ≠ child → db n = db' n
  columns : (db child).map Schema.column = (db' child).map Schema.column

theorem Like.column {db db' : Schemas} (h : Like child db db') (n : Name) : (db n).map Schema.column = (db' n).map Schema.column := by
  by_cases hn : n = child
  · rw [hn, h.columns]
  · rw [h.others n hn]

theorem Like.set {db db' : Schemas} (h : Like child db db') {n : Name} {sch sch' : Schema} (hc : sch.column = sch'.column)
    (hs : n ≠ child → sch = sch') : Like child (db.set n sch) (db'.set n sch') where
  others m hm := by
    by_cases hn : m = n
    · subst hn
      rw [Schemas.set, Schemas.set, if_pos rfl, if_pos rfl, hs hm]
    · rw [Schemas.set, Schemas.set, if_neg hn, if_neg hn, h.others m hm]
  columns := by
    by_cases hn : child = n
    · rw [Schemas.set, Schemas.set, if_pos hn, if_pos hn, Option.map_some, Option.map_some, hc]
    · rw [Schemas.set, Schemas.set, if_neg hn, if_neg hn, h.columns]

theorem makeReference_append {l l' : List Foreign} {db r : Schemas} :
    makeReference child (l ++ l') db = .ok r ↔ ∃ d, makeReference child l db = .ok d ∧ makeReference child l' d = .ok r := by
  induction l generalizing db with
  | nil => exact ⟨fun h => ⟨db, rfl, h⟩, fun ⟨_, hd, h⟩ => (by cases hd; exact h)⟩
  | cons fgn l ih =>
    rw [List.cons_append, makeReference_cons]
    constructor
    · rintro ⟨sch, hs, hl, h⟩
      obtain ⟨d, hd, h⟩ := ih.mp h
      exact ⟨d, makeReference_cons.mpr ⟨sch, hs, hl, hd⟩, h⟩
    · rintro ⟨d, hd, h⟩
      obtain ⟨sch, hs, hl, hd⟩ := makeReference_cons.mp hd
      exact ⟨sch, hs, hl, ih.mpr ⟨d, hd, h⟩⟩

/-- Back-references do not depend on the keys of the tables. -/
theorem makeReference_like {l : List Foreign} {db db' r r' : Schemas} (hl : Like child db db') (h : makeReference child l db = .ok r)
    (h' : makeReference child l db' = .ok r') : Like child r r' := by
  induction l generalizing db db' with
  | nil =>
    cases h
    cases h'
    exact hl
  | cons fgn l ih =>
    obtain ⟨sch, hs, -, h⟩ := makeReference_cons.mp h
    obtain ⟨sch', hs', -, h'⟩ := makeReference_cons.mp h'
    have hcol : sch.column = sch'.column := by
      have := hl.column (fgn.dbName, fgn.tblName)
      rw [hs, hs'] at this
      exact Option.some.inj this
    refine ih (hl.set (by rw [hcol]) fun hn => ?_) h h'
    have := hl.others _ hn
    rw [hs, hs'] at this
    rw [Option.some.inj this]

/-- Back-references change nothing else. -/
theorem makeReference_frame {l : List Foreign} {db r : Schemas} (h : makeReference child l db = .ok r) (n : Name) :
    (r n).map (fun sch => (sch.foreign, sch.column.map Column.toRow)) =
      (db n).map fun sch => (sch.foreign, sch.column.map Column.toRow) := by
  induction l generalizing db with
  | nil =>
    cases h
    rfl
  | cons fgn l ih =>
    obtain ⟨sch, hs, -, h⟩ := makeReference_cons.mp h
    rw [ih h, Schemas.set]
    split
    · rename_i hn
      rw [hn, hs, Option.map_some, Option.map_some, referAt_map fun _ => rfl]
    · rfl

theorem addForeignKey_ok {child parent : Name} {colNameList fgnNameList : List Text} {db db' : Schemas} {sch p : Schema} (hne : parent ≠ child)
    (hsch : db child = some sch) (hp : db parent = some p) (h : addForeignKey child parent colNameList fgnNameList db = .ok db') :
    colNameList.all (hasColumn sch.column) = true ∧
      ∃ columns, referNamed child (makeName FGN_ (sch.foreign.map Foreign.name)) fgnNameList p.column = .ok columns ∧
        db' child = some { sch with foreign := sch.foreign ++
          [{ name := makeName FGN_ (sch.foreign.map Foreign.name), dbName := parent.1, tblName := parent.2, colNameList }] } ∧
        db' parent = some { p with column := columns } := by
  unfold addForeignKey at h
  obtain ⟨p', hp', h⟩ := bind_ok.mp h
  obtain rfl := Option.some.inj (hp.symm.trans (table_ok.mp hp'))
  obtain ⟨sch', hs', h⟩ := bind_ok.mp h
  obtain rfl := Option.some.inj (hsch.symm.trans (table_ok.mp hs'))
  split at h
  · cases h
  rename_i hc
  obtain ⟨ndx, -, h⟩ := bind_ok.mp h
  split at h
  · cases h
  obtain ⟨p', hp', h⟩ := bind_ok.mp h
  rw [table_ok, Schemas.set, if_neg hne, hp] at hp'
  obtain rfl := Option.some.inj hp'
  obtain ⟨columns, hr, h⟩ := bind_ok.mp h
  cases h
  refine ⟨by simpa using hc, columns, hr, ?_, ?_⟩
  · rw [Schemas.set, if_neg (Ne.symm hne), Schemas.set, if_pos rfl]
  · rw [Schemas.set, if_pos rfl]

/-! ### Both declarations -/

/-- A new foreign key behind the others is found under its new name. -/
theorem getForeign_last {sch : Schema} {l : List Foreign} {fgn : Foreign} (h : sch.foreign = l ++ [fgn]) (hn : fgn.name ∉ l.map Foreign.name) :
    sch.getForeign fgn.name = .ok fgn := by
  have hnone : (l.find? fun f => f.name = fgn.name) = none := by
    rw [List.find?_eq_none]
    intro f hf he
    exact hn (List.mem_map.mpr ⟨f, hf, by simpa using he⟩)
  rw [Schema.getForeign, h, List.find?_append, hnone]
  simp
  rfl

/-- When a foreign key has been declared as it should. -/
theorem declared_iff {db db' : Schemas} {child parent : Name} {names colNameList fgnNameList : List Text} {sch sch' p p' : Schema}
    {fgnName : Text} (hsch : db child = some sch) (hsch' : db' child = some sch') (hp : db parent = some p) (hp' : db' parent = some p')
    (hf : sch'.foreign = sch.foreign ++ [{ name := fgnName, dbName := parent.1, tblName := parent.2, colNameList := names }])
    (hn : fgnName ∉ sch.foreign.map Foreign.name) (hc : colNameList.all (hasColumn sch'.column) = true) :
    Declared db db' child parent colNameList fgnNameList ↔ names = colNameList ∧
      p'.column = p.column.mapIdx fun i col => if Named p.column fgnNameList i then col.refer child fgnName else col := by
  constructor
  · rintro ⟨s, s', name, hs, hs', hnew, -, q, q', hq, hq', hcol⟩
    obtain rfl := Option.some.inj (hsch.symm.trans hs)
    obtain rfl := Option.some.inj (hsch'.symm.trans hs')
    obtain rfl := Option.some.inj (hp.symm.trans hq)
    obtain rfl := Option.some.inj (hp'.symm.trans hq')
    have he := List.append_cancel_left (hf.symm.trans hnew)
    simp only [List.cons.injEq, Foreign.mk.injEq, and_true, true_and] at he
    obtain ⟨rfl, rfl⟩ := he
    exact ⟨rfl, hcol⟩
  · rintro ⟨rfl, hcol⟩
    refine ⟨sch, sch', fgnName, hsch, hsch', hf, fun r => ?_, p, p', hp, hp', hcol⟩
    rw [Schema.makeForeignKey, getForeign_last hf hn]
    exact if_pos hc

/-- Back-references at some places are those that there should be. -/
theorem mapIdx_refer_iff {columns : List Column} {P Q : ℕ → Prop} [DecidablePred P] [DecidablePred Q] :
    (columns.mapIdx fun i col => if P i then col.refer child fgnName else col) =
      (columns.mapIdx fun i col => if Q i then col.refer child fgnName else col) ↔ ∀ i < columns.length, P i ↔ Q i := by
  rw [List.ext_getElem?_iff]
  simp only [List.getElem?_mapIdx]
  constructor
  · intro h i hi
    have he := h i
    rw [List.getElem?_eq_getElem hi, Option.map_some, Option.map_some, Option.some.injEq] at he
    by_cases hP : P i <;> by_cases hQ : Q i
    · exact iff_of_true hP hQ
    · rw [if_pos hP, if_neg hQ] at he
      exact absurd he (refer_ne _ _ _)
    · rw [if_neg hP, if_pos hQ] at he
      exact absurd he.symm (refer_ne _ _ _)
    · exact iff_of_false hP hQ
  · intro h i
    by_cases hi : i < columns.length
    · rw [List.getElem?_eq_getElem hi, Option.map_some, Option.map_some]
      simp only [h i hi]
    · rw [List.getElem?_eq_none (Nat.not_lt.mp hi)]
      rfl

theorem named_iff_mem {columns : List Column} {names : List Text} {is : List ℕ} (h : names.map (columnPos columns) = is.map some) (i : ℕ) :
    Named columns names i ↔ i ∈ is := by
  rw [Named, ← List.mem_map, h, List.mem_map]
  simp

/-- As many names as places that they name name different places. -/
theorem nodup_of_named {columns : List Column} {names : List Text} {is : List ℕ} (h : names.map (columnPos columns) = is.map some)
    (hl : names.length ≤ columns.length) (hn : ∀ i < columns.length, i < names.length ↔ Named columns names i) : is.Nodup := by
  have hlen : is.length = names.length := by
    have := congrArg List.length h
    rw [List.length_map, List.length_map] at this
    exact this.symm
  have hsub : List.range names.length ⊆ is := by
    intro i hi
    have hi := List.mem_range.mp hi
    exact (named_iff_mem h i).mp ((hn i (hi.trans_le hl)).mp hi)
  have hperm := (List.nodup_range.subperm hsub).perm_of_length_le (by rw [hlen, List.length_range])
  exact hperm.nodup List.nodup_range

/-- What there is behind CREATE TABLE, with the key of the statement and without. -/
structure Created (db0 dbCreate : Schemas) (child parent : Name) (wrk : WorkSchema) (pk : List Text) (p q sch sch' : Schema) : Prop where
  /-- The other table, and the table, behind the statement without the key. -/
  other : db0 parent = some q
  own : db0 child = some sch
  toRow_other : q.column.map Column.toRow = p.column.map Column.toRow
  foreign_own : sch.foreign = wrk.foreign
  toRow_own : sch.column.map Column.toRow = wrk.column.map Column.toRow
  length_le : pk.length ≤ q.column.length
  /-- Both, behind the statement with the key. -/
  other' : dbCreate parent =
    some { q with column := referAt child (makeName FGN_ (wrk.foreign.map Foreign.name)) (List.range pk.length) q.column }
  own' : dbCreate child = some sch'
  foreign_own' : sch'.foreign = wrk.foreign ++
    [{ name := makeName FGN_ (wrk.foreign.map Foreign.name), dbName := parent.1, tblName := parent.2, colNameList := pk }]
  toRow_own' : sch'.column.map Column.toRow = wrk.column.map Column.toRow

theorem created {db db0 dbCreate : Schemas} {wrk : WorkSchema} {child parent : Name} {pk : List Text} {p : Schema} (hp : db parent = some p)
    (hc : createTable child { wrk with foreign := wrk.foreign ++
      [{ name := makeName FGN_ (wrk.foreign.map Foreign.name), dbName := parent.1, tblName := parent.2, colNameList := pk }] } db = .ok dbCreate)
    (h0 : createTable child wrk db = .ok db0) : ∃ q sch sch', Created db0 dbCreate child parent wrk pk p q sch sch' := by
  obtain ⟨hnew, hc⟩ := createTable_ok.mp hc
  obtain ⟨-, h0⟩ := createTable_ok.mp h0
  obtain ⟨db1, h1, hc⟩ := makeReference_append.mp hc
  obtain ⟨q, hq, hlen, hc⟩ := makeReference_cons.mp hc
  cases hc
  have hne : parent ≠ child := by
    rintro rfl
    rw [hnew] at hp
    cases hp
  have hlike : Like child db1 db0 := by
    refine makeReference_like ?_ h1 h0
    exact Like.set ⟨fun _ _ => rfl, rfl⟩ rfl fun hn => absurd rfl hn
  have hframe1 := makeReference_frame h1
  have hframe0 := makeReference_frame h0
  have hset : ∀ sch, (db.set child sch) child = some sch := fun _ => if_pos rfl
  obtain ⟨sch', hs', he'⟩ := Option.map_eq_some_iff.mp ((hframe1 child).trans (congrArg _ (hset _)))
  obtain ⟨sch, hs, he⟩ := Option.map_eq_some_iff.mp ((hframe0 child).trans (congrArg _ (hset _)))
  have hq0 : db0 parent = some q := by rw [← hlike.others parent hne, hq]
  have heq := (hframe0 parent).symm
  rw [Schemas.set, if_neg hne, hp, hq0] at heq
  obtain ⟨-, heq⟩ := Prod.mk.inj (Option.some.inj heq)
  obtain ⟨hf, hr⟩ := Prod.mk.inj he
  obtain ⟨hf', hr'⟩ := Prod.mk.inj he'
  refine ⟨q, sch, sch', hq0, hs, heq.symm, hf, hr, hlen, if_pos rfl, ?_, hf', hr'⟩
  rw [Schemas.set, if_neg (Ne.symm hne), hs']

theorem foreignKeys_agree_iff {db db0 dbCreate dbAlter : Schemas} {wrk wrk' : WorkSchema} {child parent : Name} {fk pk : List Text} {p : Schema}
    (hp : db parent = some p) (hw : makeForeignKey db fk parent pk wrk = .ok wrk') (hc : createTable child wrk' db = .ok dbCreate)
    (h0 : createTable child wrk db = .ok db0) (ha : addForeignKey child parent fk pk db0 = .ok dbAlter) :
    Agree db0 dbCreate dbAlter child parent fk pk ↔
      fk = pk ∧ ∀ i < p.column.length, i < pk.length ↔ Named p.column pk i := by
  obtain ⟨-, hfk, -, rfl⟩ := makeForeignKey_ok hw
  obtain ⟨q, sch, sch', hm⟩ := created hp hc h0
  have hne : parent ≠ child := by
    rintro rfl
    rw [(createTable_ok.mp h0).1] at hp
    cases hp
  have hlen : p.column.length = q.column.length := by
    have := congrArg List.length hm.toRow_other
    rwa [List.length_map, List.length_map, eq_comm] at this
  have hnew : makeName FGN_ (wrk.foreign.map Foreign.name) ∉ sch.foreign.map Foreign.name := by
    rw [hm.foreign_own]
    exact makeName_fresh _ _
  have hcreate : Declared db0 dbCreate child parent fk pk ↔ _ :=
    declared_iff hm.own hm.own' hm.other hm.other' (by rw [hm.foreign_own', hm.foreign_own]) hnew
      (by rwa [hasColumn_of_toRow hm.toRow_own'])
  rw [referAt_nodup List.nodup_range] at hcreate
  simp only [List.mem_range] at hcreate
  rw [mapIdx_refer_iff, named_of_toRow hm.toRow_other, ← hlen] at hcreate
  constructor
  · intro h
    obtain ⟨hpk, hn⟩ := hcreate.mp h.create
    exact ⟨hpk.symm, hn⟩
  · rintro ⟨rfl, hn⟩
    obtain ⟨hcol, columns, hr, halter, halter'⟩ := addForeignKey_ok hne hm.own hm.other ha
    rw [hm.foreign_own] at hr halter hnew
    obtain ⟨is, his, rfl⟩ := referNamed_ok hr
    refine ⟨hcreate.mpr ⟨rfl, hn⟩, ?_, ?_⟩
    · refine (declared_iff hm.own halter hm.other halter' (by rw [hm.foreign_own]) (by rwa [hm.foreign_own]) hcol).mpr ⟨rfl, ?_⟩
      rw [hlen, ← named_of_toRow hm.toRow_other] at hn
      rw [referAt_nodup (nodup_of_named his hm.length_le hn), mapIdx_refer_iff]
      exact fun i _ => (named_iff_mem his i).symm
    · rw [halter, hm.own', Option.map_some, Option.map_some, hm.foreign_own']

/-! ### `CREATE TABLE c (x INT)` with a foreign key on `CREATE TABLE p (id INT, PRIMARY KEY (id))` -/

/-- A working schema of one column. -/
def oneColumn (name : Text) : WorkSchema := makeColumnDefinition name TYPE_INT 10 0 [] 0 { column := [], index := [], foreign := [] }

def tableP : Name := ("d".toList, "p".toList)

def tableC : Name := ("d".toList, "c".toList)

/-- The schemas behind the first statement. -/
def withParent : Schemas :=
  match makePrimaryKey ["id".toList] (oneColumn "id".toList) with
  | .ok wrk => Schemas.set (fun _ => none) tableP (wrk.toSchema tableP)
  | .error _ => fun _ => none

/-- Both declarations of the key for a column of this name. -/
def declare (x : Text) : Except Err (WorkSchema × Schemas × Schemas × Schemas) := do
  let wrk ← makeForeignKey withParent [x] tableP ["id".toList] (oneColumn x)
  let dbCreate ← createTable tableC wrk withParent
  let db ← createTable tableC (oneColumn x) withParent
  let dbAlter ← addForeignKey tableC tableP [x] ["id".toList] db
  pure (wrk, dbCreate, db, dbAlter)

theorem declare_ok {x : Text} (h : (declare x).toBool = true) : ∃ wrk dbCreate db dbAlter,
    makeForeignKey withParent [x] tableP ["id".toList] (oneColumn x) = .ok wrk ∧ createTable tableC wrk withParent = .ok dbCreate ∧
      createTable tableC (oneColumn x) withParent = .ok db ∧ addForeignKey tableC tableP [x] ["id".toList] db = .ok dbAlter := by
  cases hd : declare x with
  | error e =>
    rw [hd] at h
    cases h
  | ok r =>
    obtain ⟨wrk, h1, hd⟩ := bind_ok.mp hd
    obtain ⟨dbCreate, h2, hd⟩ := bind_ok.mp hd
    obtain ⟨db, h3, hd⟩ := bind_ok.mp hd
    obtain ⟨dbAlter, h4, -⟩ := bind_ok.mp hd
    exact ⟨wrk, dbCreate, db, dbAlter, h1, h2, h3, h4⟩

theorem withParent_tableP : ∃ p, withParent tableP = some p ∧ p.column.map Column.name = ["id".toList] := by
  have h : (withParent tableP).map (fun p => p.column.map Column.name) = some ["id".toList] := by decide +kernel
  exact Option.map_eq_some_iff.mp h

theorem foreignKeys_agree_id : ∃ wrk dbCreate db dbAlter,
    makeForeignKey withParent ["id".toList] tableP ["id".toList] (oneColumn "id".toList) = .ok wrk ∧
      createTable tableC wrk withParent = .ok dbCreate ∧ createTable tableC (oneColumn "id".toList) withParent = .ok db ∧
      addForeignKey tableC tableP ["id".toList] ["id".toList] db = .ok dbAlter ∧
      Agree db dbCreate dbAlter tableC tableP ["id".toList] ["id".toList] := by
  obtain ⟨wrk, dbCreate, db, dbAlter, h1, h2, h3, h4⟩ := declare_ok (x := "id".toList) (by decide +kernel)
  obtain ⟨p, hp, hn⟩ := withParent_tableP
  refine ⟨wrk, dbCreate, db, dbAlter, h1, h2, h3, h4, (foreignKeys_agree_iff hp h1 h2 h3 h4).mpr ⟨rfl, ?_⟩⟩
  obtain ⟨col, hcol, hname⟩ := List.map_eq_singleton_iff.mp hn
  intro i hi
  rw [hcol, List.length_singleton] at hi
  obtain rfl : i = 0 := by omega
  refine iff_of_true (by decide) ⟨"id".toList, List.mem_singleton_self _, ?_⟩
  rw [columnPos, hcol, List.findIdx?_cons, hname]
  rfl

/-- The key of the column `x` is stored with the name `id` in CREATE TABLE. -/
theorem foreignKeys_disagree : ¬∀ (db db0 dbCreate dbAlter : Schemas) (wrk wrk' : WorkSchema) (child parent : Name) (fk pk : List Text),
    makeForeignKey db fk parent pk wrk = .ok wrk' → createTable child wrk' db = .ok dbCreate → createTable child wrk db = .ok db0 →
      addForeignKey child parent fk pk db0 = .ok dbAlter → Agree db0 dbCreate dbAlter child parent fk pk := by
  intro h
  obtain ⟨wrk, dbCreate, db, dbAlter, h1, h2, h3, h4⟩ := declare_ok (x := "x".toList) (by decide +kernel)
  have ha := h _ _ _ _ _ _ _ _ _ _ h1 h2 h3 h4
  obtain ⟨p, hp, -⟩ := withParent_tableP
  obtain ⟨hx, -⟩ := (foreignKeys_agree_iff hp h1 h2 h3 h4).mp ha
  exact absurd hx (by decide)

end RedB.Ddl
