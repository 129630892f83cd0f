import RedB.Ddl.Persist

/-!
# Restarts

Every schema that statements make has nothing that would be lost on disk (`Reachable.storable`).
So what a restart changes is the order of the columns, and it does from 101 different columns on.
-/

namespace RedB.Ddl

open Dml (Name)

/-! ### Columns -/

theorem hasFlag_or {flag flag' f : ℕ} (h : hasFlag (flag ||| flag') f = false) : hasFlag flag f = false := by
  rw [hasFlag, decide_eq_false_iff_not] at h ⊢
  intro hf
  rw [Nat.and_or_distrib_right, hf] at h
  refine h (Nat.eq_of_testBit_eq fun i => ?_)
  simp only [Nat.testBit_or, Nat.testBit_and]
  cases f.testBit i <;> simp

theorem Column.Storable.addFlag {col : Column} (h : col.Storable) (flag : ℕ) : (col.addFlag flag).Storable :=
  ⟨h.prec, fun hf => h.autoInc (hasFlag_or hf), h.enumList⟩

theorem storable_bare {col : Column} : col.bare.Storable ↔ col.Storable := ⟨fun h => ⟨h.1, h.2, h.3⟩, fun h => ⟨h.1, h.2, h.3⟩⟩

theorem storable_fixed {col : Column} : col.fixed.Storable ↔ col.Storable := by
  have hauto : hasFlag col.flag FLAG_AUTO_INC = false → col.fixed.autoInc = col.autoInc := fun h => by simp [Column.fixed, h]
  constructor
  · intro h
    exact ⟨h.prec, fun hf => (hauto hf).symm.trans (h.autoInc hf), h.enumList⟩
  · intro h
    exact ⟨h.prec, fun hf => (hauto hf).trans (h.autoInc hf), h.enumList⟩

/-- All columns have nothing that would be lost. -/
def StorableColumns (columns : List Column) : Prop := ∀ col ∈ columns, col.Storable

/-- Columns that are alike, but for what is always saved. -/
theorem StorableColumns.of_map {f : Column → Column} (hf : ∀ col, (f col).Storable ↔ col.Storable) {columns columns' : List Column}
    (h : StorableColumns columns) (he : columns'.map f = columns.map f) : StorableColumns columns' := by
  intro col hm
  obtain ⟨col', hm', hc⟩ := List.mem_map.mp (he ▸ List.mem_map_of_mem hm : f col ∈ columns.map f)
  exact (hf col).mp (hc ▸ (hf col').mpr (h col' hm'))

theorem StorableColumns.append {columns columns' : List Column} (h : StorableColumns columns) (h' : StorableColumns columns') :
    StorableColumns (columns ++ columns') := by
  intro col hm
  rcases List.mem_append.mp hm with hm | hm
  · exact h col hm
  · exact h' col hm

theorem StorableColumns.addFlag {columns : List Column} (h : StorableColumns columns) (flag : ℕ) :
    StorableColumns (columns.map (Column.addFlag flag)) := by
  intro col hm
  obtain ⟨col', hm', rfl⟩ := List.mem_map.mp hm
  exact (h col' hm').addFlag flag

theorem StorableColumns.flagColumn {columns : List Column} (h : StorableColumns columns) (flag : ℕ) (name : Text) :
    StorableColumns (flagColumn flag name columns) := by
  rw [Ddl.flagColumn]
  split
  · intro col hm
    obtain ⟨i, hi⟩ := List.mem_iff_getElem?.mp hm
    rw [List.getElem?_modify] at hi
    obtain ⟨col', hc, rfl⟩ := Option.map_eq_some_iff.mp hi
    have hs := h col' (List.mem_of_getElem? hc)
    split
    · exact hs.addFlag flag
    · exact hs
  · exact h

theorem StorableColumns.flagColumns {names : List Text} {columns : List Column} (h : StorableColumns columns) (flag : ℕ) :
    StorableColumns (names.foldl (fun columns name => Ddl.flagColumn flag name columns) columns) := by
  induction names generalizing columns with
  | nil => exact h
  | cons name names ih => exact ih (h.flagColumn flag name)

/-! ### Names of indexes and foreign keys -/

theorem NamesMade.addIndex {index : List Index} {foreign : List Foreign} (h : NamesMade index foreign) {ndx : Index}
    (hn : ndx.name ∉ index.map Index.name) (hs : NDX_ <+: ndx.name) : NamesMade (index ++ [ndx]) foreign where
  indexNames := by
    rw [List.map_append, List.nodup_append]
    refine ⟨h.indexNames, List.nodup_singleton _, ?_⟩
    rintro a ha b hb rfl
    exact hn (List.mem_singleton.mp hb ▸ ha)
  indexStart ndx' hm := by
    rcases List.mem_append.mp hm with hm | hm
    · exact h.indexStart ndx' hm
    · exact List.mem_singleton.mp hm ▸ hs
  foreignNames := h.foreignNames
  foreignStart := h.foreignStart

theorem NamesMade.addForeign {index : List Index} {foreign : List Foreign} (h : NamesMade index foreign) {fgn : Foreign}
    (hn : fgn.name ∉ foreign.map Foreign.name) (hs : FGN_ <+: fgn.name) : NamesMade index (foreign ++ [fgn]) where
  indexNames := h.indexNames
  indexStart := h.indexStart
  foreignNames := by
    rw [List.map_append, List.nodup_append]
    refine ⟨h.foreignNames, List.nodup_singleton _, ?_⟩
    rintro a ha b hb rfl
    exact hn (List.mem_singleton.mp hb ▸ ha)
  foreignStart fgn' hm := by
    rcases List.mem_append.mp hm with hm | hm
    · exact h.foreignStart fgn' hm
    · exact List.mem_singleton.mp hm ▸ hs

theorem NamesMade.sublist {index index' : List Index} {foreign foreign' : List Foreign} (h : NamesMade index foreign)
    (hi : index'.Sublist index) (hf : foreign'.Sublist foreign) : NamesMade index' foreign' where
  indexNames := (hi.map Index.name).nodup h.indexNames
  indexStart ndx hm := h.indexStart ndx (hi.subset hm)
  foreignNames := (hf.map Foreign.name).nodup h.foreignNames
  foreignStart fgn hm := h.foreignStart fgn (hf.subset hm)

theorem prefix_PK_NDX : NDX_ <+: PK_NDX := by decide

/-! ### Statements -/

/-- A working schema whose schema has nothing that would be lost. -/
structure WorkSchema.Storable (wrk : WorkSchema) : Prop where
  column : StorableColumns wrk.column
  names : NamesMade wrk.index wrk.foreign

theorem makeColumnDefinition_storable {name : Text} {type size precision flag : ℕ} {enumList : List Text} {wrk : WorkSchema}
    (h : wrk.Storable) : (makeColumnDefinition name type size precision enumList flag wrk).Storable := by
  have happend : ∀ col : Column, col.Storable → WorkSchema.Storable { wrk with column := wrk.column ++ [col] } := fun col hc =>
    ⟨h.column.append fun col' hm => List.mem_singleton.mp hm ▸ hc, h.names⟩
  rw [makeColumnDefinition]
  split
  · exact happend _ ⟨fun _ => rfl, fun _ => rfl, fun _ => rfl⟩
  · split
    · exact happend _ ⟨fun _ => rfl, fun _ => rfl, fun _ => rfl⟩
    · split
      · rename_i ht
        exact happend _ ⟨fun _ => rfl, fun _ => rfl, fun hne => absurd ht hne⟩
      · split
        · rename_i ht
          exact happend _ ⟨fun hne => absurd ht hne, fun _ => rfl, fun _ => rfl⟩
        · exact h

theorem makePrimaryKey_storable {colNameList : List Text} {wrk wrk' : WorkSchema} (h : wrk.Storable)
    (hm : makePrimaryKey colNameList wrk = .ok wrk') : wrk'.Storable := by
  rw [makePrimaryKey] at hm
  split at hm
  · cases hm
  rename_i hpk
  split at hm
  · cases hm
  split at hm
  · cases hm
  cases hm
  refine ⟨?_, h.names.addIndex ?_ prefix_PK_NDX⟩
  · refine StorableColumns.append (StorableColumns.addFlag (fun col hm => h.column col ?_) _) fun col hm => h.column col ?_
    · exact List.mem_of_mem_take hm
    · exact List.mem_of_mem_drop hm
  · intro hm
    obtain ⟨ndx, hn, he⟩ := List.mem_map.mp hm
    exact hpk (List.any_eq_true.mpr ⟨ndx, hn, decide_eq_true he⟩)

theorem makeAll_storable {db : Schemas} {ds : List Definition} {wrk wrk' : WorkSchema} (h : wrk.Storable) (hm : makeAll db ds wrk = .ok wrk') :
    wrk'.Storable := by
  induction ds generalizing wrk with
  | nil =>
    cases hm
    exact h
  | cons d ds ih =>
    obtain ⟨wrk₁, hd, hm⟩ := bind_ok.mp hm
    refine ih ?_ hm
    cases d with
    | column name type size precision enumList flag =>
      cases hd
      exact makeColumnDefinition_storable h
    | primaryKey colNameList => exact makePrimaryKey_storable h hd
    | foreignKey fkColNameList fgnTable pkColNameList =>
      obtain ⟨-, -, -, rfl⟩ := makeForeignKey_ok hd
      exact ⟨h.column, h.names.addForeign (makeName_fresh _ _) (prefix_makeName _ _)⟩

/-- Every change keeps what would be lost as it is. -/
theorem Change.storable {sch sch' : Schema} (hc : Change sch sch') (h : sch.Storable) : sch'.Storable := by
  cases hc with
  | refer hb => exact ⟨StorableColumns.of_map (fun _ => storable_bare) h.column hb, h.names⟩
  | addIndex => exact ⟨StorableColumns.flagColumns h.column _, h.names.addIndex (makeName_fresh _ _) (prefix_makeName _ _)⟩
  | removeIndex => exact ⟨h.column, h.names.sublist List.eraseP_sublist (List.Sublist.refl _)⟩
  | addForeign => exact ⟨h.column, h.names.addForeign (makeName_fresh _ _) (prefix_makeName _ _)⟩
  | dropForeign => exact ⟨h.column, h.names.sublist (List.Sublist.refl _) List.eraseP_sublist⟩
  | rows hf =>
    obtain ⟨-, hcol, hndx, hfgn⟩ := Schema.mk.inj hf
    have hname : ∀ l : List Index, l.map Index.name = (l.map Index.fixed).map Index.name := fun l => by rw [List.map_map]; rfl
    refine ⟨StorableColumns.of_map (fun _ => storable_fixed) h.column hcol.symm, ?_⟩
    have hnames : sch'.index.map Index.name = sch.index.map Index.name := by rw [hname, ← hndx, ← hname]
    refine ⟨hnames ▸ h.names.indexNames, fun ndx hm => ?_, hfgn ▸ h.names.foreignNames, hfgn ▸ h.names.foreignStart⟩
    obtain ⟨ndx', hm', he⟩ := List.mem_map.mp (hnames ▸ List.mem_map_of_mem hm : ndx.name ∈ sch.index.map Index.name)
    exact he ▸ h.names.indexStart ndx' hm'

theorem keyColumn_storable (name : String) : (keyColumn name).Storable := ⟨fun _ => rfl, fun _ => rfl, fun _ => rfl⟩

theorem privColumn_storable (name : String) : (privColumn name).Storable := ⟨fun _ => rfl, fun _ => rfl, fun h => absurd rfl h⟩

theorem storableColumns_map {α : Type} {f : α → Column} (h : ∀ a, (f a).Storable) (l : List α) : StorableColumns (l.map f) := by
  intro col hm
  obtain ⟨a, -, rfl⟩ := List.mem_map.mp hm
  exact h a

theorem keyedSchema_storable {name : Name} {key columns : List Column} (hk : StorableColumns key) (hc : StorableColumns columns) :
    (keyedSchema name key columns).Storable where
  column := hk.append hc
  names :=
    { indexNames := List.nodup_singleton _
      indexStart := fun _ hm => List.mem_singleton.mp hm ▸ prefix_PK_NDX
      foreignNames := List.nodup_nil
      foreignStart := nofun }

theorem credSchema_storable : credSchema.Storable := by
  refine keyedSchema_storable (storableColumns_map keyColumn_storable _) fun col hm => ?_
  rcases List.mem_cons.mp hm with rfl | hm
  · exact ⟨fun _ => rfl, fun _ => rfl, fun _ => rfl⟩
  · exact storableColumns_map privColumn_storable _ col hm

theorem privSchema_storable : privSchema.Storable :=
  keyedSchema_storable (storableColumns_map keyColumn_storable _) (storableColumns_map privColumn_storable _)

theorem Reachable.storable {db : Schemas} (hr : Reachable db) {name : Name} {sch : Schema} (hs : db name = some sch) : sch.Storable := by
  refine Reachable.schema credSchema_storable privSchema_storable ?_ (fun sch sch' => Change.storable) hr hs
  intro db name definitions wrk hm
  have hempty : WorkSchema.empty.Storable := ⟨nofun, List.nodup_nil, nofun, List.nodup_nil, nofun⟩
  have h := makeAll_storable hempty hm
  exact ⟨h.column, h.names⟩

/-! ### Restarts -/

/-- A schema is restored if and only if its columns are in the order of the names under which they are
saved. They are up to 100 columns, and they are not from 101 different columns on. -/
theorem schema_restored_iff {db : Schemas} (hr : Reachable db) {name : Name} {sch : Schema} (hs : db name = some sch) :
    (Restores sch ↔ InOrder sch.column) ∧ (sch.column.length ≤ 100 → InOrder sch.column) ∧
      (sch.column.Nodup → InOrder sch.column → sch.column.length ≤ 100) :=
  ⟨restores_iff (hr.storable hs), inOrder_of_le, length_le_of_inOrder⟩

theorem schema_restored_cred : Restores credSchema := by
  have hr : Reachable installed := ⟨[], rfl⟩
  have hs : installed ("etc".toList, "cred".toList) = some credSchema := if_pos rfl
  obtain ⟨h, hle, -⟩ := schema_restored_iff hr hs
  exact h.mpr (hle (by decide))

/-- The column with this number of a table of many. -/
def wideColumn (i : ℕ) : Column :=
  { flag := 0, prec := 0, size := 10, type := TYPE_INT, maxSize := 0, autoInc := 0, name := 'c' :: toText i, enumList := [],
    referenceList := [] }

/-- `CREATE TABLE` of this many columns, of which the first is the primary key. -/
def wide (n : ℕ) : List Definition :=
  (List.range n).map (fun i => .column ('c' :: toText i) TYPE_INT 10 0 [] 0) ++ [.primaryKey ["c0".toList]]

theorem makeAll_wide (db : Schemas) (is : List ℕ) (ds : List Definition) (columns : List Column) :
    makeAll db (is.map (fun i => .column ('c' :: toText i) TYPE_INT 10 0 [] 0) ++ ds) { WorkSchema.empty with column := columns } =
      makeAll db ds { WorkSchema.empty with column := columns ++ is.map wideColumn } := by
  induction is generalizing columns with
  | nil => rw [List.map_nil, List.map_nil, List.append_nil, List.nil_append]
  | cons i is ih =>
    rw [List.map_cons, List.map_cons, List.cons_append, makeAll, List.append_cons]
    exact ih _

theorem step_wide : ∃ db sch, step installed (.createTable ("d".toList, "t".toList) (wide 101)) = some db ∧
    db ("d".toList, "t".toList) = some sch ∧ sch.column.map Column.name = ((List.range 101).map wideColumn).map Column.name := by
  have hmake : ∃ wrk, makePrimaryKey ["c0".toList] { WorkSchema.empty with column := (List.range 101).map wideColumn } = .ok wrk ∧
      wrk.foreign = [] ∧ wrk.column.map Column.name = ((List.range 101).map wideColumn).map Column.name := by
    refine ⟨_, rfl, rfl, ?_⟩
    rw [List.map_append, List.map_map]
    exact (List.map_append ..).symm.trans (congrArg (List.map Column.name) (List.take_append_drop ..))
  obtain ⟨wrk, hwrk, hforeign, hnames⟩ := hmake
  have hall : makeAll installed (wide 101) WorkSchema.empty = .ok wrk := by
    refine (makeAll_wide installed (List.range 101) [.primaryKey ["c0".toList]] []).trans ?_
    rw [List.nil_append, makeAll, Definition.make, hwrk]
    rfl
  refine ⟨installed.set ("d".toList, "t".toList) (wrk.toSchema ("d".toList, "t".toList)), _, ?_, Schemas.set_self _ _ _, hnames⟩
  have hnew : installed ("d".toList, "t".toList) = none := rfl
  rw [step, Statement.exec, hall]
  show (createTable ("d".toList, "t".toList) wrk installed).toOption = _
  rw [createTable, hnew, hforeign]
  rfl

/-- A table of 101 columns. -/
theorem schema_not_restored : ¬∀ db name sch, Reachable db → db name = some sch → Restores sch := by
  intro h
  obtain ⟨db, sch, hstep, hs, hnames⟩ := step_wide
  have hr : Reachable db := ⟨[.createTable ("d".toList, "t".toList) (wide 101)], by rw [Actions.run, hstep]; rfl⟩
  have hnodup : (sch.column.map Column.name).Nodup := by
    rw [hnames, List.map_map]
    refine List.Nodup.map (fun i j hij => ?_) List.nodup_range
    exact padLeft_toText_inj (k := 0) (congrArg (Dml.padLeft 0 '0') (List.cons.inj hij).2)
  have hlength : sch.column.length = 101 := by
    have := congrArg List.length hnames
    rwa [List.length_map, List.length_map, List.length_map, List.length_range] at this
  obtain ⟨hiff, -, hle⟩ := schema_restored_iff hr hs
  have := hle (List.Nodup.of_map _ hnodup) (hiff.mp (h _ _ _ hr hs))
  omega

end RedB.Ddl
