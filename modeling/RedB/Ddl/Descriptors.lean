import RedB.Ddl.Keys

/-!
# Descriptors of new indexes

An index is made by CREATE TABLE, for a primary or a unique key, or by ALTER TABLE. Its descriptor has
the names of columns and the size of the keys, and the columns get its flags.

ALTER TABLE goes by the names, and so does a unique key, which takes names without a column for none.
The primary key goes by the places of the first columns: it is described as it is named if and only if
those are the columns that are named (`descriptors_iff`).
-/

namespace RedB.Ddl

open Dml (Name)

/-! ### Declarations -/

/-- The flags of a unique key. -/
def uniqueFlag : ℕ := FLAG_UNIQUE

/-- `vm::make_unique_key`: names without a column are passed over. -/
def makeUniqueKey (colNameList : List Text) (wrk : WorkSchema) : Except Err WorkSchema :=
  if wrk.index.any fun ndx => colNameList.all ndx.colNameList.contains then throw .malformedUniqueKey
  else
    let ukSize := (colNameList.map (columnSize wrk.column)).sum
    pure { wrk with
      column := colNameList.foldl (fun columns name => flagColumn uniqueFlag name columns) wrk.column
      index := wrk.index ++ [{ flag := uniqueFlag, order := order ukSize, keySize := ukSize, blockCount := 0, generation := 0,
                               root := -1, name := makeName NDX_ (wrk.index.map Index.name), colNameList }] }

/-- A part of CREATE TABLE, with unique keys. -/
inductive Declaration where
  | definition (d : Definition)
  | uniqueKey (colNameList : List Text)
deriving DecidableEq, Repr

/-- A part of CREATE TABLE, in the working schema. -/
def Declaration.make (db : Schemas) : Declaration → WorkSchema → Except Err WorkSchema
  | .definition d, wrk => d.make db wrk
  | .uniqueKey colNameList, wrk => makeUniqueKey colNameList wrk

/-- The parts of CREATE TABLE, one after the other. -/
def declareAll (db : Schemas) : List Declaration → WorkSchema → Except Err WorkSchema
  | [], wrk => pure wrk
  | d :: ds, wrk => do
      let wrk ← d.make db wrk
      declareAll db ds wrk

/-- The names of a key of the table itself. -/
def Declaration.key : Declaration → Option (List Text)
  | .definition (.primaryKey colNameList) => some colNameList
  | .uniqueKey colNameList => some colNameList
  | _ => none

/-- A declaration of the language: a column is declared without `FLAG_PRIMARY`. -/
def Declaration.Plain : Declaration → Prop
  | .definition (.column _ _ _ _ _ flag) => hasFlag flag FLAG_PRIMARY = false
  | _ => True

/-! ### Descriptors -/

/-- The places of columns. -/
def places (columns : List Column) (names : List Text) : List ℕ := names.filterMap (columnPos columns)

/-- The columns with flags at some places. -/
def flagAt (flag : ℕ) (at_ : ℕ → Bool) (columns : List Column) : List Column :=
  columns.mapIdx fun i col => if at_ i then col.addFlag flag else col

/-- A new index is described by these names of columns: all of them are columns, their sizes make the
size of the key, and they are the columns that get the flags. -/
structure Describes (columns columns' : List Column) (ndx : Index) (names : List Text) : Prop where
  colNameList : ndx.colNameList = names
  named : ∀ name ∈ names, hasColumn columns name = true
  keySize : ndx.keySize = (names.map (columnSize columns)).sum
  flags : columns' = flagAt ndx.flag (fun i => i ∈ places columns names) columns

/-- A key that has been declared is described by its names. -/
def Declaration.Described (d : Declaration) (wrk wrk' : WorkSchema) : Prop :=
  ∀ names, d.key = some names → ∃ ndx, wrk'.index = wrk.index ++ [ndx] ∧ Describes wrk.column wrk'.column ndx names

/-- The names of a key are those of columns, and of the first columns for the primary key. -/
def Declaration.Leading (wrk : WorkSchema) : Declaration → Prop
  | .definition (.primaryKey colNameList) => ∀ i < colNameList.length, i ∈ places wrk.column colNameList
  | .uniqueKey colNameList => ∀ name ∈ colNameList, hasColumn wrk.column name = true
  | _ => True

instance (wrk : WorkSchema) (d : Declaration) : Decidable (d.Leading wrk) :=
  match d with
  | .definition (.primaryKey colNameList) =>
      inferInstanceAs (Decidable (∀ i < colNameList.length, i ∈ places wrk.column colNameList))
  | .uniqueKey colNameList => inferInstanceAs (Decidable (∀ name ∈ colNameList, hasColumn wrk.column name = true))
  | .definition (.column ..) => inferInstanceAs (Decidable True)
  | .definition (.foreignKey ..) => inferInstanceAs (Decidable True)

/-- What holds of all declarations, in the working schemas before and behind them. -/
def EachDeclared (db : Schemas) (P : Declaration → WorkSchema → WorkSchema → Prop) : List Declaration → WorkSchema → Prop
  | [], _ => True
  | d :: ds, wrk =>
      match d.make db wrk with
      | .ok wrk' => P d wrk wrk' ∧ EachDeclared db P ds wrk'
      | .error _ => True

/-- All keys of CREATE TABLE are described by their names. -/
def AllDescribed (db : Schemas) (ds : List Declaration) : Prop := EachDeclared db Declaration.Described ds WorkSchema.empty

/-- All keys of CREATE TABLE have the names of columns, and of the first columns for the primary key. -/
def AllLeading (db : Schemas) (ds : List Declaration) : Prop := EachDeclared db (fun d wrk _ => d.Leading wrk) ds WorkSchema.empty

instance decidableEachDeclared (db : Schemas) (ds : List Declaration) (wrk : WorkSchema) :
    Decidable (EachDeclared db (fun d wrk _ => d.Leading wrk) ds wrk) :=
  match ds with
  | [] => inferInstanceAs (Decidable True)
  | d :: ds =>
      show Decidable (match d.make db wrk with
        | .ok wrk' => d.Leading wrk ∧ EachDeclared db (fun d wrk _ => d.Leading wrk) ds wrk'
        | .error _ => True) from
      match d.make db wrk with
      | .ok wrk' => @instDecidableAnd _ _ _ (decidableEachDeclared db ds wrk')
      | .error _ => inferInstanceAs (Decidable True)

instance (db : Schemas) (ds : List Declaration) : Decidable (AllLeading db ds) := decidableEachDeclared db ds WorkSchema.empty

/-! ### Flags at places -/

theorem addFlag_addFlag (flag : ℕ) (col : Column) : (col.addFlag flag).addFlag flag = col.addFlag flag := by
  rw [Column.addFlag, Column.addFlag, Nat.or_assoc, Nat.or_self]

theorem addFlag_eq_self {flag : ℕ} {col : Column} (h : col.addFlag flag = col) : col.flag ||| flag = col.flag :=
  congrArg Column.flag h

@[simp] theorem length_flagAt (flag : ℕ) (at_ : ℕ → Bool) (columns : List Column) : (flagAt flag at_ columns).length = columns.length :=
  List.length_mapIdx

theorem getElem?_flagAt {flag : ℕ} {at_ : ℕ → Bool} {columns : List Column} (i : ℕ) :
    (flagAt flag at_ columns)[i]? = columns[i]?.map fun col => if at_ i then col.addFlag flag else col := List.getElem?_mapIdx

/-- One name after the other. -/
theorem flagColumns_eq (flag : ℕ) (names : List Text) (columns : List Column) :
    names.foldl (fun columns name => flagColumn flag name columns) columns = flagAt flag (fun i => i ∈ places columns names) columns := by
  induction names generalizing columns with
  | nil =>
    refine List.ext_getElem? fun i => ?_
    rw [getElem?_flagAt]
    simp [places]
  | cons name names ih =>
    rw [List.foldl_cons, ih, flagColumn]
    cases hp : columnPos columns name with
    | none =>
      rw [places, places, List.filterMap_cons_none hp]
    | some k =>
      have hnames : (columns.modify k (Column.addFlag flag)).map Column.name = columns.map Column.name :=
        map_modify (f := Column.addFlag flag) (fun _ => rfl) _ _
      have hplaces : places (columns.modify k (Column.addFlag flag)) names = places columns names :=
        List.filterMap_congr fun n _ => columnPos_congr hnames n
      have hcons : places columns (name :: names) = k :: places columns names := List.filterMap_cons_some hp
      refine List.ext_getElem? fun i => ?_
      rw [getElem?_flagAt, getElem?_flagAt, hplaces, hcons, List.getElem?_modify, Option.map_eq_map, Option.map_map]
      refine Option.map_congr fun col _ => ?_
      simp only [Function.comp_apply, List.mem_cons, decide_eq_true_eq]
      by_cases hk : k = i
      · rw [if_pos hk, if_pos (Or.inl hk.symm)]
        split
        · exact addFlag_addFlag flag col
        · rfl
      · rw [if_neg hk]
        simp [Ne.symm hk]

/-! ### Sizes of columns at places -/

/-- The size of the column at a place. -/
def sizeAt (columns : List Column) (i : ℕ) : ℕ := ((columns[i]?).map Column.size).getD 0

theorem columnSize_eq (columns : List Column) (name : Text) : columnSize columns name = ((columnPos columns name).map (sizeAt columns)).getD 0 := by
  rw [columnSize]
  cases columnPos columns name <;> rfl

theorem sum_columnSize (columns : List Column) (names : List Text) :
    (names.map (columnSize columns)).sum = ((places columns names).map (sizeAt columns)).sum := by
  induction names with
  | nil => rfl
  | cons name names ih =>
    rw [List.map_cons, List.sum_cons, ih, columnSize_eq]
    cases hp : columnPos columns name with
    | none =>
      rw [places, places, List.filterMap_cons_none hp]
      exact Nat.zero_add _
    | some i =>
      rw [places, places, List.filterMap_cons_some hp]
      rfl

theorem sum_take (columns : List Column) {k : ℕ} (hk : k ≤ columns.length) :
    ((List.range k).map (sizeAt columns)).sum = ((columns.take k).map Column.size).sum := by
  congr 1
  refine List.ext_getElem (by simp [hk]) fun i hi _ => ?_
  rw [List.length_map, List.length_range] at hi
  simp [sizeAt, List.getElem?_eq_getElem (lt_of_lt_of_le hi hk)]

/-- As many names as there are first columns are those of the first columns, if all of these are among them. -/
theorem perm_places {columns : List Column} {names : List Text} (h : ∀ i < names.length, i ∈ places columns names) :
    (List.range names.length).Perm (places columns names) := by
  have hsub : List.range names.length ⊆ places columns names := fun i hi => h i (List.mem_range.mp hi)
  refine (List.nodup_range.subperm hsub).perm_of_length_le ?_
  rw [List.length_range]
  exact List.length_filterMap_le ..

/-! ### The keys of CREATE TABLE -/

/-- There is no column of a primary key as long as there is no primary key. -/
def WorkSchema.Plain (wrk : WorkSchema) : Prop :=
  (wrk.index.any fun ndx => ndx.name = PK_NDX) = false → ∀ col ∈ wrk.column, hasFlag col.flag FLAG_PRIMARY = false

theorem take_addFlag (flag k : ℕ) (columns : List Column) :
    (columns.take k).map (Column.addFlag flag) ++ columns.drop k = flagAt flag (fun i => i < k) columns := by
  refine List.ext_getElem? fun i => ?_
  rw [getElem?_flagAt]
  by_cases hi : i < k
  · by_cases hl : i < columns.length
    · rw [List.getElem?_append_left (by simp [hi, hl]), List.getElem?_map, List.getElem?_take_of_lt hi]
      simp [hi]
    · have hlen : ((columns.take k).map (Column.addFlag flag) ++ columns.drop k).length ≤ i := by
        simp
        omega
      rw [List.getElem?_eq_none hlen, List.getElem?_eq_none (Nat.not_lt.mp hl), Option.map_none]
  · by_cases hk : k ≤ columns.length
    · rw [List.getElem?_append_right (by simp; omega), List.length_map, List.length_take, min_eq_left hk, List.getElem?_drop,
        Nat.add_sub_cancel' (Nat.not_lt.mp hi)]
      simp [hi]
    · have hlen : ((columns.take k).map (Column.addFlag flag) ++ columns.drop k).length ≤ i := by
        simp
        omega
      rw [List.getElem?_eq_none hlen, List.getElem?_eq_none (by omega), Option.map_none]

/-- The descriptor of a primary key, by the first columns. -/
def primaryIndex (columns : List Column) (names : List Text) : Index :=
  let keySize := ((columns.take names.length).map Column.size).sum
  { flag := primaryFlag, order := order keySize, keySize, blockCount := 0, generation := 0, root := -1, name := PK_NDX, colNameList := names }

theorem makePrimaryKey_ok {names : List Text} {wrk wrk' : WorkSchema} (h : makePrimaryKey names wrk = .ok wrk') :
    (wrk.index.any fun ndx => ndx.name = PK_NDX) = false ∧ (∀ name ∈ names, hasColumn wrk.column name = true) ∧
      names.length ≤ wrk.column.length ∧ ∃ ndx : Index, ndx.flag = primaryFlag ∧ ndx.name = PK_NDX ∧ ndx.colNameList = names ∧
        ndx.keySize = ((wrk.column.take names.length).map Column.size).sum ∧
        wrk' = { wrk with column := flagAt primaryFlag (fun i => i < names.length) wrk.column, index := wrk.index ++ [ndx] } := by
  rw [makePrimaryKey] at h
  split at h
  · cases h
  rename_i hindex
  split at h
  · cases h
  rename_i hcol
  split at h
  · cases h
  rename_i hlen
  cases h
  refine ⟨by simpa using hindex, fun name hn => ?_, Nat.not_lt.mp hlen, primaryIndex wrk.column names, rfl, rfl, rfl, rfl, ?_⟩
  · have hall : names.all (mayBePrimary wrk.column) = true := by simpa using hcol
    have hmay := List.all_eq_true.mp hall name hn
    rw [mayBePrimary] at hmay
    split at hmay
    · rename_i col hf
      have hname := List.find?_some hf
      exact List.any_eq_true.mpr ⟨col, List.mem_of_find?_eq_some hf, hname⟩
    · cases hmay
  · rw [← take_addFlag]
    rfl

/-- The primary key is described by its names if and only if they are those of the first columns. -/
theorem makePrimaryKey_described_iff {names : List Text} {wrk wrk' : WorkSchema} (hplain : wrk.Plain)
    (h : makePrimaryKey names wrk = .ok wrk') :
    (Declaration.definition (.primaryKey names)).Described wrk wrk' ↔ (Declaration.definition (.primaryKey names)).Leading wrk := by
  obtain ⟨hindex, hnamed, hlen, ndx, hflag, -, hnames, hsize, rfl⟩ := makePrimaryKey_ok h
  constructor
  · intro hd i hi
    obtain ⟨ndx', he, hdesc⟩ := hd names rfl
    obtain rfl := List.singleton_injective (List.append_cancel_left he)
    have hil : i < wrk.column.length := lt_of_lt_of_le hi hlen
    have hget := congrArg (fun l : List Column => l[i]?) hdesc.flags
    simp only [getElem?_flagAt, List.getElem?_eq_getElem hil, Option.map_some, Option.some.injEq, decide_eq_true_eq, if_pos hi] at hget
    by_contra hnot
    rw [if_neg hnot] at hget
    have hor := addFlag_eq_self hget
    have hprimary : hasFlag (wrk.column[i].flag ||| primaryFlag) FLAG_PRIMARY = true := by
      rw [hasFlag, decide_eq_true_eq, Nat.and_or_distrib_right]
      show wrk.column[i].flag &&& 8 ||| 8 = 8
      refine Nat.eq_of_testBit_eq fun k => ?_
      rw [Nat.testBit_or, Nat.testBit_and]
      cases Nat.testBit 8 k <;> simp
    rw [hor, hplain hindex _ (List.getElem_mem hil)] at hprimary
    cases hprimary
  · intro hlead names' he
    obtain rfl := Option.some.inj he
    have hperm := perm_places hlead
    refine ⟨ndx, rfl, hnames, hnamed, ?_, ?_⟩
    · rw [hsize, sum_columnSize, ← sum_take _ hlen]
      exact (hperm.map _).sum_eq
    · have hat : (fun i => decide (i < names.length)) = fun i => decide (i ∈ places wrk.column names) := by
        funext i
        exact decide_eq_decide.mpr (List.mem_range.symm.trans hperm.mem_iff)
      rw [hflag, ← hat]

/-- The descriptor of an index of some flags, by the names of its columns. -/
def namedIndex (flag : ℕ) (columns : List Column) (indexes : List Index) (names : List Text) : Index :=
  let keySize := (names.map (columnSize columns)).sum
  { flag, order := order keySize, keySize, blockCount := 0, generation := 0, root := -1, name := makeName NDX_ (indexes.map Index.name),
    colNameList := names }

theorem makeUniqueKey_ok {names : List Text} {wrk wrk' : WorkSchema} (h : makeUniqueKey names wrk = .ok wrk') :
    ∃ ndx : Index, ndx.flag = uniqueFlag ∧ ndx.colNameList = names ∧ ndx.keySize = (names.map (columnSize wrk.column)).sum ∧
      wrk' = { wrk with column := flagAt uniqueFlag (fun i => i ∈ places wrk.column names) wrk.column, index := wrk.index ++ [ndx] } := by
  rw [makeUniqueKey] at h
  split at h
  · cases h
  cases h
  refine ⟨namedIndex uniqueFlag wrk.column wrk.index names, rfl, rfl, rfl, ?_⟩
  rw [← flagColumns_eq]
  rfl

/-- A unique key is described by its names if and only if they are those of columns. -/
theorem makeUniqueKey_described_iff {names : List Text} {wrk wrk' : WorkSchema} (h : makeUniqueKey names wrk = .ok wrk') :
    (Declaration.uniqueKey names).Described wrk wrk' ↔ (Declaration.uniqueKey names).Leading wrk := by
  obtain ⟨ndx, hflag, hnames, hsize, rfl⟩ := makeUniqueKey_ok h
  constructor
  · intro hd
    obtain ⟨ndx', -, hdesc⟩ := hd names rfl
    exact hdesc.named
  · intro hlead names' he
    obtain rfl := Option.some.inj he
    exact ⟨ndx, rfl, hnames, hlead, hsize, by rw [hflag]⟩

/-! ### Statements -/

theorem hasFlag_uniqueFlag (flag : ℕ) : hasFlag (flag ||| uniqueFlag) FLAG_PRIMARY = hasFlag flag FLAG_PRIMARY := by
  rw [hasFlag, hasFlag, Nat.and_or_distrib_right]
  show decide (flag &&& 8 ||| 0 = 8) = _
  rw [Nat.or_zero]
  rfl

theorem mem_flagAt {flag : ℕ} {at_ : ℕ → Bool} {columns : List Column} {col : Column} (h : col ∈ flagAt flag at_ columns) :
    ∃ col₀ ∈ columns, col = col₀ ∨ col = col₀.addFlag flag := by
  obtain ⟨i, hi⟩ := List.mem_iff_getElem?.mp h
  rw [getElem?_flagAt] at hi
  obtain ⟨col₀, h₀, rfl⟩ := Option.map_eq_some_iff.mp hi
  refine ⟨col₀, List.mem_of_getElem? h₀, ?_⟩
  split
  · exact Or.inr rfl
  · exact Or.inl rfl

theorem makeColumnDefinition_plain {name : Text} {type size precision flag : ℕ} {enumList : List Text} {wrk : WorkSchema}
    (hflag : hasFlag flag FLAG_PRIMARY = false) (h : wrk.Plain) :
    (makeColumnDefinition name type size precision enumList flag wrk).Plain := by
  have happend : ∀ col : Column, col.flag = flag → ({ wrk with column := wrk.column ++ [col] } : WorkSchema).Plain := by
    intro col hcol hindex c hc
    rcases List.mem_append.mp hc with hc | hc
    · exact h hindex c hc
    · rw [List.mem_singleton.mp hc, hcol, hflag]
  rw [makeColumnDefinition]
  split
  · exact happend _ rfl
  · split
    · exact happend _ rfl
    · split
      · exact happend _ rfl
      · split
        · exact happend _ rfl
        · exact h

/-- A declaration keeps the columns of a primary key away until there is one. -/
theorem Declaration.make_plain {db : Schemas} {d : Declaration} {wrk wrk' : WorkSchema} (hd : d.Plain) (h : wrk.Plain)
    (hm : d.make db wrk = .ok wrk') : wrk'.Plain := by
  cases d with
  | definition d =>
    cases d with
    | column name type size precision enumList flag =>
      cases hm
      exact makeColumnDefinition_plain hd h
    | primaryKey colNameList =>
      obtain ⟨-, -, -, ndx, -, hname, -, -, rfl⟩ := makePrimaryKey_ok hm
      intro hindex
      have hall := List.any_eq_false.mp hindex ndx (List.mem_append_right _ (List.mem_singleton_self _))
      exact absurd (decide_eq_true hname) hall
    | foreignKey fkColNameList fgnTable pkColNameList =>
      obtain ⟨-, -, -, rfl⟩ := makeForeignKey_ok hm
      exact h
  | uniqueKey colNameList =>
    obtain ⟨ndx, -, -, -, rfl⟩ := makeUniqueKey_ok hm
    intro hindex col hcol
    have hindex : ((wrk.index ++ [ndx]).any fun ndx => ndx.name = PK_NDX) = false := hindex
    rw [List.any_append, Bool.or_eq_false_iff] at hindex
    obtain ⟨col₀, h₀, rfl | rfl⟩ := mem_flagAt hcol
    · exact h hindex.1 col h₀
    · rw [Column.addFlag, hasFlag_uniqueFlag, h hindex.1 col₀ h₀]

/-- A declaration is described by its names if and only if they are those of columns, and of the first
columns for the primary key. -/
theorem Declaration.described_iff {db : Schemas} {d : Declaration} {wrk wrk' : WorkSchema} (h : wrk.Plain) (hm : d.make db wrk = .ok wrk') :
    d.Described wrk wrk' ↔ d.Leading wrk := by
  cases d with
  | definition d =>
    cases d with
    | column => exact iff_of_true (fun _ h => by cases h) trivial
    | primaryKey colNameList => exact makePrimaryKey_described_iff h hm
    | foreignKey => exact iff_of_true (fun _ h => by cases h) trivial
  | uniqueKey colNameList => exact makeUniqueKey_described_iff hm

/-- An index of ALTER TABLE is described by its names. -/
theorem addIndex_describes {db db' : Schemas} {name : Name} {names : List Text} (h : addIndex name names db = .ok db') :
    ∃ sch sch' ndx, db name = some sch ∧ db' name = some sch' ∧ sch'.index = sch.index ++ [ndx] ∧
      Describes sch.column sch'.column ndx names := by
  obtain ⟨sch, hs, h⟩ := bind_ok.mp h
  split at h
  · cases h
  rename_i hall
  cases h
  have hall : names.all (hasColumn sch.column) = true := by simpa using hall
  refine ⟨sch, sch.addIndex names, namedIndex multipleFlag sch.column sch.index names, table_ok.mp hs, Schemas.set_self .., rfl, rfl,
    fun name hn => List.all_eq_true.mp hall name hn, rfl, flagColumns_eq ..⟩

theorem allDeclared_iff {db : Schemas} {ds : List Declaration} {wrk : WorkSchema} (hds : ∀ d ∈ ds, d.Plain) (h : wrk.Plain) :
    EachDeclared db Declaration.Described ds wrk ↔ EachDeclared db (fun d wrk _ => d.Leading wrk) ds wrk := by
  induction ds generalizing wrk with
  | nil => exact Iff.rfl
  | cons d ds ih =>
    rw [EachDeclared, EachDeclared]
    cases hm : d.make db wrk with
    | error e => exact Iff.rfl
    | ok wrk' =>
      have hplain := Declaration.make_plain (hds d List.mem_cons_self) h hm
      exact and_congr (Declaration.described_iff h hm) (ih (fun d hd => hds d (List.mem_cons_of_mem _ hd)) hplain)

theorem plain_empty : WorkSchema.empty.Plain := fun _ col hcol => by cases hcol

/-- The keys of CREATE TABLE are described by their names if and only if these are the names of columns,
and of the first columns for the primary key; an index of ALTER TABLE always is. -/
theorem descriptors_iff (db : Schemas) :
    (∀ (name : Name) (ds : List Declaration) (wrk : WorkSchema) (db' : Schemas), (∀ d ∈ ds, d.Plain) →
      declareAll db ds WorkSchema.empty = .ok wrk → createTable name wrk db = .ok db' → (AllDescribed db ds ↔ AllLeading db ds)) ∧
    ∀ (name : Name) (names : List Text) (db' : Schemas), addIndex name names db = .ok db' →
      ∃ sch sch' ndx, db name = some sch ∧ db' name = some sch' ∧ sch'.index = sch.index ++ [ndx] ∧
        Describes sch.column sch'.column ndx names :=
  ⟨fun _ _ _ _ hds _ _ => allDeclared_iff hds plain_empty, fun _ _ _ => addIndex_describes⟩

/-! ### `CREATE TABLE t (a VARCHAR(2), b VARCHAR(5), c VARCHAR(3), …)` with keys -/

/-- The columns and these keys. -/
def declareTable (keys : List Declaration) : List Declaration :=
  [.definition (.column "a".toList TYPE_VARCHAR 2 0 [] 0), .definition (.column "b".toList TYPE_VARCHAR 5 0 [] 0),
    .definition (.column "c".toList TYPE_VARCHAR 3 0 [] 0)] ++ keys

theorem declareTable_plain {keys : List Declaration} (hkeys : ∀ d ∈ keys, d.Plain) : ∀ d ∈ declareTable keys, d.Plain := by
  intro d hd
  rcases List.mem_append.mp hd with hd | hd
  · simp only [List.mem_cons, List.not_mem_nil, or_false] at hd
    rcases hd with rfl | rfl | rfl <;> exact (by decide : hasFlag 0 FLAG_PRIMARY = false)
  · exact hkeys d hd

/-- The schemas behind the statement. -/
def createDeclared (keys : List Declaration) : Except Err Schemas := do
  let wrk ← declareAll installed (declareTable keys) WorkSchema.empty
  createTable ("d".toList, "t".toList) wrk installed

theorem createDeclared_ok {keys : List Declaration} (h : (createDeclared keys).toOption.isSome = true) :
    ∃ wrk db', declareAll installed (declareTable keys) WorkSchema.empty = .ok wrk ∧
      createTable ("d".toList, "t".toList) wrk installed = .ok db' := by
  cases hc : createDeclared keys with
  | error e =>
    rw [hc] at h
    cases h
  | ok db' =>
    obtain ⟨wrk, hw, hdb⟩ := bind_ok.mp hc
    exact ⟨wrk, db', hw, hdb⟩

/-- `PRIMARY KEY (b, a)` and a unique key over `c`, and an index of two columns of the table of users. -/
theorem descriptors_first :
    AllDescribed installed (declareTable [.definition (.primaryKey [['b'], ['a']]), .uniqueKey [['c']]]) ∧
    ∃ db' sch sch' ndx, addIndex ("etc".toList, "cred".toList) ["password".toList, "username".toList] installed = .ok db' ∧
      installed ("etc".toList, "cred".toList) = some sch ∧ db' ("etc".toList, "cred".toList) = some sch' ∧
      sch'.index = sch.index ++ [ndx] ∧ Describes sch.column sch'.column ndx ["password".toList, "username".toList] := by
  constructor
  · have hplain : ∀ d ∈ [.definition (.primaryKey [['b'], ['a']]), Declaration.uniqueKey [['c']]], d.Plain := by
      intro d hd
      rcases List.mem_pair.mp hd with rfl | rfl <;> trivial
    obtain ⟨wrk, db', hw, hdb⟩ := createDeclared_ok
      (show (createDeclared [.definition (.primaryKey [['b'], ['a']]), .uniqueKey [['c']]]).toOption.isSome = true by decide +kernel)
    exact ((descriptors_iff installed).1 _ _ wrk db' (declareTable_plain hplain) hw hdb).mpr (by decide +kernel)
  · cases h : addIndex ("etc".toList, "cred".toList) ["password".toList, "username".toList] installed with
    | error e =>
      have hsome : (addIndex ("etc".toList, "cred".toList) ["password".toList, "username".toList] installed).toOption.isSome = true := by
        decide +kernel
      rw [h] at hsome
      cases hsome
    | ok db' =>
      obtain ⟨sch, sch', ndx, hd⟩ := (descriptors_iff installed).2 _ _ db' h
      exact ⟨db', sch, sch', ndx, rfl, hd⟩

/-- With `PRIMARY KEY (b)`, the size of the key is that of `a`, and `a` gets the flags. -/
theorem descriptors_fail : ¬∀ (db : Schemas) (name : Name) (ds : List Declaration) (wrk : WorkSchema) (db' : Schemas), (∀ d ∈ ds, d.Plain) →
    declareAll db ds WorkSchema.empty = .ok wrk → createTable name wrk db = .ok db' → AllDescribed db ds := by
  intro hall
  have hplain : ∀ d ∈ declareTable [.definition (.primaryKey [['b']])], d.Plain := by
    refine declareTable_plain fun d hd => ?_
    rw [List.mem_singleton.mp hd]
    trivial
  obtain ⟨wrk, db', hw, hdb⟩ :=
    createDeclared_ok (show (createDeclared [.definition (.primaryKey [['b']])]).toOption.isSome = true by decide +kernel)
  have hd := hall installed _ _ wrk db' hplain hw hdb
  have hlead : AllLeading installed (declareTable [.definition (.primaryKey [['b']])]) := (allDeclared_iff hplain plain_empty).mp hd
  exact absurd hlead (by decide +kernel)

end RedB.Ddl
