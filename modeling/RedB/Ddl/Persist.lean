import RedB.Ddl.Runs
import RedB.Theory.Members
import Mathlib.Data.Char
import Mathlib.Data.List.Lex

/-!
# Schemas on disk

A schema is saved as an object whose members are the header, the columns under numbered names, and
the indexes and foreign keys under their own names. When it is loaded, members are told apart by the
beginnings of their names, and columns are put in the order of their names. Some fields of a column
are saved only for some types and flags; the others are zero or empty in all schemas (`Storable`).

The numbers in the names of columns have two digits, or more from 100 on, and `column_100` is before
`column_11`. So a schema is restored if and only if its columns are as they are in the order of these
names, as they are up to 100 columns (`schema_restored_iff`).
-/

namespace RedB.Ddl

open Dml (Name padLeft)

/-! ### Objects -/

/-- `JsonNode` -/
inductive Json where
  | int (value : ℤ)
  | str (value : Text)
  | arr (elements : List Json)
  | obj (members : List (Text × Json))

/-- The members of an object. -/
abbrev JsonObject := List (Text × Json)

/-- `json_builder_set_member_name`, with the value. -/
def member (name : String) (node : Json) : Text × Json := (name.toList, node)

/-- A member that is there only if the condition holds, before others. -/
def memberIf (b : Prop) [Decidable b] (name : String) (node : Json) (rest : JsonObject) : JsonObject :=
  if b then member name node :: rest else rest

/-- `json_object_get_member` -/
def JsonObject.get (object : JsonObject) (name : String) : Option Json :=
  (object.find? fun m => m.1 = name.toList).map Prod.snd

/-- `json_object_get_int_member` -/
def JsonObject.getInt (object : JsonObject) (name : String) : ℤ :=
  match object.get name with
  | some (.int value) => value
  | _ => 0

/-- `json_object_get_string_member`, for a field that is empty before. -/
def JsonObject.getString (object : JsonObject) (name : String) : Text :=
  match object.get name with
  | some (.str value) => value
  | _ => []

/-- `json_object_get_array_member` -/
def JsonObject.getArray (object : JsonObject) (name : String) : List Json :=
  match object.get name with
  | some (.arr elements) => elements
  | _ => []

/-- `json_array_get_string_element` -/
def Json.text : Json → Text
  | .str value => value
  | _ => []

/-- `JSON_NODE_HOLDS_OBJECT` and `json_node_get_object`, without members if it holds none. -/
def Json.object : Json → JsonObject
  | .obj members => members
  | _ => []

@[simp] theorem get_member (n name : String) (node : Json) (rest : JsonObject) :
    JsonObject.get (member n node :: rest) name = if n = name then some node else rest.get name := by
  rw [JsonObject.get, member, List.find?_cons]
  simp only [String.toList_inj]
  by_cases h : n = name <;> simp [h, JsonObject.get]

@[simp] theorem get_memberIf (b : Prop) [Decidable b] (n name : String) (node : Json) (rest : JsonObject) :
    (memberIf b n node rest).get name = if b ∧ n = name then some node else rest.get name := by
  rw [memberIf]
  split <;> simp [*]

/-! ### Parts of a schema -/

/-- `reference::to_json_object` -/
def Reference.toJson (ref : Reference) : Json :=
  .obj [member "name" (.str ref.name), member "db_name" (.str ref.dbName), member "tbl_name" (.str ref.tblName),
    member "fgn_name" (.str ref.fgnName)]

/-- `reference::from_json_object` -/
def Reference.fromJson (node : Json) : Reference where
  name := node.object.getString "name"
  dbName := node.object.getString "db_name"
  tblName := node.object.getString "tbl_name"
  fgnName := node.object.getString "fgn_name"

/-- `column::to_json_object`, without the name of the member. -/
def Column.toJson (col : Column) : Json :=
  .obj (member "flag" (.int col.flag) :: member "type" (.int col.type) ::
    memberIf (col.type = TYPE_FLOAT) "prec" (.int col.prec) (member "size" (.int col.size) :: member "max_size" (.int col.maxSize) ::
      memberIf (hasFlag col.flag FLAG_AUTO_INC = true) "auto_inc" (.int col.autoInc) (member "name" (.str col.name) ::
        memberIf (col.type = TYPE_ENUM) "enum" (.arr (col.enumList.map Json.str))
          [member "ref_by" (.arr (col.referenceList.map Reference.toJson))])))

/-- `column::from_json_object` -/
def Column.fromJson (node : Json) : Column :=
  let object := node.object
  let flag := (object.getInt "flag").toNat
  let type := (object.getInt "type").toNat
  { flag
    prec := if type = TYPE_FLOAT then (object.getInt "prec").toNat else 0
    size := (object.getInt "size").toNat
    type
    maxSize := (object.getInt "max_size").toNat
    autoInc := if hasFlag flag FLAG_AUTO_INC then (object.getInt "auto_inc").toNat else 0
    name := object.getString "name"
    enumList := if type = TYPE_ENUM then (object.getArray "enum").map Json.text else []
    referenceList := (object.getArray "ref_by").map Reference.fromJson }

/-- `header::to_json_object` -/
def Header.toJson (hdr : Header) : Json :=
  .obj [member "db_name" (.str hdr.dbName), member "tbl_name" (.str hdr.tblName), member "flag" (.int hdr.flag),
    member "block_size" (.int hdr.blockSize), member "index_count" (.int hdr.indexCount),
    member "foreign_count" (.int hdr.foreignCount), member "column_count" (.int hdr.columnCount),
    member "block_count" (.int hdr.blockCount), member "row_count" (.int hdr.rowCount),
    member "generation" (.int hdr.generation), member "next_offset" (.int hdr.nextOffset),
    member "data_offset" (.int hdr.dataOffset), member "data_root" (.int hdr.dataRoot),
    member "free_head" (.int hdr.freeHead), member "free_tail" (.int hdr.freeTail)]

/-- `header::from_json_object` -/
def Header.fromJson (node : Json) : Header where
  dbName := node.object.getString "db_name"
  tblName := node.object.getString "tbl_name"
  flag := (node.object.getInt "flag").toNat
  blockSize := node.object.getInt "block_size"
  indexCount := (node.object.getInt "index_count").toNat
  foreignCount := (node.object.getInt "foreign_count").toNat
  columnCount := (node.object.getInt "column_count").toNat
  blockCount := node.object.getInt "block_count"
  rowCount := node.object.getInt "row_count"
  generation := node.object.getInt "generation"
  nextOffset := node.object.getInt "next_offset"
  dataOffset := node.object.getInt "data_offset"
  dataRoot := node.object.getInt "data_root"
  freeHead := node.object.getInt "free_head"
  freeTail := node.object.getInt "free_tail"

/-- `index::to_json_object`, without the name of the member. -/
def Index.toJson (ndx : Index) : Json :=
  .obj [member "flag" (.int ndx.flag), member "order" (.int ndx.order), member "key_size" (.int ndx.keySize),
    member "block_count" (.int ndx.blockCount), member "generation" (.int ndx.generation), member "root" (.int ndx.root),
    member "name" (.str ndx.name), member "col_name_list" (.arr (ndx.colNameList.map Json.str))]

/-- `index::from_json_object` -/
def Index.fromJson (node : Json) : Index where
  flag := (node.object.getInt "flag").toNat
  order := (node.object.getInt "order").toNat
  keySize := (node.object.getInt "key_size").toNat
  blockCount := node.object.getInt "block_count"
  generation := node.object.getInt "generation"
  root := node.object.getInt "root"
  name := node.object.getString "name"
  colNameList := (node.object.getArray "col_name_list").map Json.text

/-- `foreign::to_json_object`, without the name of the member. -/
def Foreign.toJson (fgn : Foreign) : Json :=
  .obj [member "name" (.str fgn.name), member "db_name" (.str fgn.dbName), member "tbl_name" (.str fgn.tblName),
    member "col_name_list" (.arr (fgn.colNameList.map Json.str))]

/-- `foreign::from_json_object` -/
def Foreign.fromJson (node : Json) : Foreign where
  name := node.object.getString "name"
  dbName := node.object.getString "db_name"
  tblName := node.object.getString "tbl_name"
  colNameList := (node.object.getArray "col_name_list").map Json.text

/-! ### Schemas -/

/-- `sprintf(name, "column_%02d", count)` -/
def columnName (count : ℕ) : Text := "column_".toList ++ padLeft 2 '0' (toText count)

/-- The columns with their numbered names. -/
def numberColumns (columns : List Column) : List (Text × Column) := columns.mapIdx fun count col => (columnName count, col)

/-- The members that `manager::save_schema` puts into the object, one after the other. -/
def Schema.members (sch : Schema) : JsonObject :=
  ("header".toList, sch.header.toJson) :: (numberColumns sch.column).map (fun p => (p.1, p.2.toJson)) ++
    sch.index.map (fun ndx => (ndx.name, ndx.toJson)) ++ sch.foreign.map (fun fgn => (fgn.name, fgn.toJson))

/-- `manager::save_schema`: the object that is written. -/
def saveSchema (sch : Schema) : JsonObject := sch.members.foldl Members.set []

/-- The members whose names begin so. -/
def named {α : Type} (start : Text) (fromJson : Json → α) (object : JsonObject) : List (Text × α) :=
  object.filterMap fun m => if start.isPrefixOf m.1 then some (m.1, fromJson m.2) else none

/-- The members whose names begin so, in the order of their names. -/
def loadNamed {α : Type} (start : Text) (fromJson : Json → α) (object : JsonObject) : List α :=
  (Members.sorted (named start fromJson object)).map Prod.snd

/-- `manager::load_schema`, of the object that is read, which has a header. -/
def loadSchema (object : JsonObject) : Schema where
  header := Header.fromJson ((object.get "header").getD (.obj []))
  column := loadNamed "column".toList Column.fromJson object
  index := loadNamed NDX_ Index.fromJson object
  foreign := loadNamed FGN_ Foreign.fromJson object

/-- The schema that is loaded has what the one that was saved has, and rows have the values that they
had. -/
structure Restored (sch sch' : Schema) : Prop where
  header : sch'.header = sch.header
  column : sch'.column = sch.column
  index : sch'.index.Perm sch.index
  getIndex : ∀ name, sch'.getIndex name = sch.getIndex name
  foreign : sch'.foreign.Perm sch.foreign
  getForeign : ∀ name, sch'.getForeign name = sch.getForeign name
  row : ∀ (r : Dml.Row) name, (columnPos sch'.column name).map r.valueAt = (columnPos sch.column name).map r.valueAt

/-- In whatever order the members of the saved object come, the schema that is loaded of it is the
one that was saved. -/
def Restores (sch : Schema) : Prop := ∀ object : JsonObject, object.Perm (saveSchema sch) → Restored sch (loadSchema object)

/-! ### What is not saved -/

/-- Fields that are not saved are zero or empty. -/
structure Column.Storable (col : Column) : Prop where
  prec : col.type ≠ TYPE_FLOAT → col.prec = 0
  autoInc : hasFlag col.flag FLAG_AUTO_INC = false → col.autoInc = 0
  enumList : col.type ≠ TYPE_ENUM → col.enumList = []

/-- Indexes and foreign keys have different names with their beginnings. -/
structure NamesMade (index : List Index) (foreign : List Foreign) : Prop where
  indexNames : (index.map Index.name).Nodup
  indexStart : ∀ ndx ∈ index, NDX_ <+: ndx.name
  foreignNames : (foreign.map Foreign.name).Nodup
  foreignStart : ∀ fgn ∈ foreign, FGN_ <+: fgn.name

/-- A schema that can be restored but for the order of its columns. -/
structure Schema.Storable (sch : Schema) : Prop where
  column : ∀ col ∈ sch.column, col.Storable
  names : NamesMade sch.index sch.foreign

theorem Reference.fromJson_toJson (ref : Reference) : Reference.fromJson ref.toJson = ref := by
  simp [Reference.fromJson, Reference.toJson, Json.object, JsonObject.getString]

theorem Header.fromJson_toJson (hdr : Header) : Header.fromJson hdr.toJson = hdr := by
  simp [Header.fromJson, Header.toJson, Json.object, JsonObject.getString, JsonObject.getInt]

theorem texts_map_str (l : List Text) : (l.map Json.str).map Json.text = l := by
  rw [List.map_map]
  exact List.map_id l

theorem references_map_toJson (l : List Reference) : (l.map Reference.toJson).map Reference.fromJson = l := by
  rw [List.map_map]
  exact (List.map_congr_left fun ref _ => ref.fromJson_toJson).trans (List.map_id l)

theorem Index.fromJson_toJson (ndx : Index) : Index.fromJson ndx.toJson = ndx := by
  simp [Index.fromJson, Index.toJson, Json.object, JsonObject.getString, JsonObject.getInt, JsonObject.getArray, -List.map_map,
    texts_map_str]

theorem Foreign.fromJson_toJson (fgn : Foreign) : Foreign.fromJson fgn.toJson = fgn := by
  simp [Foreign.fromJson, Foreign.toJson, Json.object, JsonObject.getString, JsonObject.getArray, -List.map_map, texts_map_str]

theorem Column.fromJson_toJson {col : Column} (h : col.Storable) : Column.fromJson col.toJson = col := by
  obtain ⟨flag, prec, size, type, maxSize, autoInc, name, enumList, referenceList⟩ := col
  obtain ⟨hprec, hauto, henum⟩ := h
  simp only at hprec hauto henum
  simp [Column.fromJson, Column.toJson, Json.object, JsonObject.getString, JsonObject.getInt, JsonObject.getArray, -List.map_map,
    references_map_toJson]
  refine ⟨?_, ?_, ?_⟩
  · by_cases h : type = TYPE_FLOAT <;> simp [h, hprec]
  · cases h : hasFlag flag FLAG_AUTO_INC <;> simp [h, hauto]
  · by_cases h : type = TYPE_ENUM <;> simp [h, henum, -List.map_map, texts_map_str]

/-! ### Names of members -/

theorem columnName_injective : Function.Injective columnName := fun _ _ h => padLeft_toText_inj (List.append_cancel_left h)

/-- Beginnings of which none begins with the other. -/
def Apart (start start' : Text) : Prop := ¬start <+: start' ∧ ¬start' <+: start

instance (start start' : Text) : Decidable (Apart start start') := inferInstanceAs (Decidable (_ ∧ _))

theorem Apart.symm {start start' : Text} (h : Apart start start') : Apart start' start := ⟨h.2, h.1⟩

theorem Apart.not_begins {start start' name : Text} (h : Apart start start') (hn : start <+: name) : ¬start' <+: name := by
  intro hn'
  rcases List.prefix_or_prefix_of_prefix hn hn' with hs | hs
  · exact h.1 hs
  · exact h.2 hs

/-- All names of members begin so. -/
def Begins (start : Text) (object : JsonObject) : Prop := ∀ m ∈ object, start <+: m.1

/-- Members of other beginnings have other names. -/
theorem Begins.disjoint {start start' : Text} {object object' : JsonObject} (h : Begins start object) (h' : Begins start' object')
    (ha : Apart start start') : (object.map Prod.fst).Disjoint (object'.map Prod.fst) := by
  intro name hn hn'
  obtain ⟨m, hm, rfl⟩ := List.mem_map.mp hn
  obtain ⟨m', hm', he⟩ := List.mem_map.mp hn'
  exact ha.not_begins (h m hm) (he ▸ h' m' hm')

section Parts

variable {sch : Schema}

/-- The member of the header. -/
def headerMembers (sch : Schema) : JsonObject := [("header".toList, sch.header.toJson)]

/-- The members of the columns. -/
def columnMembers (sch : Schema) : JsonObject := (numberColumns sch.column).map fun p => (p.1, p.2.toJson)

/-- The members of the indexes. -/
def indexMembers (sch : Schema) : JsonObject := sch.index.map fun ndx => (ndx.name, ndx.toJson)

/-- The members of the foreign keys. -/
def foreignMembers (sch : Schema) : JsonObject := sch.foreign.map fun fgn => (fgn.name, fgn.toJson)

theorem members_eq (sch : Schema) :
    sch.members = headerMembers sch ++ (columnMembers sch ++ (indexMembers sch ++ foreignMembers sch)) := by
  rw [Schema.members, headerMembers, columnMembers, indexMembers, foreignMembers]
  simp only [List.cons_append, List.nil_append, List.append_assoc]

theorem begins_header : Begins "header".toList (headerMembers sch) := by
  intro m hm
  exact List.mem_singleton.mp hm ▸ List.prefix_refl _

theorem begins_column : Begins "column".toList (columnMembers sch) := by
  intro m hm
  obtain ⟨p, hp, rfl⟩ := List.mem_map.mp hm
  obtain ⟨i, hi, rfl⟩ := List.mem_mapIdx.mp hp
  exact ⟨'_' :: padLeft 2 '0' (toText i), rfl⟩

theorem begins_index (h : NamesMade sch.index sch.foreign) : Begins NDX_ (indexMembers sch) := by
  intro m hm
  obtain ⟨ndx, hn, rfl⟩ := List.mem_map.mp hm
  exact h.indexStart ndx hn

theorem begins_foreign (h : NamesMade sch.index sch.foreign) : Begins FGN_ (foreignMembers sch) := by
  intro m hm
  obtain ⟨fgn, hf, rfl⟩ := List.mem_map.mp hm
  exact h.foreignStart fgn hf

theorem numberColumns_names (columns : List Column) :
    (numberColumns columns).map Prod.fst = (List.range columns.length).map columnName :=
  List.ext_getElem (by simp [numberColumns]) fun i _ _ => by simp [numberColumns]

theorem numberColumns_columns (columns : List Column) : (numberColumns columns).map Prod.snd = columns :=
  List.ext_getElem (by simp [numberColumns]) fun i _ _ => by simp [numberColumns]

/-- All members have names of their own. -/
theorem nodup_members (h : NamesMade sch.index sch.foreign) : (sch.members.map Prod.fst).Nodup := by
  have hcolumn : ((columnMembers sch).map Prod.fst).Nodup := by
    rw [columnMembers, List.map_map]
    exact (numberColumns_names _).symm ▸ List.nodup_range.map columnName_injective
  have hindex : ((indexMembers sch).map Prod.fst).Nodup := by
    rw [indexMembers, List.map_map]
    exact h.indexNames
  have hforeign : ((foreignMembers sch).map Prod.fst).Nodup := by
    rw [foreignMembers, List.map_map]
    exact h.foreignNames
  rw [members_eq]
  simp only [List.map_append]
  refine List.Nodup.append (List.nodup_singleton _) (hcolumn.append (hindex.append hforeign ?_) ?_) ?_
  · exact (begins_index h).disjoint (begins_foreign h) (by decide)
  · exact List.disjoint_append_right.mpr
      ⟨begins_column.disjoint (begins_index h) (by decide), begins_column.disjoint (begins_foreign h) (by decide)⟩
  · exact List.disjoint_append_right.mpr ⟨begins_header.disjoint begins_column (by decide), List.disjoint_append_right.mpr
      ⟨begins_header.disjoint (begins_index h) (by decide), begins_header.disjoint (begins_foreign h) (by decide)⟩⟩

/-- What is written has all members. -/
theorem saveSchema_eq (h : NamesMade sch.index sch.foreign) : saveSchema sch = sch.members :=
  Members.foldl_set (l := []) (nodup_members h)

/-! ### Members of one beginning -/

variable {α : Type} {fromJson : Json → α}

theorem named_begins {start : Text} {object : JsonObject} (h : Begins start object) :
    named start fromJson object = object.map fun m => (m.1, fromJson m.2) := by
  rw [named, ← List.filterMap_eq_map]
  refine List.filterMap_congr fun m hm => ?_
  rw [if_pos (List.isPrefixOf_iff_prefix.mpr (h m hm))]
  rfl

theorem named_apart {start start' : Text} {object : JsonObject} (h : Begins start' object) (ha : Apart start' start) :
    named start fromJson object = [] := by
  refine List.filterMap_eq_nil_iff.mpr fun m hm => ?_
  rw [if_neg fun hp => ha.not_begins (h m hm) (List.isPrefixOf_iff_prefix.mp hp)]

theorem named_append (start : Text) (fromJson : Json → α) (object object' : JsonObject) :
    named start fromJson (object ++ object') = named start fromJson object ++ named start fromJson object' := List.filterMap_append

theorem named_members_column (h : sch.Storable) : named "column".toList Column.fromJson sch.members = numberColumns sch.column := by
  rw [members_eq]
  simp only [named_append]
  rw [named_apart begins_header (by decide), named_begins begins_column, named_apart (begins_index h.names) (by decide),
    named_apart (begins_foreign h.names) (by decide), List.nil_append, List.append_nil, List.append_nil, columnMembers, List.map_map]
  refine (List.map_congr_left fun p hp => ?_).trans (List.map_id _)
  have hcol : p.2 ∈ sch.column := by
    rw [← numberColumns_columns sch.column]
    exact List.mem_map_of_mem hp
  exact Prod.ext rfl (Column.fromJson_toJson (h.column _ hcol))

theorem named_members_index (h : NamesMade sch.index sch.foreign) :
    named NDX_ Index.fromJson sch.members = sch.index.map fun ndx => (ndx.name, ndx) := by
  rw [members_eq]
  simp only [named_append]
  rw [named_apart begins_header (by decide), named_apart begins_column (by decide), named_begins (begins_index h),
    named_apart (begins_foreign h) (by decide), List.nil_append, List.nil_append, List.append_nil, indexMembers, List.map_map]
  exact List.map_congr_left fun ndx _ => Prod.ext rfl ndx.fromJson_toJson

theorem named_members_foreign (h : NamesMade sch.index sch.foreign) :
    named FGN_ Foreign.fromJson sch.members = sch.foreign.map fun fgn => (fgn.name, fgn) := by
  rw [members_eq]
  simp only [named_append]
  rw [named_apart begins_header (by decide), named_apart begins_column (by decide), named_apart (begins_index h) (by decide),
    named_begins (begins_foreign h), List.nil_append, List.nil_append, List.nil_append, foreignMembers, List.map_map]
  exact List.map_congr_left fun fgn _ => Prod.ext rfl fgn.fromJson_toJson

theorem named_names (start : Text) (fromJson : Json → α) (object : JsonObject) :
    (named start fromJson object).map Prod.fst = (object.map Prod.fst).filter fun name => start.isPrefixOf name := by
  induction object with
  | nil => rfl
  | cons m object ih =>
    rw [List.map_cons, List.filter_cons, ← ih, named, List.filterMap_cons, ← named]
    cases start.isPrefixOf m.1 <;> rfl

/-- What is loaded does not depend on the order of the members. -/
theorem loadNamed_perm {object object' : JsonObject} (hp : object.Perm object') (h : (object.map Prod.fst).Nodup) (start : Text)
    (fromJson : Json → α) : loadNamed start fromJson object = (Members.sorted (named start fromJson object')).map Prod.snd := by
  rw [loadNamed, named, Members.sorted_congr (hp.filterMap _) ((named_names start fromJson object).symm ▸ h.filter _)]
  rfl

/-- The schema behind a saved schema: the columns are in the order of their names. -/
theorem loadSchema_perm (h : sch.Storable) {object : JsonObject} (hp : object.Perm (saveSchema sch)) :
    (loadSchema object).header = sch.header ∧
      (loadSchema object).column = (Members.sorted (numberColumns sch.column)).map Prod.snd ∧
      (loadSchema object).index.Perm sch.index ∧ (loadSchema object).foreign.Perm sch.foreign := by
  rw [saveSchema_eq h.names] at hp
  have hn : (object.map Prod.fst).Nodup := (hp.map Prod.fst).nodup_iff.mpr (nodup_members h.names)
  refine ⟨?_, ?_, ?_, ?_⟩
  · have hget : object.get "header" = some sch.header.toJson := by
      rw [JsonObject.get, Members.find?_perm Prod.fst hp hn]
      rfl
    rw [loadSchema, hget]
    exact sch.header.fromJson_toJson
  · rw [loadSchema, loadNamed_perm hp hn, named_members_column h]
  · show (loadNamed NDX_ Index.fromJson object).Perm sch.index
    rw [loadNamed_perm hp hn, named_members_index h.names]
    have := (Members.sorted_perm (sch.index.map fun ndx => (ndx.name, ndx))).map Prod.snd
    rwa [List.map_map, show (Prod.snd ∘ fun ndx : Index => (ndx.name, ndx)) = id from rfl, List.map_id] at this
  · show (loadNamed FGN_ Foreign.fromJson object).Perm sch.foreign
    rw [loadNamed_perm hp hn, named_members_foreign h.names]
    have := (Members.sorted_perm (sch.foreign.map fun fgn => (fgn.name, fgn))).map Prod.snd
    rwa [List.map_map, show (Prod.snd ∘ fun fgn : Foreign => (fgn.name, fgn)) = id from rfl, List.map_id] at this

/-- The columns are in the order of their names as members. -/
def InOrder (columns : List Column) : Prop := (Members.sorted (numberColumns columns)).map Prod.snd = columns

theorem restores_iff (h : sch.Storable) : Restores sch ↔ InOrder sch.column := by
  constructor
  · intro hr
    have hcol := (loadSchema_perm h (List.Perm.refl (saveSchema sch))).2.1
    exact hcol.symm.trans (hr _ (List.Perm.refl _)).column
  · intro ho object hp
    obtain ⟨hheader, hcolumn, hindex, hforeign⟩ := loadSchema_perm h hp
    have hcolumn : (loadSchema object).column = sch.column := hcolumn.trans ho
    refine ⟨hheader, hcolumn, hindex, fun name => ?_, hforeign, fun name => ?_, fun r name => ?_⟩
    · rw [Schema.getIndex, Schema.getIndex,
        Members.find?_perm Index.name hindex ((hindex.map Index.name).nodup_iff.mpr h.names.indexNames)]
    · rw [Schema.getForeign, Schema.getForeign,
        Members.find?_perm Foreign.name hforeign ((hforeign.map Foreign.name).nodup_iff.mpr h.names.foreignNames)]
    · rw [hcolumn]

end Parts

/-! ### The order of names -/

/-- The names of columns grow up to 100 columns. -/
theorem columnName_lt {i j : ℕ} (hij : i < j) (hj : j < 100) : columnName i < columnName j := by
  have hstep : ∀ i < 99, columnName i < columnName (i + 1) := by decide
  induction j with
  | zero => omega
  | succ j ih =>
    rcases Nat.lt_or_eq_of_le (Nat.le_of_lt_succ hij) with h | rfl
    · exact lt_trans (ih h (by omega)) (hstep j (by omega))
    · exact hstep i (by omega)

theorem columnName_hundred : columnName 100 < columnName 11 := by decide

theorem inOrder_of_le {columns : List Column} (h : columns.length ≤ 100) : InOrder columns := by
  have hp : (numberColumns columns).Pairwise fun p q => p.1 ≤ q.1 := by
    refine List.pairwise_iff_getElem.mpr fun i j hi hj hij => ?_
    have hl : (numberColumns columns).length = columns.length := by rw [numberColumns, List.length_mapIdx]
    simp only [numberColumns, List.getElem_mapIdx]
    exact (columnName_lt hij (by omega)).le
  rw [InOrder, Members.sorted_eq hp, numberColumns_columns]

/-- From 101 different columns on, one of them is at another place. -/
theorem length_le_of_inOrder {columns : List Column} (hn : columns.Nodup) (h : InOrder columns) : columns.length ≤ 100 := by
  by_contra hlt
  have hl : (numberColumns columns).length = columns.length := by rw [numberColumns, List.length_mapIdx]
  have hperm := Members.sorted_perm (numberColumns columns)
  have hinj := List.inj_on_of_nodup_map ((numberColumns_columns columns).symm ▸ hn)
  have heq : Members.sorted (numberColumns columns) = numberColumns columns := by
    refine List.ext_getElem hperm.length_eq fun i hi hi' => ?_
    refine hinj (hperm.mem_iff.mp (List.getElem_mem hi)) (List.getElem_mem hi') ?_
    have hsnd := List.getElem_of_eq (h.trans (numberColumns_columns columns).symm) (by rwa [List.length_map] : i < _)
    rwa [List.getElem_map, List.getElem_map] at hsnd
  have hle := List.pairwise_iff_getElem.mp (heq ▸ Members.pairwise_sorted (numberColumns columns)) 11 100 (by omega) (by omega) (by omega)
  simp only [numberColumns, List.getElem_mapIdx] at hle
  exact absurd columnName_hundred (not_lt.mpr hle)

end RedB.Ddl
