import RedB.Ddl.AddIndex
import RedB.Theory.Runs
import Mathlib.Data.List.Count
import Mathlib.Logic.Function.Iterate

/-!
# Foreign keys that are dropped

ALTER TABLE stores the names of the columns of the table itself in a foreign key and refers back from
the columns that it names in the other table; a drop looks for the names of the key in the other
table, and there for the first back-reference of a key of this name, whatever table it is from. So a
key is dropped as it has been added if and only if both lists have the same names and no key of this
name refers to these columns yet. The key is erased before the back-references are looked for, and both
schemas have been changed when they are saved; nothing is taken back (`foreignKey_drop_iff`).
-/

namespace RedB.Ddl

open Dml (Name)
open Runs

/-! ### The statement and its state -/

/-- A foreign key of this name refers to the column. -/
def refers (fgnName : Text) (columns : List Column) (i : ℕ) : Bool :=
  (columns[i]?).any fun col => col.referenceList.any fun ref => ref.fgnName = fgnName

/-- What the statement depends on besides the schemas. -/
structure DropSession where
  arith : Dml.Arith
  acl : Dml.Acl
  who : Dml.Account
  /-- The schema of this table can be saved. -/
  saves : Name → Bool
  /-- The answer can be sent. -/
  sends : Bool

/-- The user may alter the table. -/
def DropSession.mayAlter (w : DropSession) (name : Name) : Bool :=
  Dml.verifyPrivilege w.arith w.acl w.who ⟨name.1, name.2⟩ ALTER_PRIV

/-- The loop of `vm::drop_foreign_key` over the names of the key: what has been taken away when it throws is gone. -/
def unreferIn (parent : Name) (fgnName : Text) : List Text → EStateM Thrown Schemas Unit
  | [] => pure ()
  | name :: names => do
      let db ← get
      match db parent with
      | none => throw (.schema .malformedTableRef)
      | some sch =>
          match columnPos sch.column name with
          | none => throw (.schema .malformedReference)
          | some i =>
              if refers fgnName sch.column i then
                set (db.set parent { sch with column := sch.column.modify i (Column.unrefer fgnName) })
                unreferIn parent fgnName names
              else throw (.schema .malformedReference)

/-- Both schemas are saved, and the answer is sent. -/
def DropSession.report (w : DropSession) (child parent : Name) : EStateM Thrown Schemas Unit := do
  if !w.saves child then throw .saveSchema
  if !w.saves parent then throw .saveSchema
  if !w.sends then throw .send

/-- `vm::drop_foreign_key`, on the schemas as they are in memory. -/
def dropForeignKeyIn (w : DropSession) (child : Name) (fgnName : Text) : EStateM Thrown Schemas Unit := do
  let db ← get
  match db child with
  | none => throw (.schema .malformedTableRef)
  | some sch => do
      if !w.mayAlter child then throw .accessDenied
      match sch.foreign.find? fun fgn => fgn.name = fgnName with
      | none => throw (.schema .malformedForeignKey)
      | some fgn => do
          if !w.mayAlter (fgn.dbName, fgn.tblName) then throw .accessDenied
          match db (fgn.dbName, fgn.tblName) with
          | none => throw (.schema .malformedTableRef)
          | some _ => do
              set (db.set child { sch with foreign := sch.foreign.eraseP fun fgn => fgn.name = fgnName })
              unreferIn (fgn.dbName, fgn.tblName) fgnName fgn.colNameList
              w.report child (fgn.dbName, fgn.tblName)

/-- How many back-references of keys of this name there are at a column. -/
def refCount (fgnName : Text) (columns : List Column) (i : ℕ) : ℕ :=
  ((columns[i]?).map fun col => col.referenceList.countP fun ref => ref.fgnName = fgnName).getD 0

/-- There are back-references for all names. -/
def Covered (fgnName : Text) (columns : List Column) (names : List Text) : Prop :=
  ∀ name ∈ names, ∃ i, columnPos columns name = some i ∧ names.count name ≤ refCount fgnName columns i

variable {w : DropSession} {child parent : Name} {fgnName : Text} {columns columns' : List Column} {names : List Text} {db db' : Schemas}

/-! ### Back-references that are taken away -/

/-- Changes at these places, one after the other. -/
def modifyAt {α : Type} (f : α → α) (is : List ℕ) (l : List α) : List α := is.foldl (fun l i => l.modify i f) l

theorem modifyAt_getElem? {α : Type} (f : α → α) (is : List ℕ) (l : List α) (i : ℕ) :
    (modifyAt f is l)[i]? = (l[i]?).map f^[is.count i] := by
  induction is generalizing l with
  | nil => simp [modifyAt]
  | cons k is ih =>
    rw [modifyAt, List.foldl_cons, ← modifyAt, ih, List.getElem?_modify]
    rcases eq_or_ne k i with rfl | hki
    · rw [List.count_cons_self, Function.iterate_succ]
      cases l[k]? <;> simp
    · rw [List.count_cons_of_ne hki]
      cases l[i]? <;> simp [hki]

theorem referAt_eq_modifyAt (is : List ℕ) (columns : List Column) :
    referAt child fgnName is columns = modifyAt (Column.refer child fgnName) is columns := by
  induction is generalizing columns with
  | nil => rfl
  | cons k is ih => exact ih _

theorem refers_iff {i : ℕ} : refers fgnName columns i = true ↔ 0 < refCount fgnName columns i := by
  rw [refers, refCount]
  cases columns[i]? with
  | none => exact ⟨nofun, nofun⟩
  | some col => simp [List.countP_pos_iff]

theorem countP_unrefer (col : Column) :
    ((col.unrefer fgnName).referenceList.countP fun ref => ref.fgnName = fgnName) =
      (col.referenceList.countP fun ref => ref.fgnName = fgnName) - 1 := by
  rw [Column.unrefer]
  induction col.referenceList with
  | nil => rfl
  | cons ref refs ih =>
    by_cases h : ref.fgnName = fgnName
    · simp [h]
    · simp [h, ih]

theorem refCount_modify (i j : ℕ) :
    refCount fgnName (columns.modify i (Column.unrefer fgnName)) j = refCount fgnName columns j - if i = j then 1 else 0 := by
  rw [refCount, refCount, List.getElem?_modify]
  cases hc : columns[j]? with
  | none => simp
  | some col =>
    split
    · exact countP_unrefer col
    · rfl

theorem columnPos_unrefer (i : ℕ) (name : Text) :
    columnPos (columns.modify i (Column.unrefer fgnName)) name = columnPos columns name :=
  columnPos_congr (@map_modify _ _ (Column.unrefer fgnName) Column.name (fun _ => rfl) columns i) name

/-- Back-references by names are taken away at the places of the names, where there are enough. -/
theorem unrefer_ok : unrefer fgnName names columns = .ok columns' ↔
    ∃ is : List ℕ, names.map (columnPos columns) = is.map some ∧ (∀ i, is.count i ≤ refCount fgnName columns i) ∧
      columns' = modifyAt (Column.unrefer fgnName) is columns := by
  induction names generalizing columns with
  | nil =>
    constructor
    · intro h
      cases h
      exact ⟨[], rfl, fun i => Nat.zero_le _, rfl⟩
    · rintro ⟨is, his, -, rfl⟩
      obtain rfl := List.map_eq_nil_iff.mp his.symm
      rfl
  | cons name names ih =>
    rw [unrefer]
    have hpos := fun i => funext (@columnPos_unrefer fgnName columns i)
    cases hi : columnPos columns name with
    | none =>
      constructor
      · intro h
        cases h
      · rintro ⟨is, his, -⟩
        rw [List.map_cons, hi] at his
        cases is <;> cases his
    | some i =>
      have hcount : ∀ is : List ℕ, 0 < refCount fgnName columns i → ((∀ j, (i :: is).count j ≤ refCount fgnName columns j) ↔
          ∀ j, is.count j ≤ refCount fgnName (columns.modify i (Column.unrefer fgnName)) j) := by
        intro is hp
        refine forall_congr' fun j => ?_
        rw [refCount_modify]
        rcases eq_or_ne i j with rfl | hij
        · rw [if_pos rfl, List.count_cons_self]
          omega
        · rw [if_neg hij, List.count_cons_of_ne hij, Nat.sub_zero]
      dsimp only
      rw [← refers]
      split
      · rename_i href
        rw [ih, hpos i]
        constructor
        · rintro ⟨is, his, hle, rfl⟩
          exact ⟨i :: is, by rw [List.map_cons, List.map_cons, hi, his], (hcount is (refers_iff.mp href)).mpr hle, rfl⟩
        · rintro ⟨is, his, hle, rfl⟩
          rw [List.map_cons, hi] at his
          cases is with
          | nil => cases his
          | cons k is =>
            obtain ⟨hk, hrest⟩ := List.cons.inj his
            obtain rfl := Option.some.inj hk
            exact ⟨is, hrest, (hcount is (refers_iff.mp href)).mp hle, rfl⟩
      · rename_i href
        constructor
        · intro h
          cases h
        · rintro ⟨is, his, hle, -⟩
          rw [List.map_cons, hi] at his
          cases is with
          | nil => cases his
          | cons k is =>
            obtain ⟨hk, -⟩ := List.cons.inj his
            obtain rfl := Option.some.inj hk
            have := hle i
            rw [List.count_cons_self] at this
            exact absurd (refers_iff.mpr (by omega)) href

/-! ### One column -/

/-- The first back-reference of a key of this name is taken away. -/
def eraseRef (fgnName : Text) (refs : List Reference) : List Reference := refs.eraseP fun ref => ref.fgnName = fgnName

variable {refs : List Reference}

theorem unrefer_iterate (m : ℕ) (col : Column) :
    (Column.unrefer fgnName)^[m] col = { col with referenceList := (eraseRef fgnName)^[m] col.referenceList } := by
  induction m generalizing col with
  | zero => rfl
  | succ m ih =>
    rw [Function.iterate_succ_apply, ih]
    rfl

/-- New back-references are of the key and have not been there. -/
theorem refer_iterate (k : ℕ) (col : Column) :
    ∃ news : List Reference, (Column.refer child fgnName)^[k] col = { col with referenceList := col.referenceList ++ news } ∧
      news.length = k ∧ ∀ ref ∈ news, ref.fgnName = fgnName ∧ ref ∉ col.referenceList := by
  induction k with
  | zero => exact ⟨[], by rw [List.append_nil]; rfl, rfl, nofun⟩
  | succ k ih =>
    obtain ⟨news, heq, hlen, hnews⟩ := ih
    rw [Function.iterate_succ_apply', heq]
    refine ⟨news ++ [_], by rw [Column.refer, List.append_assoc], by rw [List.length_append, hlen]; rfl, fun ref href => ?_⟩
    rcases List.mem_append.mp href with href | href
    · exact hnews ref href
    · obtain rfl := List.mem_singleton.mp href
      refine ⟨rfl, fun hm => ?_⟩
      exact makeName_fresh REF_ ((col.referenceList ++ news).map Reference.name)
        (List.mem_map_of_mem (f := Reference.name) (List.mem_append_left news hm))

theorem countP_eraseRef (refs : List Reference) :
    ((eraseRef fgnName refs).countP fun ref => ref.fgnName = fgnName) = (refs.countP fun ref => ref.fgnName = fgnName) - 1 := by
  induction refs with
  | nil => rfl
  | cons ref refs ih =>
    rw [eraseRef] at *
    by_cases h : ref.fgnName = fgnName
    · simp [h]
    · simp [h, ih]

theorem eraseRef_append (h : 0 < refs.countP fun ref => ref.fgnName = fgnName) (rest : List Reference) :
    eraseRef fgnName (refs ++ rest) = eraseRef fgnName refs ++ rest := by
  obtain ⟨ref, hm, href⟩ := List.countP_pos_iff.mp h
  exact @List.eraseP_append_left _ (fun ref : Reference => decide (ref.fgnName = fgnName)) ref href refs rest hm

/-- What is behind enough back-references of the key stays. -/
theorem eraseRef_iterate_append {m : ℕ} (h : m ≤ refs.countP fun ref => ref.fgnName = fgnName) (rest : List Reference) :
    (eraseRef fgnName)^[m] (refs ++ rest) = (eraseRef fgnName)^[m] refs ++ rest := by
  induction m generalizing refs with
  | zero => rfl
  | succ m ih =>
    rw [Function.iterate_succ_apply, Function.iterate_succ_apply, eraseRef_append (Nat.lt_of_lt_of_le (Nat.succ_pos m) h)]
    exact ih (by rw [countP_eraseRef]; omega)

theorem length_eraseRef_iterate {m : ℕ} (h : m ≤ refs.countP fun ref => ref.fgnName = fgnName) :
    ((eraseRef fgnName)^[m] refs).length + m = refs.length := by
  induction m generalizing refs with
  | zero => rfl
  | succ m ih =>
    obtain ⟨ref, hm, href⟩ := List.countP_pos_iff.mp (Nat.lt_of_lt_of_le (Nat.succ_pos m) h)
    have hlen : (eraseRef fgnName refs).length = refs.length - 1 := List.length_eraseP_of_mem hm href
    have hpos := List.length_pos_of_mem hm
    have := @ih (eraseRef fgnName refs) (by rw [countP_eraseRef]; omega)
    rw [Function.iterate_succ_apply]
    omega

/-- If there are no others, the new back-references are taken away. -/
theorem eraseRef_iterate_news {news : List Reference} (h : (refs.countP fun ref => ref.fgnName = fgnName) = 0)
    (hnews : ∀ ref ∈ news, ref.fgnName = fgnName) : (eraseRef fgnName)^[news.length] (refs ++ news) = refs := by
  induction news with
  | nil => exact List.append_nil refs
  | cons ref news ih =>
    obtain ⟨href, hrest⟩ := List.forall_mem_cons.mp hnews
    have hnone : ∀ r ∈ refs, ¬ (decide (r.fgnName = fgnName)) = true := List.countP_eq_zero.mp h
    have hfirst : eraseRef fgnName (refs ++ ref :: news) = refs ++ news := by
      rw [eraseRef, List.eraseP_append_right _ hnone]
      exact congrArg _ (@List.eraseP_cons_of_pos _ ref news (fun ref : Reference => decide (ref.fgnName = fgnName)) (decide_eq_true href))
    rw [List.length_cons, Function.iterate_succ_apply, hfirst]
    exact ih hrest

/-- A column is as it was if as many back-references have been taken away as were added, and none of a key of this
name was there before. -/
theorem unrefer_refer_iff {m k : ℕ} {col : Column} (hm : m ≤ (col.referenceList.countP fun ref => ref.fgnName = fgnName) + k) :
    (Column.unrefer fgnName)^[m] ((Column.refer child fgnName)^[k] col) = col ↔
      m = k ∧ (k = 0 ∨ (col.referenceList.countP fun ref => ref.fgnName = fgnName) = 0) := by
  obtain ⟨news, heq, hlen, hnews⟩ := @refer_iterate child fgnName k col
  have hall : (news.countP fun ref => ref.fgnName = fgnName) = k := by
    rw [← hlen, List.countP_eq_length]
    exact fun ref href => decide_eq_true (hnews ref href).1
  rw [unrefer_iterate, heq]
  constructor
  · intro h
    have hrefs : (eraseRef fgnName)^[m] (col.referenceList ++ news) = col.referenceList := congrArg Column.referenceList h
    have hl := @length_eraseRef_iterate fgnName (col.referenceList ++ news) m
      (by rw [List.countP_append, hall]; exact hm)
    rw [hrefs, List.length_append, hlen] at hl
    obtain rfl : m = k := by omega
    refine ⟨rfl, or_iff_not_imp_left.mpr fun hk => ?_⟩
    by_contra he
    -- the last one that is new stays
    obtain ⟨front, last, rfl⟩ := (List.eq_nil_or_concat' news).resolve_left fun hnil => hk (by rw [← hlen, hnil]; rfl)
    have hcount : m ≤ (col.referenceList ++ front).countP fun ref => ref.fgnName = fgnName := by
      rw [List.countP_append] at hall ⊢
      rw [List.countP_singleton, if_pos (decide_eq_true (hnews last (by simp)).1)] at hall
      omega
    rw [← List.append_assoc, eraseRef_iterate_append hcount] at hrefs
    refine (hnews last (by simp)).2 ?_
    rw [← hrefs]
    exact List.mem_append_right _ List.mem_cons_self
  · rintro ⟨rfl, hk⟩
    rcases hk with rfl | he
    · obtain rfl := List.length_eq_zero_iff.mp hlen
      rw [List.append_nil]
      rfl
    · have := eraseRef_iterate_news he fun ref href => (hnews ref href).1
      rw [hlen] at this
      rw [this]

/-! ### Names and places -/

/-- Places of names. -/
theorem names_of_places {is : List ℕ} (h : names.map (columnPos columns) = is.map some) :
    names = is.map fun i => ((columns[i]?).map Column.name).getD [] := by
  induction names generalizing is with
  | nil => rw [List.map_eq_nil_iff.mp h.symm]; rfl
  | cons name names ih =>
    cases is with
    | nil => cases h
    | cons i is =>
      obtain ⟨hi, hrest⟩ := List.cons.inj h
      obtain ⟨hlt, hname, -⟩ := List.findIdx?_eq_some_iff_getElem.mp hi
      rw [List.map_cons, ← ih hrest, List.getElem?_eq_getElem hlt, Option.map_some, Option.getD_some, of_decide_eq_true hname]

/-- The place of a column that there is. -/
def place (columns : List Column) (name : Text) : ℕ := (columnPos columns name).getD 0

theorem map_place {is : List ℕ} (h : names.map (columnPos columns) = is.map some) : names.map (place columns) = is := by
  have := congrArg (List.map fun o : Option ℕ => o.getD 0) h
  rw [List.map_map, List.map_map] at this
  exact this.trans (List.map_id _)

theorem places_of_found (h : ∀ name ∈ names, ∃ i, columnPos columns name = some i) :
    names.map (columnPos columns) = (names.map (place columns)).map some := by
  rw [List.map_map]
  refine List.map_congr_left fun name hm => ?_
  obtain ⟨i, hi⟩ := h name hm
  rw [Function.comp_apply, place, hi, Option.getD_some]

theorem found_of_places {is : List ℕ} (h : names.map (columnPos columns) = is.map some) :
    ∀ name ∈ names, columnPos columns name = some (place columns name) ∧ place columns name ∈ is := by
  intro name hm
  have hp : columnPos columns name ∈ is.map some := h ▸ List.mem_map_of_mem hm
  obtain ⟨i, hi, he⟩ := List.mem_map.mp hp
  rw [place, ← he]
  exact ⟨rfl, hi⟩

/-- Names are those of other names, in any order, if their places are. -/
theorem perm_of_found {names' : List Text} {is' : List ℕ} (h' : names'.map (columnPos columns) = is'.map some) :
    (∃ is : List ℕ, names.map (columnPos columns) = is.map some ∧ is.Perm is') ↔ names.Perm names' := by
  constructor
  · rintro ⟨is, h, hperm⟩
    rw [names_of_places h, names_of_places h']
    exact hperm.map _
  · intro hperm
    refine ⟨names.map (place columns), places_of_found fun name hm => ?_, ?_⟩
    · exact ⟨_, (found_of_places h' name (hperm.mem_iff.mp hm)).1⟩
    · rw [← map_place h']
      exact hperm.map _

/-- There are back-references for all names if there are at the places of the names. -/
theorem covered_iff : Covered fgnName columns names ↔
    ∃ is : List ℕ, names.map (columnPos columns) = is.map some ∧ ∀ i, is.count i ≤ refCount fgnName columns i := by
  constructor
  · intro h
    have hplaces := places_of_found fun name hm => (h name hm).imp fun _ hi => hi.1
    refine ⟨_, hplaces, fun i => ?_⟩
    by_cases hi : i ∈ names.map (place columns)
    · obtain ⟨name, hm, rfl⟩ := List.mem_map.mp hi
      obtain ⟨i, hpos, hle⟩ := h name hm
      have hplace : place columns name = i := by rw [place, hpos, Option.getD_some]
      obtain ⟨hlt, hname, -⟩ := List.findIdx?_eq_some_iff_getElem.mp hpos
      rw [hplace]
      refine le_trans ?_ hle
      have hcount := @List.count_le_count_map _ _ _ _ _ _ (names.map (place columns)) (fun i => ((columns[i]?).map Column.name).getD []) i
      rwa [← names_of_places hplaces, List.getElem?_eq_getElem hlt, Option.map_some, Option.getD_some, of_decide_eq_true hname] at hcount
    · rw [List.count_eq_zero_of_not_mem hi]
      exact Nat.zero_le _
  · rintro ⟨is, his, hle⟩ name hm
    refine ⟨_, (found_of_places his name hm).1, le_trans ?_ (hle _)⟩
    have hcount := @List.count_le_count_map _ _ _ _ _ _ names (place columns) name
    rwa [map_place his] at hcount

/-! ### Schemas -/

theorem Schemas.set_set (db : Schemas) (name : Name) (a b : Schema) : (db.set name a).set name b = db.set name b := by
  funext n
  unfold Schemas.set
  split <;> rfl

theorem Schemas.set_eq_self {name : Name} {sch : Schema} (h : db name = some sch) : db.set name sch = db := by
  funext n
  unfold Schemas.set
  split
  · rename_i hn
    rw [hn, h]
  · rfl

/-- The loop ends well if the back-references are there. -/
theorem unreferIn_ok {p : Schema} (hp : db parent = some p) : unreferIn parent fgnName names db = .ok () db' ↔
    ∃ columns, unrefer fgnName names p.column = .ok columns ∧ db' = db.set parent { p with column := columns } := by
  induction names generalizing db p with
  | nil =>
    rw [unreferIn, pure_ok, and_iff_right rfl, unrefer]
    constructor
    · rintro rfl
      exact ⟨p.column, rfl, (Schemas.set_eq_self hp).symm⟩
    · rintro ⟨columns, h, rfl⟩
      cases h
      exact (Schemas.set_eq_self hp).symm
  | cons name names ih =>
    rw [unreferIn, get_bind, hp]
    dsimp only
    rw [unrefer]
    cases columnPos p.column name with
    | none =>
      constructor
      · intro h
        cases h
      · rintro ⟨columns, h, -⟩
        cases h
    | some i =>
      dsimp only
      rw [← refers]
      split
      · rw [set_bind, ih (Schemas.set_self ..)]
        refine exists_congr fun columns => and_congr_right fun _ => ?_
        rw [Schemas.set_set]
      · constructor
        · intro h
          cases h
        · rintro ⟨columns, h, -⟩
          cases h

/-- The loop does not change foreign keys. -/
theorem unreferIn_foreign (parent : Name) (fgnName : Text) (names : List Text) (n : Name) (l : Option (List Foreign)) :
    Keeps (fun db : Schemas => (db n).map Schema.foreign = l) (unreferIn parent fgnName names) := by
  induction names with
  | nil => exact keeps_pure ()
  | cons name names ih =>
    refine keeps_get_bind fun db h => ?_
    cases hp : db parent with
    | none => exact h
    | some p =>
      dsimp only
      cases columnPos p.column name with
      | none => exact h
      | some i =>
        dsimp only
        split
        · rw [set_bind]
          apply ih
          rw [← h]
          rcases eq_or_ne n parent with rfl | hn
          · rw [Schemas.set_self, hp]
            rfl
          · rw [Schemas.set_of_ne _ _ hn]
        · exact h

theorem report_ok : w.report child parent db = .ok () db' ↔
    (w.saves child = true ∧ w.saves parent = true ∧ w.sends = true) ∧ db' = db := by
  rw [DropSession.report]
  cases w.saves child with
  | false => exact ⟨nofun, fun h => absurd h.1.1 Bool.false_ne_true⟩
  | true =>
    cases w.saves parent with
    | false => exact ⟨nofun, fun h => absurd h.1.2.1 Bool.false_ne_true⟩
    | true =>
      cases w.sends with
      | false => exact ⟨nofun, fun h => absurd h.1.2.2 Bool.false_ne_true⟩
      | true =>
        constructor
        · intro h
          cases h
          exact ⟨⟨rfl, rfl, rfl⟩, rfl⟩
        · rintro ⟨-, rfl⟩
          rfl

theorem report_final : final (w.report child parent db) = db := by
  rw [DropSession.report]
  cases w.saves child with
  | false => rfl
  | true =>
    cases w.saves parent with
    | false => rfl
    | true =>
      cases w.sends with
      | false => rfl
      | true => rfl

/-- What the statement does with a key that it has erased. -/
def DropSession.unrefer (w : DropSession) (child parent : Name) (fgnName : Text) (names : List Text) : EStateM Thrown Schemas Unit := do
  unreferIn parent fgnName names
  w.report child parent

/-- The back-references are taken away, and the schemas saved, if all goes well. -/
theorem unrefer_run_ok {p : Schema} (hp : db parent = some p) : w.unrefer child parent fgnName names db = .ok () db' ↔
    (∃ columns, Ddl.unrefer fgnName names p.column = .ok columns ∧ db' = db.set parent { p with column := columns }) ∧
      w.saves child = true ∧ w.saves parent = true ∧ w.sends = true := by
  rw [DropSession.unrefer, Runs.bind_ok]
  constructor
  · rintro ⟨_, db1, hloop, hreport⟩
    obtain ⟨hsaved, heq⟩ := report_ok.mp hreport
    rw [← heq] at hloop
    exact ⟨(unreferIn_ok hp).mp hloop, hsaved⟩
  · rintro ⟨hloop, hsaved⟩
    exact ⟨(), db', (unreferIn_ok hp).mpr hloop, report_ok.mpr ⟨hsaved, rfl⟩⟩

theorem unrefer_run_foreign (w : DropSession) (child parent : Name) (fgnName : Text) (names : List Text) (n : Name) (l : Option (List Foreign)) :
    Keeps (fun db : Schemas => (db n).map Schema.foreign = l) (w.unrefer child parent fgnName names) := by
  refine (unreferIn_foreign parent fgnName names n l).bind fun _ => ?_
  intro db h
  rwa [report_final]

/-- The statement gets to the key and to its table. -/
structure Found (w : DropSession) (db : Schemas) (child : Name) (fgnName : Text) (sch : Schema) (fgn : Foreign) (p : Schema) : Prop where
  table : db child = some sch
  mayAlter : w.mayAlter child = true
  foreign : (sch.foreign.find? fun fgn => fgn.name = fgnName) = some fgn
  mayAlterParent : w.mayAlter (fgn.dbName, fgn.tblName) = true
  parentTable : db (fgn.dbName, fgn.tblName) = some p

/-- A key that has been found, with its table, is erased, and the back-references are taken away. -/
theorem dropForeignKeyIn_found {sch p : Schema} {fgn : Foreign} (h : Found w db child fgnName sch fgn p) :
    dropForeignKeyIn w child fgnName db = w.unrefer child (fgn.dbName, fgn.tblName) fgnName fgn.colNameList
      (db.set child { sch with foreign := sch.foreign.eraseP fun fgn => fgn.name = fgnName }) := by
  rw [dropForeignKeyIn, get_bind, h.table]
  dsimp only
  rw [h.mayAlter, h.foreign]
  dsimp only [Bool.not_true]
  rw [h.mayAlterParent, h.parentTable]
  rfl

/-- A statement that does not get there changes nothing. -/
theorem dropForeignKeyIn_not_found (h : ¬∃ sch fgn p, Found w db child fgnName sch fgn p) :
    ∃ e, dropForeignKeyIn w child fgnName db = .error e db := by
  rw [dropForeignKeyIn, get_bind]
  cases hs : db child with
  | none => exact ⟨_, rfl⟩
  | some sch =>
    dsimp only
    cases hacl : w.mayAlter child with
    | false => exact ⟨_, rfl⟩
    | true =>
      cases hf : sch.foreign.find? fun fgn => fgn.name = fgnName with
      | none => exact ⟨_, rfl⟩
      | some fgn =>
        dsimp only
        cases hacl' : w.mayAlter (fgn.dbName, fgn.tblName) with
        | false => exact ⟨_, rfl⟩
        | true =>
          cases hp : db (fgn.dbName, fgn.tblName) with
          | none => exact ⟨_, rfl⟩
          | some p => exact absurd ⟨sch, fgn, p, hs, hacl, hf, hacl', hp⟩ h

/-- The other table, which may be the table itself, has its columns when the key has been erased. -/
theorem columns_of_dropped {sch p : Schema} (hs : db child = some sch) (hp : db parent = some p) (l : List Foreign) :
    ∃ p', (db.set child { sch with foreign := l }) parent = some p' ∧ p'.column = p.column := by
  rcases eq_or_ne parent child with rfl | hne
  · obtain rfl := Option.some.inj (hs.symm.trans hp)
    exact ⟨_, Schemas.set_self .., rfl⟩
  · exact ⟨p, by rw [Schemas.set_of_ne _ _ hne, hp], rfl⟩

/-- A drop that fails leaves the schemas as they were, if and only if it is not behind the erasure of the key that it
fails. -/
theorem dropForeignKeyIn_error_iff : (∀ e db', dropForeignKeyIn w child fgnName db = .error e db' → db' = db) ↔
    ∀ sch fgn p, Found w db child fgnName sch fgn p → Covered fgnName p.column fgn.colNameList ∧
      w.saves child = true ∧ w.saves (fgn.dbName, fgn.tblName) = true ∧ w.sends = true := by
  constructor
  · intro h sch fgn p hf
    have hrun := dropForeignKeyIn_found hf
    obtain ⟨p', hp', hcol⟩ := columns_of_dropped hf.table hf.parentTable (sch.foreign.eraseP fun fgn => fgn.name = fgnName)
    cases hr : dropForeignKeyIn w child fgnName db with
    | ok u db' =>
      rw [hrun] at hr
      obtain ⟨⟨columns, hu, -⟩, hsaved⟩ := (unrefer_run_ok hp').mp hr
      rw [hcol, unrefer_ok] at hu
      obtain ⟨is, his, hle, -⟩ := hu
      exact ⟨covered_iff.mpr ⟨is, his, hle⟩, hsaved⟩
    | error e db' =>
      -- the key is gone
      obtain rfl := h e db' hr
      have hkeep := unrefer_run_foreign w child (fgn.dbName, fgn.tblName) fgnName fgn.colNameList child
        (some (sch.foreign.eraseP fun fgn => fgn.name = fgnName))
        (db'.set child { sch with foreign := sch.foreign.eraseP fun fgn => fgn.name = fgnName })
        (congrArg (Option.map Schema.foreign) (Schemas.set_self ..))
      rw [← hrun, hr] at hkeep
      simp only [final, hf.table, Option.map_some, Option.some.injEq] at hkeep
      have hlen := congrArg List.length hkeep
      have hm := List.mem_of_find?_eq_some hf.foreign
      rw [List.length_eraseP_of_mem hm (List.find?_some hf.foreign)] at hlen
      have hpos := List.length_pos_of_mem hm
      omega
  · intro h e db' hr
    by_cases hfound : ∃ sch fgn p, Found w db child fgnName sch fgn p
    · obtain ⟨sch, fgn, p, hf⟩ := hfound
      obtain ⟨hcovered, hsaved⟩ := h sch fgn p hf
      obtain ⟨is, his, hle⟩ := covered_iff.mp hcovered
      obtain ⟨p', hp', hcol⟩ := columns_of_dropped hf.table hf.parentTable (sch.foreign.eraseP fun fgn => fgn.name = fgnName)
      rw [← hcol] at his hle
      rw [dropForeignKeyIn_found hf, (unrefer_run_ok hp').mpr ⟨⟨_, unrefer_ok.mpr ⟨is, his, hle, rfl⟩, rfl⟩, hsaved⟩] at hr
      cases hr
    · obtain ⟨e', he'⟩ := dropForeignKeyIn_not_found hfound
      rw [he'] at hr
      cases hr
      rfl

/-- On the schemas alone, a drop that succeeds is the statement of the catalogue. -/
theorem dropForeignKeyIn_ok : dropForeignKeyIn w child fgnName db = .ok () db' ↔ dropForeignKey child fgnName db = .ok db' ∧
    ∃ sch fgn p, Found w db child fgnName sch fgn p ∧
      w.saves child = true ∧ w.saves (fgn.dbName, fgn.tblName) = true ∧ w.sends = true := by
  have hschemas {sch p : Schema} {fgn : Foreign} (hf : Found w db child fgnName sch fgn p) : ∃ p',
      (db.set child { sch with foreign := sch.foreign.eraseP fun fgn => fgn.name = fgnName }) (fgn.dbName, fgn.tblName) = some p' ∧
        (dropForeignKey child fgnName db = .ok db' ↔ ∃ columns, unrefer fgnName fgn.colNameList p'.column = .ok columns ∧
          db' = (db.set child { sch with foreign := sch.foreign.eraseP fun fgn => fgn.name = fgnName }).set (fgn.dbName, fgn.tblName)
            { p' with column := columns }) := by
    obtain ⟨p', hp', -⟩ := columns_of_dropped hf.table hf.parentTable (sch.foreign.eraseP fun fgn => fgn.name = fgnName)
    refine ⟨p', hp', ?_⟩
    unfold dropForeignKey
    constructor
    · intro h
      obtain ⟨sch', hs, h⟩ := Ddl.bind_ok.mp h
      obtain rfl := Option.some.inj (hf.table.symm.trans (table_ok.mp hs))
      rw [hf.foreign] at h
      obtain ⟨-, -, h⟩ := Ddl.bind_ok.mp h
      obtain ⟨q, hq, h⟩ := Ddl.bind_ok.mp h
      obtain rfl := Option.some.inj (hp'.symm.trans (table_ok.mp hq))
      obtain ⟨columns, hu, h⟩ := Ddl.bind_ok.mp h
      cases h
      exact ⟨columns, hu, rfl⟩
    · rintro ⟨columns, hu, rfl⟩
      refine Ddl.bind_ok.mpr ⟨sch, table_ok.mpr hf.table, ?_⟩
      rw [hf.foreign]
      refine Ddl.bind_ok.mpr ⟨p, table_ok.mpr hf.parentTable, Ddl.bind_ok.mpr ⟨p', table_ok.mpr hp', ?_⟩⟩
      exact Ddl.bind_ok.mpr ⟨columns, hu, rfl⟩
  by_cases hfound : ∃ sch fgn p, Found w db child fgnName sch fgn p
  · obtain ⟨sch, fgn, p, hf⟩ := hfound
    obtain ⟨p', hp', hdrop⟩ := hschemas hf
    rw [dropForeignKeyIn_found hf, unrefer_run_ok hp', hdrop]
    refine and_congr_right fun _ => ⟨fun hsaved => ⟨sch, fgn, p, hf, hsaved⟩, fun ⟨sch', fgn', p', hf', hsaved⟩ => ?_⟩
    obtain rfl := Option.some.inj (hf.table.symm.trans hf'.table)
    obtain rfl := Option.some.inj (hf.foreign.symm.trans hf'.foreign)
    exact hsaved
  · obtain ⟨e, he⟩ := dropForeignKeyIn_not_found hfound
    rw [he]
    exact ⟨nofun, fun ⟨_, sch, fgn, p, hf, _⟩ => absurd ⟨sch, fgn, p, hf⟩ hfound⟩

/-! ### A key that is added and dropped -/

theorem columnPos_modifyAt (is : List ℕ) (columns : List Column) :
    columnPos (modifyAt (Column.refer child fgnName) is columns) = columnPos columns := by
  refine funext (columnPos_congr ?_)
  rw [← referAt_eq_modifyAt]
  exact referAt_map (fun _ => rfl) is columns

theorem refCount_refer (is : List ℕ) (i : ℕ) (hi : i < columns.length) :
    refCount fgnName (modifyAt (Column.refer child fgnName) is columns) i = refCount fgnName columns i + is.count i := by
  rw [refCount, refCount, modifyAt_getElem?, List.getElem?_eq_getElem hi]
  obtain ⟨news, heq, hlen, hnews⟩ := @refer_iterate child fgnName (is.count i) columns[i]
  simp only [Option.map_some, Option.getD_some, heq, List.countP_append]
  rw [← hlen, Nat.add_right_inj, List.countP_eq_length]
  exact fun ref href => decide_eq_true (hnews ref href).1

/-- Columns are as they were if the places are the same, and there no key of this name has been referring to. -/
theorem modifyAt_unrefer_iff {is js : List ℕ} (his : ∀ i ∈ is, i < columns.length) (hjs : ∀ j ∈ js, j < columns.length)
    (hle : ∀ j, js.count j ≤ refCount fgnName (modifyAt (Column.refer child fgnName) is columns) j) :
    modifyAt (Column.unrefer fgnName) js (modifyAt (Column.refer child fgnName) is columns) = columns ↔
      js.Perm is ∧ ∀ i ∈ is, refCount fgnName columns i = 0 := by
  have hcol : ∀ i (hi : i < columns.length),
      ((Column.unrefer fgnName)^[js.count i] ((Column.refer child fgnName)^[is.count i] columns[i]) = columns[i] ↔
        js.count i = is.count i ∧ (is.count i = 0 ∨ refCount fgnName columns i = 0)) := by
    intro i hi
    have hcount : refCount fgnName columns i = columns[i].referenceList.countP fun ref => ref.fgnName = fgnName := by
      rw [refCount, List.getElem?_eq_getElem hi]
      rfl
    have := hle i
    rw [refCount_refer is i hi] at this
    rw [hcount] at this ⊢
    exact unrefer_refer_iff this
  constructor
  · intro h
    have hget : ∀ i (hi : i < columns.length), js.count i = is.count i ∧ (is.count i = 0 ∨ refCount fgnName columns i = 0) := by
      intro i hi
      rw [← hcol i hi]
      have := congrArg (·[i]?) h
      simpa [modifyAt_getElem?, List.getElem?_eq_getElem hi] using this
    refine ⟨List.perm_iff_count.mpr fun i => ?_, fun i hm => ?_⟩
    · by_cases hi : i < columns.length
      · exact (hget i hi).1
      · rw [List.count_eq_zero_of_not_mem fun hm => hi (hjs i hm), List.count_eq_zero_of_not_mem fun hm => hi (his i hm)]
    · exact (hget i (his i hm)).2.resolve_left (Nat.ne_of_gt (List.count_pos_iff.mpr hm))
  · rintro ⟨hperm, hnone⟩
    refine List.ext_getElem? fun i => ?_
    rw [modifyAt_getElem?, modifyAt_getElem?]
    by_cases hi : i < columns.length
    · rw [List.getElem?_eq_getElem hi, Option.map_some, Option.map_some, Option.some.injEq, hcol i hi]
      refine ⟨hperm.count_eq i, ?_⟩
      by_cases hm : i ∈ is
      · exact .inr (hnone i hm)
      · exact .inl (List.count_eq_zero_of_not_mem hm)
    · rw [List.getElem?_eq_none (Nat.not_lt.mp hi)]
      rfl

/-- A drop of a key that has just been added restores both schemas under these conditions. -/
structure Restorable (w : DropSession) (child parent : Name) (fgnName : Text) (columns : List Column) (cols fgns : List Text) : Prop where
  /-- The names of both lists are the same. -/
  names : cols.Perm fgns
  /-- No key of its name refers to these columns. -/
  fresh : ∀ name ∈ fgns, refCount fgnName columns (place columns name) = 0
  mayAlter : w.mayAlter child = true ∧ w.mayAlter parent = true
  saved : w.saves child = true ∧ w.saves parent = true ∧ w.sends = true

/-- A key that has been added is dropped and all is as it was, if and only if the names of both lists are the same, no
key of its name refers to these columns, and the drop is allowed, saved and reported. -/
theorem addForeignKey_drop_iff {sch p : Schema} {cols fgns : List Text} (hne : child ≠ parent) (hs : db child = some sch)
    (hp : db parent = some p) (h : addForeignKey child parent cols fgns db = .ok db') :
    (∃ db'', dropForeignKeyIn w child (makeName FGN_ (sch.foreign.map Foreign.name)) db' = .ok () db'' ∧
        db'' child = some sch ∧ db'' parent = some p) ↔
      Restorable w child parent (makeName FGN_ (sch.foreign.map Foreign.name)) p.column cols fgns := by
  obtain ⟨-, columns, hr, hs', hp'⟩ := addForeignKey_ok (Ne.symm hne) hs hp h
  obtain ⟨is, his, rfl⟩ := referNamed_ok hr
  rw [referAt_eq_modifyAt] at hp'
  have hfresh := makeName_fresh FGN_ (sch.foreign.map Foreign.name)
  generalize makeName FGN_ (sch.foreign.map Foreign.name) = fgnName at hfresh hs' hp'
  -- the key is found, and without it the keys are as they were
  have hnot : ∀ fgn ∈ sch.foreign, ¬ decide (fgn.name = fgnName) = true := fun fgn hm he =>
    hfresh (of_decide_eq_true he ▸ List.mem_map_of_mem hm)
  let fgn : Foreign := { name := fgnName, dbName := parent.1, tblName := parent.2, colNameList := cols }
  have hfind : ((sch.foreign ++ [fgn]).find? fun fgn => fgn.name = fgnName) = some fgn := by
    rw [List.find?_append, List.find?_eq_none.mpr hnot, Option.none_or, List.find?_singleton, if_pos (decide_eq_true rfl)]
  have herase : ((sch.foreign ++ [fgn]).eraseP fun fgn => fgn.name = fgnName) = sch.foreign := by
    rw [List.eraseP_append_right _ hnot]
    have : [fgn].eraseP (fun fgn => fgn.name = fgnName) = [] := List.eraseP_cons_of_pos (decide_eq_true rfl)
    rw [this, List.append_nil]
  have hparent : (db'.set child sch) parent = some { p with column := modifyAt (Column.refer child fgnName) is p.column } := by
    rw [Schemas.set_of_ne _ _ (Ne.symm hne), hp']
  by_cases hacl : w.mayAlter child = true ∧ w.mayAlter parent = true
  swap
  · -- the drop is denied
    constructor
    · rintro ⟨db'', hok, -⟩
      obtain ⟨-, sch', fgn', p', hf, -⟩ := dropForeignKeyIn_ok.mp hok
      obtain rfl := Option.some.inj (hs'.symm.trans hf.table)
      obtain rfl := Option.some.inj (hfind.symm.trans hf.foreign)
      exact absurd ⟨hf.mayAlter, hf.mayAlterParent⟩ hacl
    · exact fun hr => absurd hr.mayAlter hacl
  have hrun : dropForeignKeyIn w child fgnName db' = w.unrefer child parent fgnName cols (db'.set child sch) := by
    rw [dropForeignKeyIn_found ⟨hs', hacl.1, hfind, hacl.2, hp'⟩, herase]
  rw [hrun]
  have hplaces := found_of_places his
  have hlt : ∀ {names : List Text} {js : List ℕ}, names.map (columnPos p.column) = js.map some → ∀ j ∈ js, j < p.column.length := by
    intro names js hjs j hm
    obtain ⟨name, -, hname⟩ := List.mem_map.mp (hjs ▸ List.mem_map_of_mem hm)
    exact columnPos_lt hname
  constructor
  · rintro ⟨db'', hok, -, hrestored⟩
    obtain ⟨⟨columns, hu, rfl⟩, hsaved⟩ := (unrefer_run_ok hparent).mp hok
    obtain ⟨js, hjs, hle, rfl⟩ := unrefer_ok.mp hu
    rw [columnPos_modifyAt] at hjs
    rw [Schemas.set_self, Option.some.injEq] at hrestored
    have hcol := congrArg Schema.column hrestored
    obtain ⟨hperm, hnone⟩ := (modifyAt_unrefer_iff (hlt his) (hlt hjs) hle).mp hcol
    exact ⟨(perm_of_found his).mp ⟨js, hjs, hperm⟩, fun name hm => hnone _ (hplaces name hm).2, hacl, hsaved⟩
  · rintro ⟨hnames, hnone, -, hsaved⟩
    obtain ⟨js, hjs, hperm⟩ := (perm_of_found his).mpr hnames
    have hnone' : ∀ i ∈ is, refCount fgnName p.column i = 0 := by
      intro i hi
      rw [← map_place his] at hi
      obtain ⟨name, hm, rfl⟩ := List.mem_map.mp hi
      exact hnone name hm
    have hle : ∀ j, js.count j ≤ refCount fgnName (modifyAt (Column.refer child fgnName) is p.column) j := by
      intro j
      by_cases hj : j < p.column.length
      · rw [refCount_refer is j hj, hperm.count_eq]
        omega
      · rw [List.count_eq_zero_of_not_mem fun hm => hj (hlt hjs j hm)]
        exact Nat.zero_le _
    have hcol := (modifyAt_unrefer_iff (hlt his) (hlt hjs) hle).mpr ⟨hperm, hnone'⟩
    refine ⟨_, (unrefer_run_ok hparent).mpr ⟨⟨_, unrefer_ok.mpr ⟨js, by rw [columnPos_modifyAt, hjs], hle, rfl⟩, rfl⟩, hsaved⟩, ?_, ?_⟩
    · rw [Schemas.set_of_ne _ _ hne, Schemas.set_self]
    · rw [Schemas.set_self, hcol]

/-- A key that has been added is dropped again, and a drop that fails changes nothing, under these conditions. -/
theorem foreignKey_drop_iff (w : DropSession) (db : Schemas) (child : Name) :
    (∀ (db' : Schemas) (parent : Name) (sch p : Schema) (cols fgns : List Text), child ≠ parent → db child = some sch →
      db parent = some p → addForeignKey child parent cols fgns db = .ok db' →
      ((∃ db'', dropForeignKeyIn w child (makeName FGN_ (sch.foreign.map Foreign.name)) db' = .ok () db'' ∧
          db'' child = some sch ∧ db'' parent = some p) ↔
        Restorable w child parent (makeName FGN_ (sch.foreign.map Foreign.name)) p.column cols fgns)) ∧
    ∀ fgnName : Text,
      (∀ e db', dropForeignKeyIn w child fgnName db = .error e db' → db' = db) ↔
        ∀ sch fgn p, Found w db child fgnName sch fgn p → Covered fgnName p.column fgn.colNameList ∧
          w.saves child = true ∧ w.saves (fgn.dbName, fgn.tblName) = true ∧ w.sends = true :=
  ⟨fun _ _ _ _ _ _ hne hs hp h => addForeignKey_drop_iff hne hs hp h, fun _ => dropForeignKeyIn_error_iff⟩

/-! ### `ALTER TABLE c ADD FOREIGN KEY (x) REFERENCES p (id)` -/

/-- The tables `p (id)` and `c (x)`. -/
def withChild (x : Text) : Schemas := withParent.set tableC ((oneColumn x).toSchema tableC)

theorem withChild_tableP (x : Text) :
    ∃ p, withChild x tableP = some p ∧ refCount "FGN_000".toList p.column (place p.column "id".toList) = 0 := by
  have h : (withParent tableP).map (fun p => refCount "FGN_000".toList p.column (place p.column "id".toList)) = some 0 := by decide +kernel
  obtain ⟨p, hp, hcount⟩ := Option.map_eq_some_iff.mp h
  exact ⟨p, (Schemas.set_of_ne _ _ (by decide)).trans hp, hcount⟩

theorem addForeignKey_withChild {x : Text} (h : (addForeignKey tableC tableP [x] ["id".toList] (withChild x)).toBool = true) :
    ∃ db', addForeignKey tableC tableP [x] ["id".toList] (withChild x) = .ok db' := by
  cases hd : addForeignKey tableC tableP [x] ["id".toList] (withChild x) with
  | error e =>
    rw [hd] at h
    cases h
  | ok db' => exact ⟨db', rfl⟩

/-- An account that may do everything drops keys, and all schemas can be saved. -/
def rootDrops : DropSession where
  arith := Dml.wholeNumbers
  acl := Dml.oneScope
  who := Dml.rootSession.who
  saves _ := true
  sends := true

/-- A key of the column `id` on the column `id` is dropped again. -/
theorem foreignKey_drop_id : ∃ db' db'', addForeignKey tableC tableP ["id".toList] ["id".toList] (withChild "id".toList) = .ok db' ∧
    dropForeignKeyIn rootDrops tableC "FGN_000".toList db' = .ok () db'' ∧ db'' tableP = withChild "id".toList tableP := by
  obtain ⟨p, hp, hcount⟩ := withChild_tableP "id".toList
  obtain ⟨db', h⟩ := @addForeignKey_withChild "id".toList (by decide +kernel)
  have hdrop := (foreignKey_drop_iff rootDrops _ tableC).1 _ tableP _ p _ _ (by decide) (Schemas.set_self ..) hp h
  obtain ⟨db'', hok, -, hparent⟩ := hdrop.mpr
    { names := .refl _
      fresh := fun name hm => by
        rw [List.mem_singleton.mp hm]
        exact hcount
      mayAlter := by decide +kernel
      saved := ⟨rfl, rfl, rfl⟩ }
  exact ⟨db', db'', h, hok, hparent.trans hp.symm⟩

/-- A key of the column `x` is not: there is no column `x` in the other table. -/
theorem foreignKey_not_dropped :
    ¬ ((∀ (w : DropSession) (db db' : Schemas) (child parent : Name) (sch p : Schema) (cols fgns : List Text), child ≠ parent →
      db child = some sch → db parent = some p → addForeignKey child parent cols fgns db = .ok db' →
      ∃ db'', dropForeignKeyIn w child (makeName FGN_ (sch.foreign.map Foreign.name)) db' = .ok () db'' ∧
        db'' child = some sch ∧ db'' parent = some p) ∧
    ∀ (w : DropSession) (db : Schemas) (child : Name) (fgnName : Text) (e : Thrown) (db' : Schemas),
      dropForeignKeyIn w child fgnName db = .error e db' → db' = db) := by
  rintro ⟨h, -⟩
  obtain ⟨p, hp, -⟩ := withChild_tableP "x".toList
  obtain ⟨db', hadd⟩ := @addForeignKey_withChild "x".toList (by decide +kernel)
  have hs : withChild "x".toList tableC = some ((oneColumn "x".toList).toSchema tableC) := Schemas.set_self ..
  have hdrop := h rootDrops _ _ tableC tableP _ p _ _ (by decide) hs hp hadd
  have hnames := ((addForeignKey_drop_iff (by decide) hs hp hadd).mp hdrop).names
  exact absurd hnames (by decide)

end RedB.Ddl
