import RedB.Dml.Populate

/-!
# UPDATE, row by row

The loop of UPDATE takes the selected rows out one after the other and puts a row back for
each of them, behind all others. It ends at the first row for which an expression has no
value, and this row is still there; or at the first row for which a column does not take its
value, and this row is gone (`updateKeys_spec`).
-/

namespace RedB.Dml

open Runs

variable (A : Arith)

/-! ### Other counters -/

namespace Table

/-- The table with other counters. -/
def withColumns (t : Table) (c : List Column) : Table := { t with columns := c }

variable {t : Table} {c : List Column}

@[simp] theorem withColumns_rows : (t.withColumns c).rows = t.rows := rfl

@[simp] theorem withColumns_columns : (t.withColumns c).columns = c := rfl

theorem key_withColumns (h : Counted c t.columns) (ndx : Index) (r : Row) : (t.withColumns c).key ndx r = t.key ndx r :=
  h.makeKey ndx.colNameList r

theorem Wf.withColumns (hw : t.Wf) (h : Counted c t.columns) : (t.withColumns c).Wf where
  columns := by
    rw [withColumns_columns, h.names]
    exact hw.columns
  primary := hw.primary
  names := hw.names
  places := hw.places
  fresh := hw.fresh
  elements ndx hm := by
    simp only [key_withColumns h]
    exact hw.elements ndx hm

end Table

/-! ### Rows put back -/

/-- Why the loop ends. -/
inductive Stop where
  /-- There are no more rows. -/
  | done
  /-- An expression has no value. -/
  | expression
  /-- A column does not take its value. -/
  | refused
deriving DecidableEq, Repr

/-- The rows that are put back, and why the loop ends. -/
def putBacks (view : Row → View) (rights : List (Text × Cond)) : List Column → List Row → List Row × Stop
  | _, [] => ([], .done)
  | cols, org :: orgs =>
      match giveAll A (view org) rights with
      | none => ([], .expression)
      | some values =>
          match putBack A cols values org with
          | none => ([], .refused)
          | some upd => ((upd :: (putBacks view rights (cols.map Column.next) orgs).1), (putBacks view rights (cols.map Column.next) orgs).2)

/-- The rows that have been taken out. -/
def taken (sel : List (ℕ × Row)) (r : List Row × Stop) : List (ℕ × Row) :=
  sel.take (if r.2 = .refused then r.1.length + 1 else r.1.length)

/-- New rows with their places. -/
def newRows : ℕ → List Row → List (ℕ × Row)
  | _, [] => []
  | n, r :: rs => (n, r) :: newRows (n + 1) rs

/-- How the statement ends. -/
def Stop.Ends : Stop → EStateM.Result Err Table Unit → Prop
  | .done, r => ∃ t, r = .ok () t
  | .expression, r => ∃ t, r = .error .condition t
  | .refused, r => ∃ e t, r = .error e t

/-- The selected rows, nothing if the condition has no value for some row. -/
def selects (t : Table) : Option Cond → List (ℕ × Row) → Option (List (ℕ × Row))
  | none, _ => some []
  | some _, [] => some []
  | some cond, p :: ps => do
      let res ← cond.eval A (t.view p.2)
      let sel ← selects t (some cond) ps
      some (if res = boolText true then p :: sel else sel)

variable {A}

theorem newRows_map (n : ℕ) (rs : List Row) : (newRows n rs).map Prod.snd = rs := by
  induction rs generalizing n with
  | nil => rfl
  | cons r rs ih => rw [newRows, List.map_cons, ih]

theorem selects_sublist {t : Table} {cond : Option Cond} {ps sel : List (ℕ × Row)} (h : selects A t cond ps = some sel) :
    sel.Sublist ps := by
  cases cond with
  | none =>
    rw [selects] at h
    obtain rfl := Option.some.inj h
    exact List.nil_sublist ps
  | some cond =>
    induction ps generalizing sel with
    | nil =>
      obtain rfl := Option.some.inj h
      exact List.Sublist.refl []
    | cons p ps ih =>
      obtain ⟨res, -, h⟩ := Option.bind_eq_some_iff.mp h
      obtain ⟨sel', hs, h⟩ := Option.bind_eq_some_iff.mp h
      obtain rfl := Option.some.inj h
      split
      · exact (ih hs).cons_cons p
      · exact (ih hs).cons p

/-- The condition does not depend on the rows before. -/
theorem selectKeys_same {t : Table} {cond cond' : Cond} (ps : List (ℕ × Row)) (hs : cond.Same cond') (ho : cond.On t.name)
    (ho' : cond'.On t.name) :
    selectKeys A t (some cond') ps = (selects A t (some cond) ps).map fun sel => sel.map fun p => t.primaryKey p.2 := by
  induction ps generalizing cond' with
  | nil => rfl
  | cons p ps ih =>
    have hset : setColumnValue A (t.view p.2) cond' = setColumnValue A (t.view p.2) cond := setColumnValue_same hs ho ho'
    rw [selectKeys, selects, Cond.eval, hset]
    cases hc : setColumnValue A (t.view p.2) cond with
    | none => rfl
    | some cond'' =>
      simp only [Option.bind_eq_bind, Option.bind_some]
      cases execCondition A cond'' with
      | none => rfl
      | some res =>
        rw [Option.bind_some, Option.bind_some, ih (same_setColumnValue hc) (on_setColumnValue hc ho)]
        cases selects A t (some cond) ps with
        | none => rfl
        | some sel =>
          simp only [Option.map_some, Option.bind_some]
          split <;> rfl

theorem selectKeys_eq {t : Table} {cond : Option Cond} (ps : List (ℕ × Row)) (ho : ∀ c ∈ cond, c.On t.name) :
    selectKeys A t cond ps = (selects A t cond ps).map fun sel => sel.map fun p => t.primaryKey p.2 := by
  cases cond with
  | none => rw [selectKeys, selects, Option.map_some, List.map_nil]
  | some cond => exact selectKeys_same ps (.refl cond) (ho cond rfl) (ho cond rfl)

/-! ### The loop -/

/-- Each of these rows is the one that is found under its primary key. -/
structure Findable (t : Table) (sel : List (ℕ × Row)) : Prop where
  places : (sel.map Prod.fst).Nodup
  find : ∀ p ∈ sel, t.find PK_NDX (t.primaryKey p.2) = some p

/-- Tables with the same schema but for the counters. -/
structure Alike (t t' : Table) : Prop where
  name : t'.name = t.name
  counted : Counted t'.columns t.columns
  foreignList : t'.foreignList = t.foreignList
  indexList : t'.indexList.map (fun ndx => { ndx with elements := [] }) = t.indexList.map fun ndx => { ndx with elements := [] }

theorem Alike.refl (t : Table) : Alike t t := ⟨rfl, rfl, rfl, rfl⟩

theorem Alike.trans {t t' t'' : Table} (h : Alike t t') (h' : Alike t' t'') : Alike t t'' :=
  ⟨h'.name.trans h.name, h'.counted.trans h.counted, h'.foreignList.trans h.foreignList, h'.indexList.trans h.indexList⟩

theorem alike_withColumns {t : Table} {c : List Column} (h : Counted c t.columns) : Alike t (t.withColumns c) := ⟨rfl, h, rfl, rfl⟩

theorem alike_insert (t : Table) (r : Row) : Alike t (t.insert r) := by
  refine ⟨rfl, rfl, rfl, ?_⟩
  rw [Table.insert, List.map_map]
  rfl

theorem alike_removeAt (t : Table) (place : ℕ) : Alike t (t.removeAt place) := by
  refine ⟨rfl, rfl, rfl, ?_⟩
  rw [Table.removeAt, List.map_map]
  rfl

theorem Alike.primaryKey {t t' : Table} (h : Alike t t') (r : Row) : t'.primaryKey r = t.primaryKey r := by
  have hkey : ∀ t : Table, t.primaryKey r =
      (((t.indexList.map fun ndx => { ndx with elements := [] }).find? fun ndx => ndx.name = PK_NDX).map fun ndx =>
        makeKey t.columns ndx.colNameList r).getD [] := by
    intro t
    rw [Table.primaryKey, Table.getIndex, List.find?_map, Option.map_map]
    rfl
  rw [hkey, hkey, h.indexList]
  congr 2
  funext ndx
  exact h.counted.makeKey _ _

/-- The indexes are the same but for their elements. -/
theorem Alike.index {t t' : Table} (h : Alike t t') {ndx : Index} (hm : ndx ∈ t'.indexList) :
    ∃ ndx' ∈ t.indexList, ndx.name = ndx'.name ∧ ndx.isUnique = ndx'.isUnique ∧ ∀ r, t'.key ndx r = t.key ndx' r := by
  have hindex := List.mem_map_of_mem (f := fun ndx : Index => { ndx with elements := [] }) hm
  rw [h.indexList] at hindex
  obtain ⟨ndx', hm', he⟩ := List.mem_map.mp hindex
  obtain ⟨hname, huniq, hcols, -⟩ := Index.mk.inj he
  refine ⟨ndx', hm', hname.symm, huniq.symm, fun r => ?_⟩
  rw [Table.key, Table.key, h.counted.makeKey, hcols]

theorem Alike.view {t t' : Table} (h : Alike t t') : t'.view = t.view := by
  funext r
  rw [Table.view, Table.view, h.name]
  congr 1
  funext name
  rw [h.counted.columnPos]

/-- A row that is found is still found when others have been taken out and put behind it. -/
theorem find_rest {α : Type} {P keep : α → Bool} {l l' : List α} {a : α} (h : l.find? P = some a) (hk : keep a = true) :
    (l.filter keep ++ l').find? P = some a := by
  obtain ⟨hP, as, bs, rfl, hn⟩ := List.find?_eq_some_iff_append.mp h
  have hf : ((as ++ a :: bs).filter keep).find? P = some a := by
    rw [List.filter_append, List.filter_cons_of_pos hk, List.find?_append]
    rw [List.find?_eq_none.mpr fun x hx => by simpa using hn x (List.mem_filter.mp hx).1, Option.none_or, List.find?_cons_of_pos hP]
  rw [List.find?_append, hf, Option.some_or]

section Remove

variable {remove : Table → Row → Table} {rights : List (Text × Cond)} {Good : Table → List (ℕ × Row) → Prop}

/-- The table when a row has been taken out and one has been put back. -/
def replaced (remove : Table → Row → Table) (t : Table) (p : ℕ × Row) (upd : Row) : Table :=
  ((remove t p.2).withColumns (t.columns.map Column.next)).insert upd

/-- A row has been taken out of the pages; the indexes are open. -/
structure TakenOut (t : Table) (p : ℕ × Row) (t' : Table) : Prop where
  alike : Alike t t'
  columns : t'.columns = t.columns
  rows : t'.rows = t.rows.filter fun q => q.1 ≠ p.1
  next : t'.next = t.next

/-- What the loop of UPDATE relies on between the rows: `Good` holds of the table and of the rows that
are still to be updated. -/
structure Removes (A : Arith) (remove : Table → Row → Table) (rights : List (Text × Cond)) (Good : Table → List (ℕ × Row) → Prop) :
    Prop where
  columns : ∀ {t sel}, Good t sel → (t.columns.map Column.name).Nodup
  fresh : ∀ {t sel}, Good t sel → ∀ p ∈ sel, p.1 < t.next
  find : ∀ {t p sel}, Good t (p :: sel) → t.find PK_NDX (t.primaryKey p.2) = some p
  out : ∀ {t p sel}, Good t (p :: sel) → TakenOut t p (remove t p.2)
  back : ∀ {t p sel values upd}, Good t (p :: sel) → giveAll A (t.view p.2) rights = some values →
    putBack A t.columns values p.2 = some upd → Good (replaced remove t p upd) sel

/-- What holds where the loop has ended, and these rows have not been looked at. -/
def Reached (remove : Table → Row → Table) (Good : Table → List (ℕ × Row) → Prop) (rest : List (ℕ × Row)) (t' : Table) : Stop → Prop
  | .refused => ∃ t p sel c, Good t (p :: sel) ∧ Counted c t.columns ∧ t' = (remove t p.2).withColumns c
  | _ => Good t' rest

theorem alike_replaced {t : Table} {p : ℕ × Row} (h : TakenOut t p (remove t p.2)) (upd : Row) : Alike t (replaced remove t p upd) :=
  h.alike.trans ((alike_withColumns (h.columns ▸ counted_next t.columns)).trans (alike_insert _ upd))

theorem replaced_rows {t : Table} {p : ℕ × Row} (h : TakenOut t p (remove t p.2)) (upd : Row) :
    (replaced remove t p upd).rows = t.rows.filter (fun q => q.1 ≠ p.1) ++ [(t.next, upd)] := by
  rw [replaced, Table.insert_rows, Table.withColumns_rows, h.rows]
  show _ ++ [((remove t p.2).next, upd)] = _
  rw [h.next]

theorem replaced_next {t : Table} {p : ℕ × Row} (h : TakenOut t p (remove t p.2)) (upd : Row) :
    (replaced remove t p upd).next = t.next + 1 := congrArg Nat.succ h.next

theorem replaced_filter {t : Table} {p : ℕ × Row} {places : List ℕ} (h : TakenOut t p (remove t p.2)) (upd : Row) (hn : t.next ∉ places) :
    (replaced remove t p upd).rows.filter (fun q => q.1 ∉ places) =
      t.rows.filter (fun q => q.1 ∉ p.1 :: places) ++ [(t.next, upd)] := by
  rw [replaced_rows h, List.filter_append, List.filter_filter]
  congr 1
  · refine List.filter_congr fun q _ => ?_
    simp only [List.mem_cons, not_or, Bool.decide_and, Bool.and_comm, ne_eq]
  · exact List.filter_cons_of_pos (decide_eq_true hn)

theorem updateKeys_cons {t : Table} {key : Text} {p : ℕ × Row} (h : t.find PK_NDX key = some p) (keys : List Text)
    (as : List Assignment) :
    updateKeys A remove (key :: keys) as t =
      match execAssignments A (t.view p.2) as with
      | none => .error .condition t
      | some as =>
          (populate A p.2 0 t.columns as (Row.empty t.columns.length) >>= fun r =>
            modify (fun t => t.insert r.1) >>= fun _ => updateKeys A remove keys r.2) (remove t p.2) := by
  rw [updateKeys, get_bind, h]
  dsimp only
  cases execAssignments A (t.view p.2) as <;> rfl

theorem taken_cons (p : ℕ × Row) (sel : List (ℕ × Row)) (upd : Row) (us : List Row) (stop : Stop) :
    taken (p :: sel) (upd :: us, stop) = p :: taken sel (us, stop) := by
  rw [taken, taken]
  split <;> rfl

/-- The loop of UPDATE. -/
theorem updateKeys_spec {t : Table} {sel : List (ℕ × Row)} {as : List Assignment} (hremove : Removes A remove rights Good)
    (hg : Good t sel) (hh : List.Forall₂ (Held t.name) rights as) (ho : ∀ a ∈ rights, a.2.On t.name)
    (ha : ∀ col ∈ t.columns, ∀ a ∈ rights, a.1 = col.name → col.isAutoInc = false) :
    let r := putBacks A t.view rights t.columns (sel.map Prod.snd)
    let res := updateKeys A remove (sel.map fun p => t.primaryKey p.2) as t
    r.2.Ends res ∧ Reached remove Good (sel.drop r.1.length) (after res) r.2 ∧ Alike t (after res) ∧
      (after res).rows = t.rows.filter (fun q => q.1 ∉ (taken sel r).map Prod.fst) ++ newRows t.next r.1 := by
  induction sel generalizing t as with
  | nil =>
    refine ⟨⟨t, rfl⟩, hg, Alike.refl t, ?_⟩
    show t.rows = _
    simp [taken, putBacks, newRows]
  | cons p sel ih =>
    rw [List.map_cons, List.map_cons, updateKeys_cons (hremove.find hg), putBacks]
    have hout := hremove.out hg
    cases hgive : giveAll A (t.view p.2) rights with
    | none =>
      rw [execAssignments_none hh ho hgive]
      refine ⟨⟨t, rfl⟩, hg, Alike.refl t, ?_⟩
      show t.rows = _
      simp [taken, newRows]
    | some vs =>
      obtain ⟨as1, hex, hheld, rfl⟩ := execAssignments_some hh ho hgive
      rw [hex]
      dsimp only
      have hn := hremove.columns hg
      rw [← hout.columns] at hn
      cases hp : putBack A t.columns (values as1) p.2 with
      | none =>
        obtain ⟨e, c, hpop, hc⟩ := populate_not_putBack hn (hout.columns.symm ▸ hp)
        rw [hout.columns] at hpop hc
        rw [bind_throw hpop]
        refine ⟨⟨e, _, rfl⟩, ⟨t, p, sel, c, hg, hc, rfl⟩, hout.alike.trans (alike_withColumns (hout.columns.symm ▸ hc)), ?_⟩
        show (remove t p.2).rows = _
        rw [hout.rows]
        simp [taken, newRows]
      | some upd =>
        obtain ⟨as2, hpop, hheld2⟩ := populate_putBack hn hheld (hout.columns.symm ▸ ha) (hout.columns.symm ▸ hp)
        rw [hout.columns] at hpop
        rw [bind_run hpop, modify_bind]
        have halike := alike_replaced hout upd
        have hgood := hremove.back hg hgive hp
        have hcols : (replaced remove t p upd).columns = t.columns.map Column.next := rfl
        have hnext : ∀ col ∈ (replaced remove t p upd).columns, ∀ a ∈ rights, a.1 = col.name → col.isAutoInc = false := by
          intro col hcol a har hac
          obtain ⟨col', hcol', rfl⟩ := List.mem_map.mp hcol
          rw [Column.next_isAutoInc]
          exact ha col' hcol' a har (hac.trans col'.next_name)
        have hkeys : (sel.map fun q => (replaced remove t p upd).primaryKey q.2) = sel.map fun q => t.primaryKey q.2 := by
          simp only [halike.primaryKey]
        have hrest := ih hgood (show List.Forall₂ (Held (replaced remove t p upd).name) rights as2 by rw [halike.name]; exact hheld2)
          (show ∀ a ∈ rights, a.2.On (replaced remove t p upd).name by rwa [halike.name]) hnext
        rw [halike.view, hkeys, replaced_next hout] at hrest
        obtain ⟨h1, h2, h3, h4⟩ := hrest
        refine ⟨h1, h2, halike.trans h3, h4.trans ?_⟩
        have hfresh : t.next ∉ (taken sel (putBacks A t.view rights (replaced remove t p upd).columns (sel.map Prod.snd))).map Prod.fst := by
          intro hm
          obtain ⟨q, hq, hqn⟩ := List.mem_map.mp hm
          exact absurd hqn (hremove.fresh hg q (List.mem_cons_of_mem _ (List.mem_of_mem_take hq))).ne
        rw [replaced_filter hout upd hfresh, List.append_assoc]
        exact congrArg (fun l => t.rows.filter (fun q => q.1 ∉ l.map Prod.fst) ++ _) (taken_cons p sel upd _ _).symm

end Remove

/-! ### Rows that are taken out as it is meant -/

theorem Table.Wf.takenOut {t : Table} (hw : t.Wf) {p : ℕ × Row} (hf : t.find PK_NDX (t.primaryKey p.2) = some p) :
    TakenOut t p (t.remove p.2) := by
  rw [hw.remove_found hf]
  exact ⟨alike_removeAt t p.1, rfl, rfl, rfl⟩

/-- A well-formed table stays well-formed, and the other rows are found as before. -/
theorem removes_row (A : Arith) (rights : List (Text × Cond)) : Removes A Table.remove rights fun t sel => t.Wf ∧ Findable t sel where
  columns h := h.1.columns
  fresh h p hp := h.1.fresh p (h.1.find_mem (h.2.find p hp)).1
  find h := h.2.find _ List.mem_cons_self
  out h := h.1.takenOut (h.2.find _ List.mem_cons_self)
  back {t p sel values upd} h _ _ := by
    obtain ⟨hw, hfind⟩ := h
    have hout := hw.takenOut (hfind.find _ List.mem_cons_self)
    have hwf : (replaced Table.remove t p upd).Wf := ((hw.remove p.2).withColumns (hout.columns.symm ▸ counted_next _)).insert upd
    have hn := List.nodup_cons.mp hfind.places
    refine ⟨hwf, hn.2, fun q hq => ?_⟩
    have hf := hfind.find q (List.mem_cons_of_mem _ hq)
    rw [hw.find_primary] at hf
    rw [hwf.find_primary, replaced_rows hout]
    simp only [(alike_replaced hout upd).primaryKey]
    refine find_rest hf (decide_eq_true fun he => hn.1 ?_)
    rw [← he]
    exact List.mem_map_of_mem hq

theorem wf_of_reached {rest : List (ℕ × Row)} {t' : Table} {stop : Stop}
    (h : Reached Table.remove (fun t sel => t.Wf ∧ Findable t sel) rest t' stop) : t'.Wf := by
  cases stop with
  | refused =>
    obtain ⟨t, p, sel, c, ⟨hw, hfind⟩, hc, rfl⟩ := h
    exact (hw.remove p.2).withColumns ((hw.takenOut (hfind.find _ List.mem_cons_self)).columns.symm ▸ hc)
  | done => exact h.1
  | expression => exact h.1

end RedB.Dml
