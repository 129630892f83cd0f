import RedB.Dml.Update
import Mathlib.Logic.Function.Iterate
import Mathlib.Data.List.Perm.Basic

/-!
# What UPDATE means and what it does

UPDATE is meant to give the selected rows the values of the expressions in the assigned
columns and to leave everything else as it is. It does so exactly if the values that it hands to
the columns come out as the wanted ones (`update_updated_iff`).
-/

namespace RedB.Dml

open Runs

variable (A : Arith)

/-! ### What is meant -/

/-- The values that a row should have from column `i` on, nothing if an expression has no value
or a value is not accepted. -/
def wantedFrom (view : View) (rights : List (Text × Cond)) (org : Row) : ℕ → List Column → Option (List Text)
  | _, [] => some []
  | i, col :: cols => do
      let text ←
        match rights.find? fun a => a.1 = col.name with
        | some a => (a.2.eval A view).bind (col.take A)
        | none => some (org.valueAt i)
      let texts ← wantedFrom view rights org (i + 1) cols
      some (text :: texts)

/-- The values that a row should have behind the statement. -/
def wanted (t : Table) (rights : List (Text × Cond)) (org : Row) : Option (List Text) :=
  wantedFrom A (t.view org) rights org 0 t.columns

/-- The selected rows have been put behind the others, with the values that they should have. -/
def Updated (t : Table) (rights : List (Text × Cond)) (sel : List (ℕ × Row)) (r : EStateM.Result Err Table Unit) : Prop :=
  ∃ t' rs, r = .ok () t' ∧
    t'.rows.map Prod.snd = (t.rows.filter fun q => q.1 ∉ sel.map Prod.fst).map Prod.snd ++ rs ∧
    List.Forall₂ (fun p upd => wanted A t rights p.2 = some upd.values) sel rs

/-- The columns when `k` rows have been put back. -/
def columnsAt (t : Table) (k : ℕ) : List Column := (List.map Column.next)^[k] t.columns

/-- The row that is put back for a row, if `k` rows have been put back before. -/
def IsUpdate (t : Table) (rights : List (Text × Cond)) (k : ℕ) (org upd : Row) : Prop :=
  ∃ values, giveAll A (t.view org) rights = some values ∧ putBack A (columnsAt t k) values org = some upd

/-- The values that are handed to the columns come out as the wanted ones: each column takes
its value, the row has room for what the columns make of them, and what is read back from the
row is what is wanted. -/
def ComesOut (t : Table) (rights : List (Text × Cond)) (k : ℕ) (org : Row) : Prop :=
  ∃ values texts, giveAll A (t.view org) rights = some values ∧
    storeAll A (columnsAt t k) (handed values org 0 (columnsAt t k)) = some texts ∧
    texts.flatten.length ≤ capacity (columnsAt t k) ∧ wanted A t rights org = some (Row.ofTexts texts).values

/-! ### The statement -/

variable {A}

/-- Rows of distinct primary keys are found under them. -/
theorem findable_sublist {t : Table} {sel : List (ℕ × Row)} (hw : t.Wf) (hk : (t.rows.map fun p => t.primaryKey p.2).Nodup)
    (hs : sel.Sublist t.rows) : Findable t sel := by
  refine ⟨(hs.map Prod.fst).nodup hw.places, fun p hp => ?_⟩
  rw [hw.find_primary]
  cases hf : t.rows.find? fun q => t.primaryKey q.2 = t.primaryKey p.2 with
  | none =>
    have := List.find?_eq_none.mp hf p (hs.subset hp)
    simp at this
  | some q =>
    have hq : t.primaryKey q.2 = t.primaryKey p.2 := by simpa using List.find?_some hf
    rw [List.inj_on_of_nodup_map hk (List.mem_of_find?_eq_some hf) (hs.subset hp) hq]

/-- No assigned column is an auto-increment column. -/
theorem assignable_notAuto {columns : List Column} {rights : List (Text × Cond)} (hn : (columns.map Column.name).Nodup)
    (h : ∀ a ∈ rights, assignable columns a.1 = true) :
    ∀ col ∈ columns, ∀ a ∈ rights, a.1 = col.name → col.isAutoInc = false := by
  intro col hcol a ha hac
  have hf := h a ha
  rw [assignable] at hf
  cases hcf : columns.find? fun col => col.name = a.1 with
  | none =>
    have := List.find?_eq_none.mp hcf col hcol
    rw [hac] at this
    simp at this
  | some col' =>
    have hname : col'.name = a.1 := by simpa using List.find?_some hcf
    obtain rfl := List.inj_on_of_nodup_map hn (List.mem_of_find?_eq_some hcf) hcol (hname.trans hac)
    rw [hcf, Option.any_some, Bool.and_eq_true, Bool.not_eq_true'] at hf
    exact hf.1

section Remove

variable {remove : Table → Row → Table} {Good : Table → List (ℕ × Row) → Prop} {t : Table} {cond : Option Cond}
  {rights : List (Text × Cond)} {sel : List (ℕ × Row)}

/-- UPDATE of the rows for which the condition is true. -/
theorem update_run (hremove : Removes A remove rights Good) (hg : Good t sel) (hc : ∀ c ∈ cond, c.On t.name)
    (ho : ∀ a ∈ rights, a.2.On t.name) (hs : selects A t cond t.rows = some sel) (ha : ∀ a ∈ rights, assignable t.columns a.1 = true) :
    let r := putBacks A t.view rights t.columns (sel.map Prod.snd)
    let res := update A remove cond rights t
    r.2.Ends res ∧ Reached remove Good (sel.drop r.1.length) (after res) r.2 ∧ Alike t (after res) ∧
      (after res).rows = t.rows.filter (fun q => q.1 ∉ (taken sel r).map Prod.fst) ++ newRows t.next r.1 := by
  have hrun : update A remove cond rights t = updateKeys A remove (sel.map fun p => t.primaryKey p.2)
      (rights.map fun a => { colName := a.1, value := [], right := a.2 }) t := by
    rw [update, get_bind, if_pos (List.all_eq_true.mpr ha), selectKeys_eq t.rows hc, hs]
    rfl
  rw [hrun]
  refine updateKeys_spec hremove hg ?_ ho (assignable_notAuto (hremove.columns hg) ha)
  rw [List.forall₂_map_right_iff, List.forall₂_same]
  exact fun a har => ⟨rfl, .refl a.2, ho a har, fun _ => rfl⟩

/-- A statement on columns that cannot be assigned. -/
theorem update_not_assignable (ha : ¬∀ a ∈ rights, assignable t.columns a.1 = true) :
    update A remove cond rights t = .error .update t := by
  rw [update, get_bind, if_neg fun h => ha (List.all_eq_true.mp h)]
  rfl

end Remove

/-- UPDATE of the rows for which the condition is true, if the tree does what it is for. -/
theorem update_spec {t : Table} {cond : Option Cond} {rights : List (Text × Cond)} {sel : List (ℕ × Row)} (hw : t.Wf)
    (hk : (t.rows.map fun p => t.primaryKey p.2).Nodup) (hc : ∀ c ∈ cond, c.On t.name) (ho : ∀ a ∈ rights, a.2.On t.name)
    (hs : selects A t cond t.rows = some sel) (ha : ∀ a ∈ rights, assignable t.columns a.1 = true) :
    let r := putBacks A t.view rights t.columns (sel.map Prod.snd)
    let res := update A Table.remove cond rights t
    r.2.Ends res ∧ (after res).Wf ∧ Alike t (after res) ∧
      (after res).rows = t.rows.filter (fun q => q.1 ∉ (taken sel r).map Prod.fst) ++ newRows t.next r.1 := by
  obtain ⟨hends, hreached, halike, hrows⟩ :=
    update_run (removes_row A rights) ⟨hw, findable_sublist hw hk (selects_sublist hs)⟩ hc ho hs ha
  exact ⟨hends, wf_of_reached hreached, halike, hrows⟩

/-! ### Where the loop ends -/

section PutBacks

variable {view : Row → View} {rights : List (Text × Cond)}

/-- The rows that are put back. -/
theorem putBacks_getElem {cols : List Column} {orgs : List Row} {k : ℕ} {upd : Row}
    (h : (putBacks A view rights cols orgs).1[k]? = some upd) :
    ∃ org values, orgs[k]? = some org ∧ giveAll A (view org) rights = some values ∧
      putBack A ((List.map Column.next)^[k] cols) values org = some upd := by
  induction orgs generalizing cols k with
  | nil => cases h
  | cons org orgs ih =>
    rw [putBacks] at h
    cases hg : giveAll A (view org) rights with
    | none => simp [hg] at h
    | some values =>
      cases hp : putBack A cols values org with
      | none => simp [hg, hp] at h
      | some upd' =>
        simp only [hg, hp] at h
        cases k with
        | zero => exact ⟨org, values, rfl, hg, hp.trans h⟩
        | succ k => exact ih h

/-- Why no more rows are put back. -/
def Stop.Because (view : Row → View) (rights : List (Text × Cond)) (cols : List Column) (orgs : List Row) (n : ℕ) : Stop → Prop
  | .done => n = orgs.length
  | .expression => ∃ org, orgs[n]? = some org ∧ giveAll A (view org) rights = none
  | .refused => ∃ org values, orgs[n]? = some org ∧ giveAll A (view org) rights = some values ∧
      putBack A ((List.map Column.next)^[n] cols) values org = none

theorem putBacks_because (cols : List Column) (orgs : List Row) :
    (putBacks A view rights cols orgs).2.Because (A := A) view rights cols orgs (putBacks A view rights cols orgs).1.length := by
  induction orgs generalizing cols with
  | nil => rfl
  | cons org orgs ih =>
    rw [putBacks]
    cases hg : giveAll A (view org) rights with
    | none => exact ⟨org, rfl, hg⟩
    | some values =>
      dsimp only
      cases hp : putBack A cols values org with
      | none => exact ⟨org, values, rfl, hg, hp⟩
      | some upd =>
        have hrest := ih (cols.map Column.next)
        dsimp only
        cases hr : (putBacks A view rights (cols.map Column.next) orgs).2 with
        | done =>
          rw [hr] at hrest
          exact congrArg Nat.succ hrest
        | expression =>
          rw [hr] at hrest
          exact hrest
        | refused =>
          rw [hr] at hrest
          exact hrest

/-- Each row before the end is put back. -/
theorem putBacks_before {cols : List Column} {orgs : List Row} {k : ℕ} (h : k < (putBacks A view rights cols orgs).1.length) :
    ∃ org values upd, orgs[k]? = some org ∧ giveAll A (view org) rights = some values ∧
      putBack A ((List.map Column.next)^[k] cols) values org = some upd ∧ (putBacks A view rights cols orgs).1[k]? = some upd := by
  obtain ⟨org, values, ho, hg, hp⟩ := putBacks_getElem (List.getElem?_eq_getElem h)
  exact ⟨org, values, _, ho, hg, hp, List.getElem?_eq_getElem h⟩

end PutBacks

/-! ### A table of one row -/

/-- A column of texts. -/
def textColumn (name : String) (size : ℕ) : Column :=
  { name := name.toList, type := .varchar, size := size, prec := 0, enumList := [], isAutoInc := false, isNotNull := false,
    isPrimary := false, isUnique := false, autoInc := 0 }

/-- A table of `id`, `a` and `b` with one row. -/
def oneRow : Table :=
  { name := ("d".toList, "t".toList)
    columns := [{ textColumn "id" 2 with isPrimary := true }, textColumn "a" 3, textColumn "b" 3]
    indexList := [{ name := PK_NDX, isUnique := true, colNameList := ["id".toList], elements := [("1 ".toList, 0)] }]
    foreignList := []
    rows := [(0, Row.ofTexts ["1".toList, "x".toList, "y".toList])]
    next := 1 }

/-- `WHERE id = '1'` -/
def whereId : Option Cond :=
  some (.op (.cmp .eq) (.column oneRow.name "id".toList .varchar false []) (.value .varchar "1".toList))

/-- `SET a = b` -/
def setColumn : List (Text × Cond) := [("a".toList, .column oneRow.name "b".toList .varchar false [])]

/-- `SET a = 'z'` -/
def setText : List (Text × Cond) := [("a".toList, .value .varchar "z".toList)]

theorem oneRow_wf : oneRow.Wf := ⟨⟨by decide, by decide, by decide, by decide, by decide⟩, ⟨_, rfl, rfl⟩⟩

theorem whereId_on : ∀ c ∈ whereId, c.On oneRow.name := by
  rintro c ⟨⟩
  exact ⟨⟨rfl, nofun⟩, trivial⟩

theorem setText_on : ∀ a ∈ setText, a.2.On oneRow.name := by
  intro a ha
  obtain rfl := List.mem_singleton.mp ha
  trivial

/-! ### UPDATE does what it means -/

theorem isUpdate_of_comesOut {t : Table} {rights : List (Text × Cond)} {k : ℕ} {org : Row} (h : ComesOut A t rights k org) :
    ∃ upd, IsUpdate A t rights k org upd ∧ wanted A t rights org = some upd.values := by
  obtain ⟨values, texts, hg, hs, hf, hw⟩ := h
  refine ⟨Row.ofTexts texts, ⟨values, hg, ?_⟩, hw⟩
  simp only [putBack, makeRow, hs, Option.bind_eq_bind, Option.bind_some, if_pos hf]

theorem comesOut_of_isUpdate {t : Table} {rights : List (Text × Cond)} {k : ℕ} {org upd : Row} (h : IsUpdate A t rights k org upd)
    (hw : wanted A t rights org = some upd.values) : ComesOut A t rights k org := by
  obtain ⟨values, hg, hp⟩ := h
  obtain ⟨texts, hs, hp⟩ := Option.bind_eq_some_iff.mp hp
  split at hp
  · rename_i hf
    obtain rfl := Option.some.inj hp
    exact ⟨values, texts, hg, hs, hf, hw⟩
  · cases hp

theorem taken_sublist (sel : List (ℕ × Row)) (r : List Row × Stop) : (taken sel r).Sublist sel := List.take_sublist _ _

theorem taken_done {sel : List (ℕ × Row)} {r : List Row × Stop} (hd : r.2 = .done) (hl : r.1.length = sel.length) :
    taken sel r = sel := by
  rw [taken, hd, if_neg (by decide), hl, List.take_length]

/-- UPDATE gives the selected rows the values that they should have and leaves all others as
they are, exactly if all columns can be assigned and all values come out. -/
theorem update_updated_iff {t : Table} {cond : Option Cond} {rights : List (Text × Cond)} {sel : List (ℕ × Row)} (hw : t.Wf)
    (hk : (t.rows.map fun p => t.primaryKey p.2).Nodup) (hc : ∀ c ∈ cond, c.On t.name) (ho : ∀ a ∈ rights, a.2.On t.name)
    (hs : selects A t cond t.rows = some sel) :
    Updated A t rights sel (update A Table.remove cond rights t) ↔
      (∀ a ∈ rights, assignable t.columns a.1 = true) ∧ ∀ k p, sel[k]? = some p → ComesOut A t rights k p.2 := by
  constructor
  · rintro ⟨t', rs, hr, hrows, hall⟩
    have ha : ∀ a ∈ rights, assignable t.columns a.1 = true := by
      by_contra ha
      rw [update_not_assignable ha] at hr
      cases hr
    refine ⟨ha, fun k p hp => ?_⟩
    obtain ⟨hends, -, -, hrows'⟩ := update_spec hw hk hc ho hs ha
    rw [hr] at hends hrows'
    have hdone : (putBacks A t.view rights t.columns (sel.map Prod.snd)).2 = .done := by
      cases hstop : (putBacks A t.view rights t.columns (sel.map Prod.snd)).2 with
      | done => rfl
      | expression =>
        rw [hstop] at hends
        obtain ⟨_, he⟩ := hends
        cases he
      | refused =>
        rw [hstop] at hends
        obtain ⟨_, _, he⟩ := hends
        cases he
    have hlen := @putBacks_because A t.view rights t.columns (sel.map Prod.snd)
    rw [hdone] at hlen
    have hlen' : (putBacks A t.view rights t.columns (sel.map Prod.snd)).1.length = sel.length := hlen.trans (List.length_map ..)
    rw [taken_done hdone hlen', after_ok] at hrows'
    rw [hrows', List.map_append, newRows_map] at hrows
    have hrs := List.append_cancel_left hrows
    have hlt : k < sel.length := (List.getElem?_eq_some_iff.mp hp).1
    obtain ⟨org, values, upd, horg, hg, hpb, hu⟩ := @putBacks_before A t.view rights t.columns (sel.map Prod.snd) k (by omega)
    rw [List.getElem?_map, hp] at horg
    obtain rfl := Option.some.inj horg
    rw [hrs] at hu
    obtain ⟨hku, hupd⟩ := List.getElem?_eq_some_iff.mp hu
    have hwanted := (List.forall₂_iff_get.mp hall).2 k hlt hku
    rw [List.get_eq_getElem, List.get_eq_getElem, hupd, (List.getElem?_eq_some_iff.mp hp).2] at hwanted
    exact comesOut_of_isUpdate ⟨values, hg, hpb⟩ hwanted
  · rintro ⟨ha, hcome⟩
    obtain ⟨hends, -, -, hrows⟩ := update_spec hw hk hc ho hs ha
    have hbecause := @putBacks_because A t.view rights t.columns (sel.map Prod.snd)
    have hupdate : ∀ k org, (sel.map Prod.snd)[k]? = some org →
        ∃ upd, IsUpdate A t rights k org upd ∧ wanted A t rights org = some upd.values := by
      intro k org horg
      obtain ⟨p, hp, rfl⟩ := Option.map_eq_some_iff.mp (List.getElem?_map .. ▸ horg)
      exact isUpdate_of_comesOut (hcome k p hp)
    have hdone : (putBacks A t.view rights t.columns (sel.map Prod.snd)).2 = .done := by
      cases hstop : (putBacks A t.view rights t.columns (sel.map Prod.snd)).2 with
      | done => rfl
      | expression =>
        rw [hstop] at hbecause
        obtain ⟨org, horg, hg⟩ := hbecause
        obtain ⟨_, ⟨values, hg', -⟩, -⟩ := hupdate _ org horg
        rw [hg] at hg'
        cases hg'
      | refused =>
        rw [hstop] at hbecause
        obtain ⟨org, values, horg, hg, hp⟩ := hbecause
        obtain ⟨upd, ⟨values', hg', hp'⟩, -⟩ := hupdate _ org horg
        obtain rfl := Option.some.inj (hg.symm.trans hg')
        have hnone := hp.symm.trans hp'
        cases hnone
    rw [hdone] at hbecause hends
    obtain ⟨t', hr⟩ := hends
    have hlen := hbecause.trans (List.length_map ..)
    rw [hr, taken_done hdone hlen, after_ok] at hrows
    refine ⟨t', _, hr, by rw [hrows, List.map_append, newRows_map], List.forall₂_iff_get.mpr ⟨hlen.symm, fun k hk1 hk2 => ?_⟩⟩
    obtain ⟨org, values, upd, horg, hg, hpb, hu⟩ := @putBacks_before A t.view rights t.columns (sel.map Prod.snd) k hk2
    obtain ⟨upd', ⟨values', hg', hpb'⟩, hwanted⟩ := hupdate k org horg
    obtain rfl := Option.some.inj (hg.symm.trans hg')
    obtain rfl : upd = upd' := Option.some.inj (hpb.symm.trans hpb')
    rw [List.getElem?_map, List.getElem?_eq_getElem hk1] at horg
    obtain rfl := Option.some.inj horg
    obtain ⟨_, hupd⟩ := List.getElem?_eq_some_iff.mp hu
    rw [List.get_eq_getElem, List.get_eq_getElem, hupd]
    exact hwanted

theorem update_updated_setText :
    Updated wholeNumbers oneRow setText oneRow.rows (update wholeNumbers Table.remove whereId setText oneRow) ↔
      (∀ a ∈ setText, assignable oneRow.columns a.1 = true) ∧
        ∀ k p, oneRow.rows[k]? = some p → ComesOut wholeNumbers oneRow setText k p.2 :=
  update_updated_iff oneRow_wf (by decide) whereId_on setText_on (by decide +kernel)

/-- `UPDATE t SET a = b WHERE id = '1'` makes `a` null. -/
theorem column_not_updated : ¬∀ sel, selects wholeNumbers oneRow whereId oneRow.rows = some sel →
    (∀ p ∈ sel, (wanted wholeNumbers oneRow setColumn p.2).isSome) →
      Updated wholeNumbers oneRow setColumn sel (update wholeNumbers Table.remove whereId setColumn oneRow) := by
  intro h
  obtain ⟨t', rs, hr, hrows, hall⟩ := h oneRow.rows (by decide +kernel) (by decide +kernel)
  have hafter : (after (update wholeNumbers Table.remove whereId setColumn oneRow)).rows.map Prod.snd =
      [Row.ofTexts ["1".toList, [], "y".toList]] := by decide +kernel
  rw [hr, after_ok, hrows] at hafter
  obtain rfl : rs = [Row.ofTexts ["1".toList, [], "y".toList]] := hafter
  obtain ⟨hwanted, -⟩ := List.forall₂_cons.mp hall
  revert hwanted
  decide +kernel

end RedB.Dml
