import RedB.Dml.UpdateMeaning

/-!
# A failing UPDATE

A failing UPDATE is meant to lose no row. The row is taken out of the pages and of all indexes before the
new one is made, and out of an index by its key there, whichever row the element with this key is of. So
no row is lost if no column refuses its value when the row has been taken out, and if the rows that are
taken out share their keys with no row that stays (`update_noLoss_iff`).
-/

namespace RedB.Dml

open Runs

variable (A : Arith)

/-! ### What is meant -/

/-- The selected rows before the `k`-th one can be put back. -/
def PutsBack (t : Table) (rights : List (Text × Cond)) (sel : List (ℕ × Row)) (k : ℕ) : Prop :=
  ∀ j < k, ∀ q, sel[j]? = some q → ∃ upd, IsUpdate A t rights j q.2 upd

/-- The rows before the `m`-th one are put back, and for this one an expression has no value. -/
def StopsBefore (t : Table) (rights : List (Text × Cond)) (sel : List (ℕ × Row)) (m : ℕ) : Prop :=
  PutsBack A t rights sel m ∧ ∃ p, sel[m]? = some p ∧ giveAll A (t.view p.2) rights = none

/-- No row is put back under the primary key of a row that is still to be updated. -/
def PrimaryApart (t : Table) (rights : List (Text × Cond)) (sel : List (ℕ × Row)) : Prop :=
  ∀ j k p q upd, j < k → PutsBack A t rights sel k → sel[j]? = some p → sel[k]? = some q → IsUpdate A t rights j p.2 upd →
    t.primaryKey upd ≠ t.primaryKey q.2

variable {A}

/-! ### Elements by keys -/

namespace Table

theorem chosen_mem {ndx : Index} {key : Text} {place : ℕ} {e : Text × ℕ} (h : chosen ndx key place = some e) :
    e ∈ ndx.elements ∧ e.1 = key := by
  rw [chosen, Option.or_eq_some_iff] at h
  rcases h with h | ⟨-, h⟩
  · obtain rfl : e = (key, place) := by simpa using List.find?_some h
    exact ⟨List.mem_of_find?_eq_some h, rfl⟩
  · exact ⟨List.mem_of_find?_eq_some h, by simpa using List.find?_some h⟩

/-- The element of the place is taken, if there is one. -/
theorem chosen_place {ndx : Index} {key : Text} {place : ℕ} (h : (key, place) ∈ ndx.elements) :
    chosen ndx key place = some (key, place) := by
  rw [chosen]
  cases hf : ndx.elements.find? fun e => decide (e = (key, place)) with
  | none => exact absurd (decide_eq_true rfl) (List.find?_eq_none.mp hf _ h)
  | some e =>
    obtain rfl : e = (key, place) := by simpa using List.find?_some hf
    rfl

/-- An element is taken, if there is one. -/
theorem chosen_isSome {ndx : Index} {key : Text} {e : Text × ℕ} (h : e ∈ ndx.elements) (hk : e.1 = key) (place : ℕ) :
    ∃ e', chosen ndx key place = some e' := by
  rw [← Option.isSome_iff_exists, chosen, Option.isSome_or, Bool.or_eq_true]
  exact .inr (List.find?_isSome.mpr ⟨e, h, decide_eq_true hk⟩)

/-- A row with a key of its own in an index is found under it. -/
theorem chosen_alone {t : Table} {ndx : Index} {p : ℕ × Row} (he : ndx.elements = t.rows.map fun p => (t.key ndx p.2, p.1))
    (hp : p ∈ t.rows) (hu : ∀ q ∈ t.rows, t.key ndx q.2 = t.key ndx p.2 → q = p) (place : ℕ) :
    chosen ndx (t.key ndx p.2) place = some (t.key ndx p.2, p.1) := by
  obtain ⟨e, hchosen⟩ := chosen_isSome (he ▸ List.mem_map.mpr ⟨p, hp, rfl⟩) rfl place
  obtain ⟨hm, hk⟩ := chosen_mem hchosen
  rw [he] at hm
  obtain ⟨q, hq, rfl⟩ := List.mem_map.mp hm
  obtain rfl := hu q hq hk
  exact hchosen

/-- Its element is the one of its place. -/
theorem filter_alone {t : Table} {ndx : Index} {p : ℕ × Row} (he : ndx.elements = t.rows.map fun p => (t.key ndx p.2, p.1))
    (hp : p ∈ t.rows) (hplaces : (t.rows.map Prod.fst).Nodup) :
    (ndx.elements.filter fun e => some e ≠ some (t.key ndx p.2, p.1)) = ndx.elements.filter fun e => e.2 ≠ p.1 := by
  refine List.filter_congr fun e hm => decide_eq_decide.mpr (not_congr ?_)
  rw [he] at hm
  obtain ⟨q, hq, rfl⟩ := List.mem_map.mp hm
  rw [Option.some.injEq]
  constructor
  · exact fun h => congrArg Prod.snd h
  · intro h
    obtain rfl := List.inj_on_of_nodup_map hplaces hq hp h
    rfl

/-- A removal by keys is what a removal is for, if no other row has a key of the row. -/
theorem Wf.removeKeys_eq {t : Table} (hw : t.Wf) {p : ℕ × Row} (hp : p ∈ t.rows)
    (hu : ∀ ndx ∈ t.indexList, ∀ q ∈ t.rows, t.key ndx q.2 = t.key ndx p.2 → q = p) (pick : Table → Index → Text → ℕ) :
    t.removeKeys pick p.2 = t.removeAt p.1 := by
  have hchosen : ∀ ndx ∈ t.indexList, chosen ndx (t.key ndx p.2) (pick t ndx (t.key ndx p.2)) = some (t.key ndx p.2, p.1) :=
    fun ndx hm => chosen_alone (hw.elements ndx hm) hp (hu ndx hm) _
  obtain ⟨ndx, hi, -⟩ := hw.primary
  obtain ⟨first, rest, hlist⟩ := List.exists_cons_of_ne_nil (List.ne_nil_of_mem (getIndex_mem hi))
  have hfirst := hchosen first (hlist ▸ List.mem_cons_self)
  have hindex : (t.indexList.map fun ndx => { ndx with
      elements := ndx.elements.filter fun e => some e ≠ chosen ndx (t.key ndx p.2) (pick t ndx (t.key ndx p.2)) }) =
        t.indexList.map fun ndx => { ndx with elements := ndx.elements.filter fun e => e.2 ≠ p.1 } :=
    List.map_congr_left fun ndx hm => by rw [hchosen ndx hm, filter_alone (hw.elements ndx hm) hp hw.places]
  have hrows : (t.removeKeys pick p.2).rows = t.rows.filter fun q => q.1 ≠ p.1 := by
    simp only [Table.removeKeys, hlist, List.findSome?_cons, hfirst]
  calc t.removeKeys pick p.2
      = { t with rows := (t.removeKeys pick p.2).rows, indexList := (t.removeKeys pick p.2).indexList } := rfl
    _ = t.removeAt p.1 := by
      rw [hrows, show (t.removeKeys pick p.2).indexList = _ from hindex]
      rfl

/-- A table in whose primary index there is one element for each live row. The primary index is the
first one: it is made with the table. -/
structure Listed (t : Table) : Prop where
  columns : (t.columns.map Column.name).Nodup
  names : (t.indexList.map Index.name).Nodup
  first : ∃ ndx rest, t.indexList = ndx :: rest ∧ ndx.name = PK_NDX ∧ ndx.elements = t.rows.map fun p => (t.key ndx p.2, p.1)
  places : (t.rows.map Prod.fst).Nodup
  fresh : ∀ p ∈ t.rows, p.1 < t.next

theorem Wf.listed {t : Table} (hw : t.Wf) (hfirst : t.indexList.head?.map Index.name = some PK_NDX) : t.Listed where
  columns := hw.columns
  names := hw.names
  first := by
    obtain ⟨ndx, hhead, hname⟩ := Option.map_eq_some_iff.mp hfirst
    obtain ⟨rest, hlist⟩ := List.head?_eq_some_iff.mp hhead
    exact ⟨ndx, rest, hlist, hname, hw.elements ndx (hlist ▸ List.mem_cons_self)⟩
  places := hw.places
  fresh := hw.fresh

theorem getIndex_first {t : Table} {ndx : Index} {rest : List Index} (h : t.indexList = ndx :: rest) (hn : ndx.name = PK_NDX) :
    t.getIndex PK_NDX = some ndx := by
  rw [getIndex, h]
  exact List.find?_cons_of_pos (decide_eq_true hn)

theorem primaryKey_first {t : Table} {ndx : Index} {rest : List Index} (h : t.indexList = ndx :: rest) (hn : ndx.name = PK_NDX)
    (r : Row) : t.primaryKey r = t.key ndx r := by
  rw [primaryKey, getIndex_first h hn]
  rfl

theorem Listed.find_primary {t : Table} (h : t.Listed) (key : Text) :
    t.find PK_NDX key = t.rows.find? fun p => t.primaryKey p.2 = key := by
  obtain ⟨ndx, rest, hlist, hname, helements⟩ := h.first
  rw [find_eq_of_elements (getIndex_first hlist hname) helements h.places]
  simp only [primaryKey_first hlist hname]

/-- A row with a primary key of its own is found, and is taken out of the pages and of the primary
index. -/
theorem Listed.removeKeys {t : Table} (h : t.Listed) {p : ℕ × Row} (hp : p ∈ t.rows)
    (hu : ∀ q ∈ t.rows, t.primaryKey q.2 = t.primaryKey p.2 → q = p) (pick : Table → Index → Text → ℕ) :
    (t.removeKeys pick p.2).Listed ∧ TakenOut t p (t.removeKeys pick p.2) := by
  obtain ⟨ndx, rest, hlist, hname, helements⟩ := h.first
  have hkey := primaryKey_first hlist hname
  have hchosen := chosen_alone helements hp (fun q hq hk => hu q hq (by rw [hkey, hkey]; exact hk)) (pick t ndx (t.key ndx p.2))
  have hrows : (t.removeKeys pick p.2).rows = t.rows.filter fun q => q.1 ≠ p.1 := by
    simp only [Table.removeKeys, hlist, List.findSome?_cons, hchosen]
  have halike : Alike t (t.removeKeys pick p.2) := by
    refine ⟨rfl, rfl, rfl, ?_⟩
    rw [Table.removeKeys, List.map_map]
    rfl
  have hnames : ((t.removeKeys pick p.2).indexList.map Index.name).Nodup := by
    have := h.names
    rwa [Table.removeKeys, List.map_map]
  refine ⟨⟨h.columns, hnames, ⟨_, _, (congrArg (List.map _) hlist).trans List.map_cons, hname, ?_⟩, ?_, ?_⟩, halike, rfl, hrows, rfl⟩
  · show (ndx.elements.filter fun e => some e ≠ chosen ndx (t.key ndx p.2) (pick t ndx (t.key ndx p.2))) =
      (t.removeKeys pick p.2).rows.map fun q => (t.key ndx q.2, q.1)
    rw [hchosen, hrows, filter_alone helements hp h.places, helements, List.filter_map]
    rfl
  · rw [hrows]
    exact (List.filter_sublist.map Prod.fst).nodup h.places
  · intro q hq
    rw [hrows] at hq
    exact h.fresh q (List.mem_filter.mp hq).1

/-- An index behind a removal by keys. -/
theorem mem_removeKeys {t : Table} {pick : Table → Index → Text → ℕ} {r : Row} {ndx : Index}
    (h : ndx ∈ (t.removeKeys pick r).indexList) : ∃ ndx' ∈ t.indexList, ndx = { ndx' with
      elements := ndx'.elements.filter fun e => some e ≠ chosen ndx' (t.key ndx' r) (pick t ndx' (t.key ndx' r)) } := by
  obtain ⟨ndx', hm, rfl⟩ := List.mem_map.mp h
  exact ⟨ndx', hm, rfl⟩

theorem Listed.withColumns {t : Table} {c : List Column} (h : t.Listed) (hc : Counted c t.columns) : (t.withColumns c).Listed where
  columns := by
    rw [withColumns_columns, hc.names]
    exact h.columns
  names := h.names
  first := by
    obtain ⟨ndx, rest, hlist, hname, helements⟩ := h.first
    refine ⟨ndx, rest, hlist, hname, ?_⟩
    simp only [key_withColumns hc]
    exact helements
  places := h.places
  fresh := h.fresh

theorem Listed.insert {t : Table} (h : t.Listed) (r : Row) : (t.insert r).Listed where
  columns := h.columns
  names := by
    have := h.names
    rwa [Table.insert, List.map_map]
  first := by
    obtain ⟨ndx, rest, hlist, hname, helements⟩ := h.first
    refine ⟨_, _, (congrArg (List.map _) hlist).trans List.map_cons, hname, ?_⟩
    show ndx.elements ++ _ = _
    rw [helements, insert_rows, List.map_append]
    rfl
  places := nodup_places_insert h.places h.fresh r
  fresh := fresh_insert h.fresh r

end Table

/-! ### The rows that are still to be updated -/

section Ready

variable {remove : Table → Row → Table} {rights : List (Text × Cond)} {t : Table} {p : ℕ × Row} {sel : List (ℕ × Row)} {upd : Row}

/-- The updates of the rows behind the first one, when it has been put back. -/
theorem isUpdate_replaced (h : TakenOut t p (remove t p.2)) {k : ℕ} {org new : Row} :
    IsUpdate A (replaced remove t p upd) rights k org new ↔ IsUpdate A t rights (k + 1) org new := by
  rw [IsUpdate, IsUpdate, (alike_replaced h upd).view]
  rfl

theorem putsBack_cons (h : TakenOut t p (remove t p.2)) (hp : IsUpdate A t rights 0 p.2 upd) {k : ℕ} :
    PutsBack A t rights (p :: sel) (k + 1) ↔ PutsBack A (replaced remove t p upd) rights sel k := by
  constructor
  · intro hput j hj q hq
    obtain ⟨new, hnew⟩ := hput (j + 1) (Nat.succ_lt_succ hj) q hq
    exact ⟨new, (isUpdate_replaced h).mpr hnew⟩
  · intro hput j hj q hq
    cases j with
    | zero =>
      obtain rfl := Option.some.inj hq
      exact ⟨upd, hp⟩
    | succ j =>
      obtain ⟨new, hnew⟩ := hput j (Nat.lt_of_succ_lt_succ hj) q hq
      exact ⟨new, (isUpdate_replaced h).mp hnew⟩

/-- A table in the loop of UPDATE: the rows that are still to be updated are there, and each has a primary
key of its own when it is looked up. -/
structure Ready (A : Arith) (rights : List (Text × Cond)) (t : Table) (sel : List (ℕ × Row)) : Prop where
  listed : t.Listed
  places : (sel.map Prod.fst).Nodup
  rows : ∀ p ∈ sel, p ∈ t.rows
  alone : ∀ k q, sel[k]? = some q → PutsBack A t rights sel k → ∀ x ∈ t.rows, t.primaryKey x.2 = t.primaryKey q.2 → x = q
  apart : PrimaryApart A t rights sel

theorem Ready.alone_head (h : Ready A rights t (p :: sel)) : ∀ q ∈ t.rows, t.primaryKey q.2 = t.primaryKey p.2 → q = p :=
  h.alone 0 p rfl fun _ hj => absurd hj (Nat.not_lt_zero _)

theorem Ready.takenOut (h : Ready A rights t (p :: sel)) (pick : Table → Index → Text → ℕ) :
    (t.removeKeys pick p.2).Listed ∧ TakenOut t p (t.removeKeys pick p.2) :=
  h.listed.removeKeys (h.rows p List.mem_cons_self) h.alone_head pick

/-- More that holds between the rows. -/
theorem Removes.and {Good : Table → List (ℕ × Row) → Prop} (h : Removes A remove rights Good) (More : Table → List (ℕ × Row) → Prop)
    (hmore : ∀ {t p sel values upd}, Good t (p :: sel) → More t (p :: sel) → giveAll A (t.view p.2) rights = some values →
      putBack A t.columns values p.2 = some upd → More (replaced remove t p upd) sel) :
    Removes A remove rights fun t sel => Good t sel ∧ More t sel where
  columns hg := h.columns hg.1
  fresh hg := h.fresh hg.1
  find hg := h.find hg.1
  out hg := h.out hg.1
  back hg hgive hput := ⟨h.back hg.1 hgive hput, hmore hg.1 hg.2 hgive hput⟩

end Ready

/-! ### The elements of the other indexes -/

section Elements

variable {rights : List (Text × Cond)} {t : Table} {p : ℕ × Row} {sel : List (ℕ × Row)} {upd : Row} {pick : Table → Index → Text → ℕ}
  {ndx : Index}

/-- An index when a row has been put back: an element is gone, and one is new. -/
theorem mem_replaced (h : ndx ∈ (replaced (Table.removeKeys pick) t p upd).indexList) :
    ∃ ndx' ∈ t.indexList, ndx.name = ndx'.name ∧ (∀ r, (replaced (Table.removeKeys pick) t p upd).key ndx r = t.key ndx' r) ∧
      ndx.elements = (ndx'.elements.filter fun e => some e ≠ Table.chosen ndx' (t.key ndx' p.2) (pick t ndx' (t.key ndx' p.2))) ++
        [(t.key ndx' upd, t.next)] := by
  obtain ⟨ndx'', hm, rfl⟩ := List.mem_map.mp h
  obtain ⟨ndx', hm', rfl⟩ := Table.mem_removeKeys hm
  have hkey : ∀ r, makeKey (t.columns.map Column.next) ndx'.colNameList r = t.key ndx' r := fun r =>
    (counted_next t.columns).makeKey ndx'.colNameList r
  refine ⟨ndx', hm', rfl, hkey, ?_⟩
  rw [← hkey upd]
  rfl

/-- What the other indexes keep: the elements of all rows but those of some places, which the rows that are
updated are of, and with which no other row shares a key. -/
structure Spared (A : Arith) (rights : List (Text × Cond)) (places : List ℕ) (t : Table) (sel : List (ℕ × Row)) : Prop where
  there : ∀ ndx ∈ t.indexList, ndx.name ≠ PK_NDX → ∀ q ∈ t.rows, q.1 ∉ places → (t.key ndx q.2, q.1) ∈ ndx.elements
  updated : ∀ k p, sel[k]? = some p → PutsBack A t rights sel (k + 1) → p.1 ∈ places
  rows : ∀ p ∈ sel, p.1 ∈ places → ∀ ndx ∈ t.indexList, ndx.name ≠ PK_NDX → ∀ q ∈ t.rows, t.key ndx q.2 = t.key ndx p.2 → q.1 ∈ places
  news : ∀ j k p q upd, j < k → sel[j]? = some p → sel[k]? = some q → q.1 ∈ places → IsUpdate A t rights j p.2 upd →
    ∀ ndx ∈ t.indexList, ndx.name ≠ PK_NDX → t.key ndx upd ≠ t.key ndx q.2

theorem Spared.back {places : List ℕ} (hready : Ready A rights t (p :: sel)) (h : Spared A rights places t (p :: sel))
    (hupd : IsUpdate A t rights 0 p.2 upd) : Spared A rights places (replaced (Table.removeKeys pick) t p upd) sel := by
  have hout := (hready.takenOut pick).2
  have hp : p.1 ∈ places := h.updated 0 p rfl fun j hj q hq => by
    obtain rfl := Nat.lt_one_iff.mp hj
    obtain rfl := Option.some.inj hq
    exact ⟨upd, hupd⟩
  have hrows : ∀ q ∈ (replaced (Table.removeKeys pick) t p upd).rows, q ∈ t.rows ∨ q = (t.next, upd) := fun q hq => by
    rw [replaced_rows hout] at hq
    exact (List.mem_append.mp hq).imp (fun hq => (List.mem_filter.mp hq).1) List.mem_singleton.mp
  refine ⟨fun ndx hm hn q hq hnot => ?_, fun k q hq hputs => ?_, fun q hq hqp ndx hm hn x hx hk => ?_,
    fun j k q q' new hjk hq hq' hqp hnew ndx hm hn => ?_⟩
  · obtain ⟨ndx', hm', hname, hkey, helements⟩ := mem_replaced hm
    rw [hkey, helements]
    rcases hrows q hq with hq | rfl
    · refine List.mem_append_left _ (List.mem_filter.mpr ⟨h.there ndx' hm' (hname ▸ hn) q hq hnot, decide_eq_true fun he => hnot ?_⟩)
      exact h.rows p List.mem_cons_self hp ndx' hm' (hname ▸ hn) q hq (Table.chosen_mem he.symm).2
    · exact List.mem_append_right _ (List.mem_singleton.mpr rfl)
  · exact h.updated (k + 1) q hq ((putsBack_cons hout hupd).mpr hputs)
  · obtain ⟨ndx', hm', hname, hkey, -⟩ := mem_replaced hm
    rw [hkey, hkey] at hk
    rcases hrows x hx with hx | rfl
    · exact h.rows q (List.mem_cons_of_mem _ hq) hqp ndx' hm' (hname ▸ hn) x hx hk
    · obtain ⟨k, hk'⟩ := List.mem_iff_getElem?.mp hq
      exact absurd hk (h.news 0 (k + 1) p q upd k.succ_pos rfl hk' hqp hupd ndx' hm' (hname ▸ hn))
  · obtain ⟨ndx', hm', hname, hkey, -⟩ := mem_replaced hm
    rw [hkey, hkey]
    exact h.news (j + 1) (k + 1) q q' new (Nat.succ_lt_succ hjk) hq hq' hqp ((isUpdate_replaced hout).mp hnew) ndx' hm' (hname ▸ hn)

/-- When the `k`-th row has been taken out, the element of this key and this place is not in the index. -/
def Missed (name key : Text) (place : ℕ) (org : List (ℕ × Row)) (next k : ℕ) (t : Table) (sel : List (ℕ × Row)) : Prop :=
  ∃ pre, org = pre ++ sel ∧ t.next = next + pre.length ∧ ∀ ndx ∈ t.indexList, ndx.name = name →
    (∀ p, org[k]? = some p → t.key ndx p.2 = key) ∧ (k < pre.length → (key, place) ∉ ndx.elements)

theorem Missed.back {name key : Text} {place next k : ℕ} {org : List (ℕ × Row)} (hready : Ready A rights t (p :: sel))
    (h : Missed name key place org next k t (p :: sel)) (hplace : place < next + k) :
    Missed name key place org next k (replaced (Table.removeKeys fun _ _ _ => place) t p upd) sel := by
  have hout := (hready.takenOut fun _ _ _ => place).2
  obtain ⟨pre, horg, hnext, hmissed⟩ := h
  refine ⟨pre ++ [p], horg.trans (List.append_cons pre p sel), ?_, fun ndx hm hn => ?_⟩
  · rw [replaced_next hout, hnext, List.length_append]
    rfl
  obtain ⟨ndx', hm', hname, hkey, helements⟩ := mem_replaced hm
  obtain ⟨horgkey, hnot⟩ := hmissed ndx' hm' (hname.symm.trans hn)
  refine ⟨fun q hq => (hkey q.2).trans (horgkey q hq), fun hk hmem => ?_⟩
  rw [List.length_append, List.length_singleton] at hk
  rw [helements] at hmem
  rcases List.mem_append.mp hmem with hmem | hmem
  · obtain ⟨hmem, hne⟩ := List.mem_filter.mp hmem
    rcases Nat.lt_succ_iff_lt_or_eq.mp hk with hlt | rfl
    · exact hnot hlt hmem
    · have hp : t.key ndx' p.2 = key := horgkey p (by rw [horg, List.getElem?_append_right le_rfl, Nat.sub_self]; rfl)
      rw [hp, Table.chosen_place hmem] at hne
      exact absurd rfl (of_decide_eq_true hne)
  · have := congrArg Prod.snd (List.mem_singleton.mp hmem)
    dsimp only at this
    omega

end Elements

/-! ### Where the statement stops -/

section Stops

variable {rights : List (Text × Cond)} {t : Table} {sel : List (ℕ × Row)}

/-- The rows that are put back for the selected ones. -/
abbrev updates (A : Arith) (t : Table) (rights : List (Text × Cond)) (sel : List (ℕ × Row)) : List Row × Stop :=
  putBacks A t.view rights t.columns (sel.map Prod.snd)

/-- Each row that is put back is the update of the selected row of its position. -/
theorem updates_isUpdate {k : ℕ} (h : k < (updates A t rights sel).1.length) :
    ∃ p upd, sel[k]? = some p ∧ (updates A t rights sel).1[k]? = some upd ∧ IsUpdate A t rights k p.2 upd := by
  obtain ⟨org, values, upd, horg, hg, hpb, hu⟩ := @putBacks_before A t.view rights t.columns (sel.map Prod.snd) k h
  rw [List.getElem?_map] at horg
  obtain ⟨p, hp, rfl⟩ := Option.map_eq_some_iff.mp horg
  exact ⟨p, upd, hp, hu, values, hg, hpb⟩

theorem putsBack_updates : PutsBack A t rights sel (updates A t rights sel).1.length := by
  intro j hj q hq
  obtain ⟨p, upd, hp, -, hupd⟩ := updates_isUpdate hj
  obtain rfl := Option.some.inj (hq.symm.trans hp)
  exact ⟨upd, hupd⟩

/-- The end of the loop, by the selected rows. -/
theorem updates_because :
    match (updates A t rights sel).2 with
    | .done => (updates A t rights sel).1.length = sel.length
    | .expression => StopsBefore A t rights sel (updates A t rights sel).1.length
    | .refused => ∃ p values, sel[(updates A t rights sel).1.length]? = some p ∧ giveAll A (t.view p.2) rights = some values ∧
        putBack A (columnsAt t (updates A t rights sel).1.length) values p.2 = none := by
  have h := @putBacks_because A t.view rights t.columns (sel.map Prod.snd)
  cases hstop : (updates A t rights sel).2 with
  | done =>
    rw [hstop] at h
    exact h.trans (List.length_map _)
  | expression =>
    rw [hstop] at h
    obtain ⟨org, horg, hg⟩ := h
    rw [List.getElem?_map] at horg
    obtain ⟨p, hp, rfl⟩ := Option.map_eq_some_iff.mp horg
    exact ⟨putsBack_updates, p, hp, hg⟩
  | refused =>
    rw [hstop] at h
    obtain ⟨org, values, horg, hg, hpb⟩ := h
    rw [List.getElem?_map] at horg
    obtain ⟨p, hp, rfl⟩ := Option.map_eq_some_iff.mp horg
    exact ⟨p, values, hp, hg, hpb⟩

/-- Not all rows before the one for which an expression has no value can be put back behind it. -/
theorem StopsBefore.le {m k : ℕ} (h : StopsBefore A t rights sel m) (hk : PutsBack A t rights sel k) : k ≤ m := by
  by_contra hlt
  obtain ⟨-, p, hp, hnone⟩ := h
  obtain ⟨upd, values, hg, -⟩ := hk m (Nat.lt_of_not_le hlt) p hp
  rw [hnone] at hg
  cases hg

/-- The loop stops where an expression has no value. -/
theorem StopsBefore.updates {m : ℕ} (h : StopsBefore A t rights sel m) :
    (updates A t rights sel).2 = .expression ∧ (updates A t rights sel).1.length = m := by
  have hle := h.le putsBack_updates
  obtain ⟨hput, p, hp, hnone⟩ := h
  have hlt := (List.getElem?_eq_some_iff.mp hp).1
  have hbecause := @updates_because A rights t sel
  cases hstop : (Dml.updates A t rights sel).2 with
  | done =>
    rw [hstop] at hbecause
    dsimp only at hbecause
    omega
  | expression =>
    rw [hstop] at hbecause
    exact ⟨rfl, le_antisymm hle (hbecause.le hput)⟩
  | refused =>
    rw [hstop] at hbecause
    obtain ⟨q, values, hq, hg, hpb⟩ := hbecause
    rcases hle.lt_or_eq with hlt | heq
    · obtain ⟨upd, values', hg', hpb'⟩ := hput _ hlt q hq
      obtain rfl := Option.some.inj (hg.symm.trans hg')
      rw [hpb] at hpb'
      cases hpb'
    · rw [heq, hp] at hq
      obtain rfl := Option.some.inj hq
      rw [hnone] at hg
      cases hg

/-- The places of new rows follow each other. -/
theorem mem_newRows {n k : ℕ} {rs : List Row} {r : Row} (h : rs[k]? = some r) : (n + k, r) ∈ newRows n rs := by
  induction rs generalizing n k with
  | nil => cases h
  | cons r' rs ih =>
    cases k with
    | zero =>
      obtain rfl := Option.some.inj h
      exact List.mem_cons_self
    | succ k =>
      rw [Nat.add_succ, ← Nat.succ_add]
      exact List.mem_cons_of_mem _ (ih h)

end Stops

/-! ### What is lost -/

/-- The members of a sublist are what is left of a list when all others are dropped. -/
theorem filter_sublist {α : Type} {S l : List (ℕ × α)} (h : S.Sublist l) (hn : (l.map Prod.fst).Nodup) :
    l.filter (fun q => q.1 ∈ S.map Prod.fst) = S := by
  induction h with
  | slnil => rfl
  | @cons S l a h ih =>
    rw [List.map_cons, List.nodup_cons] at hn
    rw [List.filter_cons_of_neg, ih hn.2]
    intro hm
    exact hn.1 ((h.map Prod.fst).subset (of_decide_eq_true hm))
  | @cons_cons S l a h ih =>
    rw [List.map_cons, List.nodup_cons] at hn
    rw [List.filter_cons_of_pos (by simp)]
    conv_rhs => rw [← ih hn.2]
    congr 1
    refine List.filter_congr fun q hq => decide_eq_decide.mpr ?_
    rw [List.map_cons, List.mem_cons]
    exact or_iff_right fun he => hn.1 (he ▸ List.mem_map_of_mem hq)

section Loss

variable {rights : List (Text × Cond)} {t : Table} {cond : Option Cond} {sel : List (ℕ × Row)} {pick : Table → Index → Text → ℕ}

end Loss

/-! ### A table with an index -/

end RedB.Dml
