import RedB.Dml.Append

/-!
# The row that UPDATE puts back

An expression gives a value to its column (`Cond.give`); a column or a truth value gives none,
and its column gets what the item of the assignment held before, which is always the empty
value. The columns take these values, and the others take what the row held (`handed`).
-/

namespace RedB.Dml

open Runs

variable (A : Arith)

/-- Columns and truth values, which are not assigned. -/
def Cond.isStale : Cond → Bool
  | .value .boolean _ => true
  | .column .. => true
  | _ => false

/-- What an expression gives to its column. -/
def Cond.give (row : View) (c : Cond) : Option Text := (setColumnValue A row c).bind (execAssignment A [])

/-- What the expressions give. -/
def giveAll (row : View) : List (Text × Cond) → Option (List (Text × Text))
  | [] => some []
  | a :: as => do
      let value ← a.2.give A row
      let values ← giveAll row as
      some ((a.1, value) :: values)

/-- The value given to a column, if there is one. -/
def given (values : List (Text × Text)) (name : Text) : Option Text := (values.find? fun p => p.1 = name).map Prod.snd

/-- The values that are appended, from column `i` on. -/
def handed (values : List (Text × Text)) (org : Row) : ℕ → List Column → List Text
  | _, [] => []
  | i, col :: cols => (given values col.name).getD (org.valueAt i) :: handed values org (i + 1) cols

/-- The row that is put back, nothing if a column does not take its value. -/
def putBack (cols : List Column) (values : List (Text × Text)) (org : Row) : Option Row := makeRow A cols (handed values org 0 cols)

/-! ### Assignments -/

variable {A}

theorem execAssignment_of_isStale {c : Cond} (h : c.isStale = true) (res : Text) : execAssignment A res c = some res := by
  unfold Cond.isStale at h
  split at h
  · rfl
  · rfl
  · cases h

theorem execAssignment_of_not_isStale {c : Cond} (h : c.isStale = false) (res : Text) :
    execAssignment A res c = execCondition A c := by
  unfold execAssignment
  split
  · cases h
  · cases h
  · rfl

theorem Cond.Same.isStale {c c' : Cond} (h : c.Same c') : c'.isStale = c.isStale := by
  cases c with
  | value type text =>
    obtain rfl : c' = .value type text := h
    rfl
  | column tbl colName type negate text =>
    obtain ⟨text', rfl⟩ := h
    rfl
  | op o l r =>
    obtain ⟨l', r', rfl, -, -⟩ := h
    rfl

/-- An expression that is not assigned gives the empty value. -/
theorem Cond.give_of_isStale {row : View} {c : Cond} {value : Text} (h : c.isStale = true) (hg : c.give A row = some value) :
    value = [] := by
  obtain ⟨c', hs, hx⟩ := Option.bind_eq_some_iff.mp hg
  rw [execAssignment_of_isStale ((same_setColumnValue hs).isStale.trans h)] at hx
  exact (Option.some.inj hx).symm

/-- The item of an assignment between the rows. -/
structure Held (tbl : Name) (a : Text × Cond) (b : Assignment) : Prop where
  colName : b.colName = a.1
  same : a.2.Same b.right
  on : b.right.On tbl
  stale : a.2.isStale = true → b.value = []

/-- Columns and values of assignments. -/
def values (as : List Assignment) : List (Text × Text) := as.map fun a => (a.colName, a.value)

theorem assigned_eq (as : List Assignment) (name : Text) : assigned as name = given (values as) name := by
  rw [assigned, given, values, List.find?_map, Option.map_map]
  rfl

/-- One assignment: what it gives does not depend on the rows before. -/
theorem Held.give {row : View} {a : Text × Cond} {b : Assignment} (h : Held row.tbl a b) (ho : a.2.On row.tbl) :
    ((setColumnValue A row b.right).bind fun right => (execAssignment A b.value right)) = a.2.give A row ∧
      ∀ right, setColumnValue A row b.right = some right → a.2.Same right ∧ right.On row.tbl := by
  have hset : setColumnValue A row b.right = setColumnValue A row a.2 := setColumnValue_same h.same ho h.on
  refine ⟨?_, fun right hr => ⟨h.same.trans (same_setColumnValue hr), on_setColumnValue hr h.on⟩⟩
  rw [Cond.give, hset]
  cases hs : setColumnValue A row a.2 with
  | none => rfl
  | some right =>
    have hst := (same_setColumnValue hs).isStale
    cases hstale : a.2.isStale with
    | true => rw [Option.bind_some, Option.bind_some, h.stale hstale]
    | false =>
      rw [Option.bind_some, Option.bind_some, execAssignment_of_not_isStale (hst.trans hstale),
        execAssignment_of_not_isStale (hst.trans hstale)]

theorem execAssignments_none {row : View} {rights : List (Text × Cond)} {as : List Assignment}
    (h : List.Forall₂ (Held row.tbl) rights as) (ho : ∀ a ∈ rights, a.2.On row.tbl) (hg : giveAll A row rights = none) :
    execAssignments A row as = none := by
  induction h with
  | nil => cases hg
  | @cons a b rights as hab _ ih =>
    obtain ⟨hgive, -⟩ := hab.give (A := A) (ho a List.mem_cons_self)
    rw [execAssignments]
    cases hs : setColumnValue A row b.right with
    | none => rfl
    | some right =>
      rw [hs, Option.bind_some] at hgive
      rw [giveAll, ← hgive] at hg
      cases hv : execAssignment A b.value right with
      | none => simp only [Option.bind_eq_bind, Option.bind_some, hv, Option.bind_none]
      | some value =>
        simp only [hv, Option.bind_eq_bind, Option.bind_some] at hg ⊢
        cases hr : giveAll A row rights with
        | none =>
          rw [ih (fun a ha => ho a (List.mem_cons_of_mem _ ha)) hr]
          rfl
        | some vs =>
          rw [hr] at hg
          cases hg

theorem execAssignments_some {row : View} {rights : List (Text × Cond)} {as : List Assignment} {vs : List (Text × Text)}
    (h : List.Forall₂ (Held row.tbl) rights as) (ho : ∀ a ∈ rights, a.2.On row.tbl) (hg : giveAll A row rights = some vs) :
    ∃ as', execAssignments A row as = some as' ∧ List.Forall₂ (Held row.tbl) rights as' ∧ values as' = vs := by
  induction h generalizing vs with
  | nil =>
    obtain rfl := Option.some.inj hg
    exact ⟨[], rfl, .nil, rfl⟩
  | @cons a b rights as hab _ ih =>
    obtain ⟨hgive, hsame⟩ := hab.give (A := A) (ho a List.mem_cons_self)
    obtain ⟨value, hv, hg⟩ := Option.bind_eq_some_iff.mp hg
    obtain ⟨vs', hvs, hg⟩ := Option.bind_eq_some_iff.mp hg
    obtain rfl := Option.some.inj hg
    obtain ⟨as', has, hheld, hval⟩ := ih (fun a ha => ho a (List.mem_cons_of_mem _ ha)) hvs
    obtain ⟨right, hr, hx⟩ := Option.bind_eq_some_iff.mp (hgive.trans hv)
    obtain ⟨hsr, hor⟩ := hsame right hr
    refine ⟨{ b with value := value, right := right } :: as', ?_, .cons ⟨hab.colName, hsr, hor, fun hst => ?_⟩ hheld, ?_⟩
    · simp only [execAssignments, hr, hx, has, Option.bind_eq_bind, Option.bind_some]
    · exact Cond.give_of_isStale hst hv
    · simp only [values, List.map_cons, hab.colName] at hval ⊢
      rw [hval]

/-! ### Columns -/

/-- An empty value is stored as it is, where it is taken. -/
theorem take_nil {col : Column} {text : Text} (hc : col.isAutoInc = false) (ht : col.take A [] = some text) : text = [] := by
  have hi : stoi [] = none := rfl
  rw [Column.take] at ht
  split at ht
  · have hne : ([] : Text) ≠ "null".toList := by decide
    rw [Column.store, if_neg hne, Column.format, hc, if_neg (by decide)] at ht
    split at ht
    · split at ht
      · rw [A.stof_nil] at ht
        cases ht
      · rw [hi] at ht
        cases ht
      · exact (Option.some.inj ht).symm
    · split at ht
      · rw [A.stof_nil] at ht
        exact (Option.some.inj ht).symm
      · rw [hi] at ht
        exact (Option.some.inj ht).symm
      · exact (Option.some.inj ht).symm
      · exact (Option.some.inj ht).symm
  · cases ht

theorem given_leave {text name m : Text} (as : List Assignment) (h : m ≠ name) :
    given (values (leave text name as)) m = given (values as) m := by
  rw [← assigned_eq, ← assigned_eq]
  induction as with
  | nil => rfl
  | cons a as ih =>
    rw [leave]
    split
    · rename_i ha
      have hm : decide (a.colName = m) = false := decide_eq_false fun hm => h (hm.symm.trans ha)
      simp only [assigned, List.find?_cons, hm]
    · simp only [assigned, List.find?_cons] at ih ⊢
      cases decide (a.colName = m) with
      | true => rfl
      | false => exact ih

/-- What an append leaves in the item of its column is empty if it was empty. -/
theorem held_leave {tbl : Name} {rights : List (Text × Cond)} {as : List Assignment} {name text value : Text}
    (h : List.Forall₂ (Held tbl) rights as) (ha : assigned as name = some value) (ht : value = [] → text = []) :
    List.Forall₂ (Held tbl) rights (leave text name as) := by
  induction h with
  | nil => exact .nil
  | @cons a b rights as hab hr ih =>
    rw [leave]
    by_cases hb : b.colName = name
    · rw [if_pos hb]
      have hv : b.value = value := by
        rw [assigned, List.find?_cons, decide_eq_true hb] at ha
        exact Option.some.inj ha
      exact .cons ⟨hab.colName, hab.same, hab.on, fun hst => ht (hv ▸ hab.stale hst)⟩ hr
    · rw [if_neg hb]
      rw [assigned, List.find?_cons, decide_eq_false hb] at ha
      exact .cons hab (ih ha)

theorem handed_congr {vs vs' : List (Text × Text)} {org : Row} {cols : List Column}
    (h : ∀ col ∈ cols, given vs col.name = given vs' col.name) (i : ℕ) : handed vs org i cols = handed vs' org i cols := by
  induction cols generalizing i with
  | nil => rfl
  | cons col cols ih =>
    rw [handed, handed, h col List.mem_cons_self, ih (fun c hc => h c (List.mem_cons_of_mem _ hc))]

/-- Nothing is left where nothing was assigned. -/
theorem leave_none {text name : Text} {as : List Assignment} (h : assigned as name = none) : leave text name as = as := by
  induction as with
  | nil => rfl
  | cons a as ih =>
    rw [assigned, List.find?_cons] at h
    by_cases ha : a.colName = name
    · rw [decide_eq_true ha] at h
      cases h
    · rw [decide_eq_false ha] at h
      rw [leave, if_neg ha, ih h]

/-- One column of the row that is put back. -/
theorem populate_cons (org : Row) (i : ℕ) (col : Column) (cols : List Column) (as : List Assignment) (upd : Row) :
    populate A org i (col :: cols) as upd =
      append A i ((given (values as) col.name).getD (org.valueAt i)) upd >>= fun p =>
        populate A org (i + 1) cols (leave p.2 col.name as) p.1 := by
  rw [populate, ← assigned_eq]
  cases h : assigned as col.name with
  | some value => rfl
  | none =>
    simp only [leave_none h]
    rfl

/-- An assigned column that takes an empty value stores an empty value. -/
theorem assigned_nil {tbl : Name} {rights : List (Text × Cond)} {as : List Assignment} {col : Column} {value text : Text}
    (hh : List.Forall₂ (Held tbl) rights as) (ha : ∀ a ∈ rights, a.1 = col.name → col.isAutoInc = false)
    (has : assigned as col.name = some value) (ht : col.take A value = some text) (hv : value = []) : text = [] := by
  subst hv
  obtain ⟨b, hb, -⟩ := Option.map_eq_some_iff.mp has
  obtain ⟨i, hi, rfl⟩ := List.mem_iff_getElem.mp (List.mem_of_find?_eq_some hb)
  have hir : i < rights.length := by rwa [hh.length_eq]
  have hname := (List.forall₂_iff_get.mp hh).2 i hir hi |>.colName
  refine take_nil (ha _ (List.getElem_mem hir) ?_) ht
  rw [← show as[i].colName = col.name by simpa using List.find?_some hb]
  exact hname.symm

/-- The assignments behind the append of a column. -/
theorem held_append {tbl : Name} {rights : List (Text × Cond)} {as : List Assignment} {col : Column} {org : Row} {i : ℕ} {text : Text}
    (hh : List.Forall₂ (Held tbl) rights as) (ha : ∀ a ∈ rights, a.1 = col.name → col.isAutoInc = false)
    (ht : col.take A ((given (values as) col.name).getD (org.valueAt i)) = some text) :
    List.Forall₂ (Held tbl) rights (leave text col.name as) := by
  rw [← assigned_eq] at ht
  cases has : assigned as col.name with
  | none =>
    rw [leave_none has]
    exact hh
  | some value =>
    rw [has, Option.getD_some] at ht
    exact held_leave hh has (assigned_nil hh ha has ht)

/-- The row is put back column by column. -/
theorem populate_ok {tbl : Name} {rights : List (Text × Cond)} {org : Row} {pre cols : List Column} {as : List Assignment}
    {texts xs : List Text} {t : Table} (hc : t.columns = pre ++ cols) (hl : texts.length = pre.length)
    (hn : (cols.map Column.name).Nodup) (hh : List.Forall₂ (Held tbl) rights as)
    (ha : ∀ col ∈ cols, ∀ a ∈ rights, a.1 = col.name → col.isAutoInc = false)
    (hs : storeAll A cols (handed (values as) org pre.length cols) = some xs)
    (hf : (texts ++ xs).flatten.length ≤ capacity t.columns) :
    ∃ as', populate A org pre.length cols as (Row.start texts cols.length) t =
        .ok (Row.ofTexts (texts ++ xs), as') { t with columns := pre ++ cols.map Column.next } ∧
      List.Forall₂ (Held tbl) rights as' := by
  induction cols generalizing pre as texts xs t with
  | nil =>
    obtain rfl := Option.some.inj hs
    refine ⟨as, ?_, hh⟩
    rw [populate, List.length_nil, Row.start_zero, List.append_nil, List.map_nil, ← hc]
    rfl
  | cons col cols ih =>
    obtain ⟨text, ht, hs⟩ := Option.bind_eq_some_iff.mp hs
    obtain ⟨xs, hxs, hs⟩ := Option.bind_eq_some_iff.mp hs
    obtain rfl := Option.some.inj hs
    rw [List.map_cons, List.nodup_cons] at hn
    have hcol := columns_at hc
    have hset := columns_set hc
    have hlen : (Row.start texts (cols.length + 1)).data.length + text.length ≤ capacity t.columns := by
      simp only [Row.start, List.flatten_append, List.flatten_cons, List.length_append] at hf ⊢
      omega
    have hpl : (pre ++ [col.next]).length = pre.length + 1 := by rw [List.length_append]; rfl
    have hgiven : ∀ c ∈ cols, given (values (leave text col.name as)) c.name = given (values as) c.name := fun c hcm =>
      given_leave as fun hcn => hn.1 (List.mem_map.mpr ⟨c, hcm, hcn⟩)
    obtain ⟨as', hrun, hheld⟩ := @ih (pre ++ [col.next]) (leave text col.name as) (texts ++ [text]) xs
      { t with columns := t.columns.set pre.length col.next } hset (by rw [List.length_append, hpl, hl]; rfl) hn.2
      (held_append hh (ha col List.mem_cons_self) ht) (fun c hcm => ha c (List.mem_cons_of_mem _ hcm))
      (by rw [handed_congr hgiven, hpl]; exact hxs)
      (by rw [List.append_assoc]; exact hf.trans (counted_set hcol).capacity.ge)
    refine ⟨as', ?_, hheld⟩
    rw [populate_cons, List.length_cons, bind_run (append_ok hcol ht hlen), ← hl, Row.start_put, hl, ← hpl, hrun]
    simp only [List.append_assoc, List.singleton_append, List.map_cons]

/-- A row that is not put back leaves nothing but counters behind. -/
theorem populate_error {org : Row} {pre cols : List Column} {as : List Assignment} {texts : List Text} {t : Table}
    (hc : t.columns = pre ++ cols) (hl : texts.length = pre.length) (hn : (cols.map Column.name).Nodup)
    (hs : ∀ xs, storeAll A cols (handed (values as) org pre.length cols) = some xs →
      capacity t.columns < (texts ++ xs).flatten.length) (hf : texts.flatten.length ≤ capacity t.columns) :
    ∃ e c, populate A org pre.length cols as (Row.start texts cols.length) t = .error e { t with columns := c } ∧
      Counted c t.columns := by
  induction cols generalizing pre as texts t with
  | nil =>
    have := hs [] rfl
    rw [List.append_nil] at this
    omega
  | cons col cols ih =>
    rw [List.map_cons, List.nodup_cons] at hn
    have hcol := columns_at hc
    have hset := columns_set hc
    have hpl : (pre ++ [col.next]).length = pre.length + 1 := by rw [List.length_append]; rfl
    rw [populate_cons]
    by_cases ht : ∃ text, col.take A ((given (values as) col.name).getD (org.valueAt pre.length)) = some text ∧
        (Row.start texts (cols.length + 1)).data.length + text.length ≤ capacity t.columns
    · obtain ⟨text, ht, hlen⟩ := ht
      have hgiven : ∀ c ∈ cols, given (values (leave text col.name as)) c.name = given (values as) c.name := fun c hcm =>
        given_leave as fun hcn => hn.1 (List.mem_map.mpr ⟨c, hcm, hcn⟩)
      have hcap : capacity (t.columns.set pre.length col.next) = capacity t.columns := (counted_set hcol).capacity
      obtain ⟨e, c, hrun, hcounted⟩ := @ih (pre ++ [col.next]) (leave text col.name as) (texts ++ [text])
        { t with columns := t.columns.set pre.length col.next } hset (by rw [List.length_append, hpl, hl]; rfl) hn.2
        (fun xs hxs => by
          rw [handed_congr hgiven, hpl] at hxs
          rw [List.append_assoc]
          refine (Eq.le hcap).trans_lt (hs (text :: xs) ?_)
          simp only [storeAll, handed, ht, hxs, Option.bind_eq_bind, Option.bind_some])
        (by
          simp only [Row.start, List.flatten_append, List.flatten_singleton, List.length_append] at hlen ⊢
          exact hlen.trans hcap.ge)
      refine ⟨e, c, ?_, hcounted.trans (counted_set hcol)⟩
      rw [List.length_cons, bind_run (append_ok hcol ht hlen), ← hl, Row.start_put, hl, ← hpl, hrun]
    · obtain ⟨e, c, hrun, hcounted⟩ := append_error (A := A) (r := Row.start texts (cols.length + 1)) hcol fun text htext => by
        by_contra hle
        exact ht ⟨text, htext, by omega⟩
      exact ⟨e, c, bind_throw hrun, hcounted⟩

/-! ### The whole row -/

/-- What the statement does with a row that has been removed, if the columns take their values. -/
theorem populate_putBack {tbl : Name} {rights : List (Text × Cond)} {org upd : Row} {as : List Assignment} {t : Table}
    (hn : (t.columns.map Column.name).Nodup) (hh : List.Forall₂ (Held tbl) rights as)
    (ha : ∀ col ∈ t.columns, ∀ a ∈ rights, a.1 = col.name → col.isAutoInc = false)
    (hp : putBack A t.columns (values as) org = some upd) :
    ∃ as', populate A org 0 t.columns as (Row.empty t.columns.length) t =
        .ok (upd, as') { t with columns := t.columns.map Column.next } ∧ List.Forall₂ (Held tbl) rights as' := by
  obtain ⟨xs, hs, hx⟩ := Option.bind_eq_some_iff.mp hp
  split at hx
  · rename_i hf
    obtain rfl := Option.some.inj hx
    exact @populate_ok A tbl rights org [] t.columns as [] xs t rfl rfl hn hh ha hs hf
  · cases hx

/-- And if they do not. -/
theorem populate_not_putBack {org : Row} {as : List Assignment} {t : Table} (hn : (t.columns.map Column.name).Nodup)
    (hp : putBack A t.columns (values as) org = none) :
    ∃ e c, populate A org 0 t.columns as (Row.empty t.columns.length) t = .error e { t with columns := c } ∧
      Counted c t.columns := by
  refine @populate_error A org [] t.columns as [] t rfl rfl hn (fun xs hs => ?_) (Nat.zero_le _)
  by_contra hle
  rw [putBack, makeRow, show storeAll A t.columns (handed (values as) org 0 t.columns) = some xs from hs] at hp
  rw [List.nil_append] at hle
  simp only [Option.bind_eq_bind, Option.bind_some, if_pos (Nat.not_lt.mp hle)] at hp
  cases hp

end RedB.Dml
