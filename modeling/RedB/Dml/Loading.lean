import RedB.Dml.Update

/-!
# Rows that are loaded

`vm::load_row` appends one value for each column. The row that comes out is made of what was left in
its buffer and of what the columns make of their values, whatever the sizes in it were (`loadRow_fillRow`).
-/

namespace RedB.Dml

open Runs

variable (A : Arith)

/-- The row that is made of values behind what is left in its buffer, nothing if a column does not take
its value or there is no room. -/
def fillRow (cols : List Column) (left : Text) (values : List Text) : Option Row := do
  let texts ← storeAll A cols values
  if left.length + texts.flatten.length ≤ capacity cols then
    some { sizes := texts.map fun text => text.length % 256, data := left ++ texts.flatten }
  else none

/-- A row of these texts behind what is left in its buffer, with the sizes that have not been set yet. -/
def Row.behind (left : Text) (texts : List Text) (sizes : List ℕ) : Row :=
  { sizes := texts.map (fun text => text.length % 256) ++ sizes, data := left ++ texts.flatten }

/-- The table when the counters of all columns have advanced. -/
def Table.advance (t : Table) : Table := t.withColumns (t.columns.map Column.next)

variable {A} {cols : List Column} {values : List Text} {t t' : Table} {r rw_ : Row}

/-! ### Counters -/

/-- An append changes nothing but counters. -/
theorem append_after (i : ℕ) (value : Text) (r : Row) (t : Table) :
    ∃ c, after (append A i value r t) = t.withColumns c ∧ Counted c t.columns := by
  cases hc : t.columns[i]? with
  | none =>
    refine ⟨t.columns, ?_, rfl⟩
    rw [append, get_bind, hc]
    rfl
  | some col =>
    rw [append_eq hc]
    cases col.accepts A value with
    | false => exact ⟨t.columns, rfl, rfl⟩
    | true =>
      cases col.store A value with
      | none => exact ⟨_, rfl, counted_set hc⟩
      | some text =>
        dsimp only
        split
        · exact ⟨_, rfl, counted_set hc⟩
        · exact ⟨_, rfl, counted_set hc⟩

/-- Loading a row changes nothing but counters. -/
theorem loadRow_after (i : ℕ) (values : List Text) (r : Row) (t : Table) :
    ∃ c, after (loadRow A i values r t) = t.withColumns c ∧ Counted c t.columns := by
  induction values generalizing i r t with
  | nil => exact ⟨t.columns, rfl, rfl⟩
  | cons value values ih =>
    obtain ⟨c, hc, hcounted⟩ := append_after (A := A) i value r t
    rw [loadRow]
    cases hr : append A i value r t with
    | error e t' =>
      rw [hr, after_error] at hc
      rw [bind_throw hr, after_error]
      exact ⟨c, hc, hcounted⟩
    | ok p t' =>
      rw [hr, after_ok] at hc
      rw [bind_run hr]
      obtain ⟨c', hc', hcounted'⟩ := ih (i + 1) p.1 t'
      subst hc
      exact ⟨c', hc', hcounted'.trans hcounted⟩

theorem append_counters {i : ℕ} {col : Column} (hc : t.columns[i]? = some col) (ha : col.isAutoInc = false) :
    { t with columns := t.columns.set i col.next } = t := by
  have hnext : col.next = col := by rw [Column.next, ha, if_neg (by decide)]
  obtain ⟨hi, rfl⟩ := List.getElem?_eq_some_iff.mp hc
  rw [hnext, List.set_getElem_self]

/-- A table has nothing to advance if and only if it has no counters. -/
theorem Table.advance_eq : t.advance = t ↔ ∀ col ∈ t.columns, col.isAutoInc = false := by
  constructor
  · intro h col hm
    have hmap : t.columns.map Column.next = t.columns.map id := (congrArg Table.columns h).trans (List.map_id _).symm
    have hnext : col.next = col := List.map_inj_left.mp hmap col hm
    by_contra hauto
    rw [Bool.not_eq_false] at hauto
    have hcount := congrArg Column.autoInc hnext
    rw [Column.next, if_pos hauto] at hcount
    exact absurd hcount (by dsimp only; omega)
  · intro hauto
    rw [Table.advance, (List.map_congr_left fun col hm => ?_).trans (List.map_id _)]
    · rfl
    · rw [Column.next, hauto col hm, if_neg (by decide)]
      rfl

/-! ### Texts of columns -/

theorem length_storeAll {texts : List Text} (h : storeAll A cols values = some texts) : texts.length = cols.length := by
  induction cols generalizing values texts with
  | nil =>
    obtain rfl := Option.some.inj h
    rfl
  | cons col cols ih =>
    cases values with
    | nil => cases h
    | cons value values =>
      obtain ⟨text, -, h'⟩ := Option.bind_eq_some_iff.mp h
      obtain ⟨rest, hrest, hcons⟩ := Option.bind_eq_some_iff.mp h'
      obtain rfl := Option.some.inj hcons
      rw [List.length_cons, List.length_cons, ih hrest]

/-- The texts of the columns are those of the first one and of the others. -/
theorem storeAll_cons {col : Column} {value : Text} {texts : List Text} :
    storeAll A (col :: cols) (value :: values) = some texts ↔
      ∃ text rest, col.take A value = some text ∧ storeAll A cols values = some rest ∧ texts = text :: rest := by
  rw [storeAll, Option.bind_eq_bind, Option.bind_eq_some_iff]
  constructor
  · rintro ⟨text, ht, h⟩
    obtain ⟨rest, hr, h⟩ := Option.bind_eq_some_iff.mp h
    exact ⟨text, rest, ht, hr, (Option.some.inj h).symm⟩
  · rintro ⟨text, rest, ht, hr, rfl⟩
    exact ⟨text, ht, Option.bind_eq_some_iff.mpr ⟨rest, hr, rfl⟩⟩

theorem fillRow_iff {left : Text} : fillRow A cols left values = some r ↔
    ∃ texts, storeAll A cols values = some texts ∧ left.length + texts.flatten.length ≤ capacity cols ∧ r = Row.behind left texts [] := by
  rw [fillRow, Option.bind_eq_bind, Option.bind_eq_some_iff]
  refine exists_congr fun texts => and_congr_right fun _ => ?_
  rw [Option.ite_none_right_eq_some, Option.some.injEq, eq_comm (a := r), Row.behind, List.append_nil]

/-- A row that is made has the texts of its columns. -/
theorem makeRow_iff : makeRow A cols values = some r ↔
    ∃ texts, storeAll A cols values = some texts ∧ texts.flatten.length ≤ capacity cols ∧ r = Row.ofTexts texts := by
  rw [makeRow, Option.bind_eq_bind, Option.bind_eq_some_iff]
  refine exists_congr fun texts => and_congr_right fun _ => ?_
  rw [Option.ite_none_right_eq_some, Option.some.injEq, eq_comm (a := r)]

/-- Behind nothing it is the row of the values alone. -/
theorem fillRow_nil (cols : List Column) (values : List Text) : fillRow A cols [] values = makeRow A cols values := by
  rw [fillRow, makeRow]
  simp only [List.length_nil, Nat.zero_add, List.nil_append, Row.ofTexts]

theorem length_fillRow {left : Text} (h : fillRow A cols left values = some r) : r.sizes.length = cols.length := by
  obtain ⟨texts, hst, -, rfl⟩ := fillRow_iff.mp h
  rw [Row.behind, List.append_nil, List.length_map, length_storeAll hst]

theorem length_makeRow (h : makeRow A cols values = some r) : r.sizes.length = cols.length :=
  length_fillRow ((fillRow_nil cols values).trans h)

/-! ### Runs -/

theorem Row.behind_put (left : Text) (texts : List Text) (size : ℕ) (sizes : List ℕ) (text : Text) :
    (Row.behind left texts (size :: sizes)).put texts.length text = Row.behind left (texts ++ [text]) sizes := by
  have hl : (texts.map fun text => text.length % 256).length = texts.length := List.length_map ..
  rw [Row.put, Row.behind, Row.behind, List.set_append_right _ _ hl.le, hl, Nat.sub_self, List.set_cons_zero, List.map_append,
    List.append_assoc, List.flatten_append, List.flatten_singleton, List.append_assoc]
  rfl

/-- Values that are appended one after the other. -/
theorem loadRow_behind {left : Text} {pre : List Text} {before : List Column} {sizes : List ℕ} (hcols : t.columns = before ++ cols)
    (hpre : before.length = pre.length) (hs : sizes.length = cols.length) (hlen : values.length = cols.length)
    (hcap : left.length + pre.flatten.length ≤ capacity t.columns) :
    loadRow A pre.length values (Row.behind left pre sizes) t = .ok r t' ↔
      ∃ texts, storeAll A cols values = some texts ∧ left.length + (pre ++ texts).flatten.length ≤ capacity t.columns ∧
        r = Row.behind left (pre ++ texts) [] ∧ t' = t.withColumns (before ++ cols.map Column.next) := by
  induction cols generalizing pre before sizes values t with
  | nil =>
    obtain rfl := List.length_eq_zero_iff.mp hlen
    obtain rfl := List.length_eq_zero_iff.mp hs
    have hsame : t.withColumns (before ++ List.map Column.next []) = t := by
      rw [List.map_nil, ← hcols]
      rfl
    rw [loadRow, pure_ok, hsame]
    constructor
    · rintro ⟨rfl, rfl⟩
      exact ⟨[], rfl, by rwa [List.append_nil], by rw [List.append_nil], rfl⟩
    · rintro ⟨texts, hst, -, rfl, rfl⟩
      obtain rfl := Option.some.inj hst
      exact ⟨by rw [List.append_nil], rfl⟩
  | cons col cols ih =>
    obtain ⟨value, values, rfl⟩ := List.exists_cons_of_length_eq_add_one hlen
    obtain ⟨size, sizes, rfl⟩ := List.exists_cons_of_length_eq_add_one hs
    have hcol : t.columns[pre.length]? = some col := hpre ▸ columns_at hcols
    have hset : t.columns.set pre.length col.next = (before ++ [col.next]) ++ cols := hpre ▸ columns_set hcols
    have hsame : capacity (t.columns.set pre.length col.next) = capacity t.columns := (counted_set hcol).capacity
    have hdata : (Row.behind left pre (size :: sizes)).data.length = left.length + pre.flatten.length := List.length_append
    have hassoc : ∀ text rest, pre ++ text :: rest = (pre ++ [text]) ++ rest := fun text rest => by rw [List.append_assoc]; rfl
    by_cases htake : ∃ text, col.take A value = some text ∧ left.length + pre.flatten.length + text.length ≤ capacity t.columns
    · obtain ⟨text, ht, hroom⟩ := htake
      have happ := append_ok (r := Row.behind left pre (size :: sizes)) hcol ht (by rwa [hdata])
      rw [Row.behind_put] at happ
      have hrest := @ih values { t with columns := t.columns.set pre.length col.next } (pre ++ [text]) (before ++ [col.next]) sizes hset
        (by rw [List.length_append, List.length_append, hpre]; rfl) (Nat.succ.inj hs) (Nat.succ.inj hlen) (by
          rw [List.flatten_append, List.length_append, List.flatten_singleton, ← Nat.add_assoc]
          exact hroom.trans hsame.ge)
      rw [List.length_append, hsame] at hrest
      rw [loadRow, bind_run happ]
      refine hrest.trans ⟨?_, ?_⟩
      · rintro ⟨rest, hr, hfits, rfl, rfl⟩
        refine ⟨text :: rest, storeAll_cons.mpr ⟨text, rest, ht, hr, rfl⟩, ?_, ?_, ?_⟩
        · rwa [hassoc text rest]
        · rw [hassoc text rest]
        · rw [List.append_assoc]
          rfl
      · rintro ⟨texts, hst, hfits, rfl, rfl⟩
        obtain ⟨text', rest, ht', hr, rfl⟩ := storeAll_cons.mp hst
        obtain rfl := Option.some.inj (ht.symm.trans ht')
        refine ⟨rest, hr, ?_, ?_, ?_⟩
        · rwa [← hassoc text rest]
        · rw [hassoc text rest]
        · rw [List.append_assoc]
          rfl
    · obtain ⟨e, c, herr, -⟩ := append_error (r := Row.behind left pre (size :: sizes)) hcol fun text ht =>
        not_le.mp fun hle => htake ⟨text, ht, by rwa [hdata] at hle⟩
      rw [loadRow, bind_throw herr]
      constructor
      · intro h
        cases h
      · rintro ⟨texts, hst, hfits, -⟩
        obtain ⟨text, rest, ht, -, rfl⟩ := storeAll_cons.mp hst
        refine absurd ⟨text, ht, ?_⟩ htake
        rw [List.flatten_append, List.flatten_cons, List.length_append, List.length_append] at hfits
        omega

/-- A row takes the values of all columns if and only if they make a row behind what is left in its
buffer. The counters advance. -/
theorem loadRow_fillRow (hs : rw_.sizes.length = t.columns.length) (hlen : values.length = t.columns.length)
    (hcap : rw_.data.length ≤ capacity t.columns) :
    loadRow A 0 values rw_ t = .ok r t' ↔ fillRow A t.columns rw_.data values = some r ∧ t' = t.advance := by
  have hrow : rw_ = Row.behind rw_.data [] rw_.sizes := by
    rw [Row.behind, List.flatten_nil, List.append_nil]
    rfl
  have hrun := @loadRow_behind A t.columns values t t' r rw_.data [] [] rw_.sizes rfl rfl hs hlen (by simpa using hcap)
  rw [← hrow] at hrun
  rw [fillRow_iff]
  refine hrun.trans ⟨?_, ?_⟩
  · rintro ⟨texts, hst, hfits, rfl, rfl⟩
    exact ⟨⟨texts, hst, hfits, rfl⟩, rfl⟩
  · rintro ⟨⟨texts, hst, hfits, rfl⟩, rfl⟩
    exact ⟨texts, hst, hfits, rfl, rfl⟩

/-- A cleared row takes the values of a line if and only if a row is made of them. -/
theorem loadRow_makeRow (hdata : rw_.data = []) (hs : rw_.sizes.length = t.columns.length) (hlen : values.length = t.columns.length) :
    loadRow A 0 values rw_ t = .ok r t' ↔ makeRow A t.columns values = some r ∧ t' = t.advance := by
  rw [loadRow_fillRow hs hlen (by rw [hdata]; exact Nat.zero_le _), hdata, fillRow_nil]

/-- Without counters the table stays as it is. -/
theorem loadRow_iff (hauto : ∀ col ∈ t.columns, col.isAutoInc = false) (hdata : rw_.data = [])
    (hs : rw_.sizes.length = t.columns.length) (hlen : values.length = t.columns.length) :
    loadRow A 0 values rw_ t = .ok r t' ↔ makeRow A t.columns values = some r ∧ t' = t := by
  rw [loadRow_makeRow hdata hs hlen, Table.advance_eq.mpr hauto]

end RedB.Dml
