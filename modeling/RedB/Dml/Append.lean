import RedB.Dml.Statements
import RedB.Theory.Runs

/-!
# Rows made column by column

A row is made by one append for each column. The columns take the values one after the other,
each with its counter as it stands (`storeAll`); the row has these texts behind one another
(`Row.ofTexts`) and the counters have advanced by one (`append_ok`). A row that is not made
leaves nothing but counters behind (`append_error`).
-/

namespace RedB.Dml

open Runs

variable (A : Arith)

/-! ### Counters -/

/-- A column without its counter. -/
def Column.base (col : Column) : Column := { col with autoInc := 0 }

@[simp] theorem Column.next_base (col : Column) : col.next.base = col.base := by
  unfold Column.next
  split <;> rfl

@[simp] theorem Column.next_name (col : Column) : col.next.name = col.name := by
  unfold Column.next
  split <;> rfl

@[simp] theorem Column.next_isAutoInc (col : Column) : col.next.isAutoInc = col.isAutoInc := by
  unfold Column.next
  split <;> rfl

theorem columnPos_base (columns : List Column) (name : Text) : columnPos (columns.map Column.base) name = columnPos columns name := by
  rw [columnPos, columnPos, List.findIdx?_map]
  rfl

theorem makeKey_base (columns : List Column) (l : List Text) (r : Row) : makeKey (columns.map Column.base) l r = makeKey columns l r := by
  simp only [makeKey, columnPos_base, List.getElem?_map, Option.map_map]
  rfl

/-- The same columns, with other counters. -/
def Counted (c c' : List Column) : Prop := c.map Column.base = c'.map Column.base

theorem Counted.columnPos {c c' : List Column} (h : Counted c c') (name : Text) : columnPos c name = columnPos c' name := by
  rw [← columnPos_base, h, columnPos_base]

theorem Counted.makeKey {c c' : List Column} (h : Counted c c') (l : List Text) (r : Row) : makeKey c l r = makeKey c' l r := by
  rw [← makeKey_base, h, makeKey_base]

theorem Counted.length {c c' : List Column} (h : Counted c c') : c.length = c'.length := by
  have := congrArg List.length h
  rwa [List.length_map, List.length_map] at this

theorem Counted.capacity {c c' : List Column} (h : Counted c c') : capacity c = capacity c' := by
  have hb : ∀ c : List Column, (c.map Column.base).map Column.size = c.map Column.size := fun c => by
    rw [List.map_map]
    rfl
  rw [Dml.capacity, Dml.capacity, ← hb c, ← hb c', h]

theorem Counted.names {c c' : List Column} (h : Counted c c') : c.map Column.name = c'.map Column.name := by
  have hb : ∀ c : List Column, (c.map Column.base).map Column.name = c.map Column.name := fun c => by
    rw [List.map_map]
    rfl
  rw [← hb c, ← hb c', h]

theorem counted_next (c : List Column) : Counted (c.map Column.next) c := by
  rw [Counted, List.map_map]
  exact List.map_congr_left fun col _ => col.next_base

theorem counted_set {cols : List Column} {i : ℕ} {col : Column} (h : cols[i]? = some col) : Counted (cols.set i col.next) cols := by
  rw [Counted, List.map_set, Column.next_base]
  obtain ⟨hi, rfl⟩ := List.getElem?_eq_some_iff.mp h
  rw [← List.getElem_map Column.base (h := by rwa [List.length_map]), List.set_getElem_self]

theorem columns_at {columns pre cols : List Column} {col : Column} (h : columns = pre ++ col :: cols) :
    columns[pre.length]? = some col := by
  rw [h, List.getElem?_append_right le_rfl, Nat.sub_self]
  rfl

theorem columns_set {columns pre cols : List Column} {col : Column} (h : columns = pre ++ col :: cols) :
    columns.set pre.length col.next = (pre ++ [col.next]) ++ cols := by
  rw [h, List.set_append_right _ _ le_rfl, Nat.sub_self, List.set_cons_zero, List.append_assoc]
  rfl

/-! ### Values that are taken -/

/-- What a column makes of a value, nothing if it does not take it. -/
def Column.take (col : Column) (value : Text) : Option Text := if col.accepts A value then col.store A value else none

/-- What the columns make of their values. -/
def storeAll : List Column → List Text → Option (List Text)
  | [], _ => some []
  | _ :: _, [] => none
  | col :: cols, value :: values => do
      let text ← col.take A value
      let texts ← storeAll cols values
      some (text :: texts)

/-- The row of these texts, before there are texts for the last `n` columns. -/
def Row.start (texts : List Text) (n : ℕ) : Row :=
  { sizes := texts.map (fun text => text.length % 256) ++ List.replicate n 0, data := texts.flatten }

/-- The row of these texts. -/
def Row.ofTexts (texts : List Text) : Row := { sizes := texts.map fun text => text.length % 256, data := texts.flatten }

/-- The row that the columns make of their values. -/
def makeRow (cols : List Column) (values : List Text) : Option Row := do
  let texts ← storeAll A cols values
  if texts.flatten.length ≤ capacity cols then some (Row.ofTexts texts) else none

theorem Row.start_zero (texts : List Text) : Row.start texts 0 = Row.ofTexts texts := by
  rw [Row.start, Row.ofTexts, List.replicate_zero, List.append_nil]

theorem Row.start_put (texts : List Text) (n : ℕ) (text : Text) :
    (Row.start texts (n + 1)).put texts.length text = Row.start (texts ++ [text]) n := by
  rw [Row.put, Row.start, Row.start]
  congr 1
  · have hl : (texts.map fun text => text.length % 256).length = texts.length := List.length_map ..
    rw [List.set_append_right _ _ (by rw [hl]), hl, Nat.sub_self, List.replicate_succ, List.set_cons_zero, List.map_append,
      List.append_assoc]
    rfl
  · rw [List.flatten_append, List.flatten_singleton]

/-! ### Appends -/

variable {A}

theorem Counted.trans {c c' c'' : List Column} (h : Counted c c') (h' : Counted c' c'') : Counted c c'' := Eq.trans h h'

/-- An append to a column that there is. -/
theorem append_eq {t : Table} {i : ℕ} {col : Column} (hc : t.columns[i]? = some col) (value : Text) (r : Row) :
    append A i value r t =
      match col.accepts A value, col.store A value with
      | false, _ => .error .value t
      | true, none => .error .number { t with columns := t.columns.set i col.next }
      | true, some text =>
          if r.data.length + text.length ≤ capacity t.columns then
            .ok (r.put i text, text) { t with columns := t.columns.set i col.next }
          else .error .overrun { t with columns := t.columns.set i col.next } := by
  rw [append, get_bind, hc]
  dsimp only
  cases col.accepts A value with
  | false => rfl
  | true =>
    rw [if_pos rfl, set_bind]
    cases col.store A value with
    | none => rfl
    | some text =>
      dsimp only
      split <;> rfl

/-- An append of a value that the column takes, where there is room. -/
theorem append_ok {t : Table} {i : ℕ} {col : Column} {value text : Text} {r : Row} (hc : t.columns[i]? = some col)
    (ht : col.take A value = some text) (hr : r.data.length + text.length ≤ capacity t.columns) :
    append A i value r t = .ok (r.put i text, text) { t with columns := t.columns.set i col.next } := by
  rw [append_eq hc]
  unfold Column.take at ht
  split at ht
  · rename_i ha
    rw [ha, ht]
    exact if_pos hr
  · cases ht

/-- All other appends throw; the table keeps all but counters. -/
theorem append_error {t : Table} {i : ℕ} {col : Column} {value : Text} {r : Row} (hc : t.columns[i]? = some col)
    (ht : ∀ text, col.take A value = some text → capacity t.columns < r.data.length + text.length) :
    ∃ e c, append A i value r t = .error e { t with columns := c } ∧ Counted c t.columns := by
  rw [append_eq hc]
  unfold Column.take at ht
  cases ha : col.accepts A value with
  | false => exact ⟨.value, t.columns, rfl, rfl⟩
  | true =>
    cases hs : col.store A value with
    | none => exact ⟨.number, _, rfl, counted_set hc⟩
    | some text =>
      have := ht text (by rw [if_pos ha, hs])
      exact ⟨.overrun, _, if_neg (by omega), counted_set hc⟩

end RedB.Dml
