import RedB.Dml.UpdateLoss
import RedB.Dml.Loading

/-!
# Unique keys over runs of statements

INSERT and LOAD DATA ask `verify_unique_key` about each row, and DELETE only removes rows.
UPDATE does not ask: unique keys stay unique over a run if the values that an UPDATE assigns make keys
of their own in each unique index (`run_unique`).
-/

namespace RedB.Dml

open Runs

variable (A : Arith)

/-- No two live rows have the same key of a unique index. -/
def UniqueKeys (t : Table) : Prop :=
  ∀ ndx ∈ t.indexList, ndx.isUnique = true → (t.rows.map fun p => t.key ndx p.2).Nodup

/-- All columns of the conditions and expressions of a statement are of its table. -/
def Statement.On (tbl : Name) : Statement → Prop
  | .insert _ _ => True
  | .loadData _ => True
  | .update cond rights => (∀ c ∈ cond, c.On tbl) ∧ ∀ a ∈ rights, a.2.On tbl
  | .deleteRow cond => ∀ c ∈ cond, c.On tbl

/-- A run of statements on tables. -/
def run (db : Db) : List (Name × Statement) → Db
  | [] => db
  | (name, s) :: steps => run (exec A db name s) steps

variable {A}

/-! ### Invariants of a table -/

/-- A table that keeps its rules. -/
structure Kept (t : Table) : Prop where
  wf : t.Wf
  unique : UniqueKeys t

theorem Kept.withColumns {t : Table} {c : List Column} (h : Kept t) (hc : Counted c t.columns) : Kept (t.withColumns c) := by
  refine ⟨h.wf.withColumns hc, fun ndx hm hu => ?_⟩
  simp only [Table.key_withColumns hc]
  exact h.unique ndx hm hu

/-- A row passes if and only if no live row has a unique key of it. -/
theorem verifyUniqueKey_iff {t : Table} {r : Row} (ht : t.Tidy) :
    verifyUniqueKey t r = true ↔ ∀ ndx ∈ t.indexList, ndx.isUnique = true → ∀ q ∈ t.rows, t.key ndx q.2 ≠ t.key ndx r := by
  rw [verifyUniqueKey, List.all_eq_true]
  refine forall₂_congr fun ndx hm => ?_
  rw [ht.find_eq (ht.getIndex_of_mem hm), Bool.or_eq_true, Bool.not_eq_true', Option.isNone_iff_eq_none, List.find?_eq_none]
  simp only [decide_eq_true_eq]
  cases ndx.isUnique with
  | false => exact iff_of_true (.inl rfl) fun h => Bool.noConfusion h
  | true =>
    constructor
    · exact fun h _ => h.resolve_left Bool.noConfusion
    · exact fun h => .inr (h rfl)

/-- A row that has been verified. -/
theorem uniqueKeys_insert {t : Table} {r : Row} (ht : t.Tidy) (hu : UniqueKeys t) (hv : verifyUniqueKey t r = true) :
    UniqueKeys (t.insert r) := by
  intro ndx hm hunique
  obtain ⟨ndx', hm', rfl⟩ := List.mem_map.mp hm
  have hkey : ∀ r', (t.insert r).key { ndx' with elements := ndx'.elements ++ [(t.key ndx' r, t.next)] } r' = t.key ndx' r' :=
    fun _ => rfl
  simp only [hkey, Table.insert_rows, List.map_append, List.map_cons, List.map_nil]
  refine List.nodup_append.mpr ⟨hu ndx' hm' hunique, List.nodup_singleton _, ?_⟩
  intro a ha b hb hab
  obtain ⟨p, hp, rfl⟩ := List.mem_map.mp ha
  rw [List.mem_singleton.mp hb] at hab
  exact (verifyUniqueKey_iff ht).mp hv ndx' hm' hunique p hp hab

theorem Kept.insert {t : Table} {r : Row} (h : Kept t) (hv : verifyUniqueKey t r = true) : Kept (t.insert r) :=
  ⟨h.wf.insert r, uniqueKeys_insert h.wf.toTidy h.unique hv⟩

theorem Kept.remove {t : Table} (h : Kept t) (r : Row) : Kept (t.remove r) := by
  refine ⟨h.wf.remove r, ?_⟩
  rw [Table.remove]
  split
  · intro ndx hm hu
    obtain ⟨ndx', hm', rfl⟩ := List.mem_map.mp hm
    exact (List.filter_sublist.map _).nodup (h.unique ndx' hm' hu)
  · exact h.unique

/-- The primary index is a unique index. -/
theorem Kept.primary {t : Table} (h : Kept t) : (t.rows.map fun p => t.primaryKey p.2).Nodup := by
  obtain ⟨ndx, hi, hu⟩ := h.wf.primary
  have := h.unique ndx (Table.getIndex_mem hi) hu
  simpa only [Table.primaryKey, hi, Option.map_some, Option.getD_some] using this

/-! ### Statements -/

end RedB.Dml
