import RedB.Dml.IndexJoin

/-!
# Queries

A SELECT goes over the tables in the order of the list: for every row of the first one over those of the second,
and so on. The items of the conditions and of the expressions are shared by all these loops. Each loop sets the values
of its row in them, and what a deeper loop has set stays until it is set again.

Only the first join of the list can be an outer one: behind it a left join is carried out as an inner one. And what
decides that a row of the first table is without a match is that nothing has been put out for it.

The list is the one that `make_query` leaves. Whether the query has an inner join is asked before the list is turned
around, so the flag is a parameter (`RedB.haveInnerJoin`). What is put out are the values of the expressions: their
formats and the sort by the columns of ORDER BY come later.
-/

namespace RedB.Dml

/-- A table of the list behind the first one. -/
structure Joined where
  table : Table
  /-- `m_action` is `TYPE_LTJOIN`, and not `TYPE_INJOIN`. -/
  isLeft : Bool
  /-- The place of `m_opt_prev` or `m_prev` in the list. -/
  prev : ℕ
  /-- `m_fgn_name`, if there is an index for the join. -/
  fgnName : Option Text
  /-- `m_on_cond`, as it was made. -/
  onCond : Cond

/-- A row of a table of the list. -/
abbrev Placed := Table × (ℕ × Row)

/-- The values of a row. -/
def Placed.view (p : Placed) : View := p.1.view p.2.2

/-- The items of a query that hold values, and what has been put out. -/
structure Query where
  /-- `m_expr_list`; the columns of ORDER BY come first. -/
  exprs : List Cond
  /-- `m_where` -/
  cond : Option Cond
  /-- `m_on_cond` of the tables behind the first. -/
  ons : ℕ → Cond
  /-- `m_did_output` -/
  didOutput : Bool
  /-- The values of the expressions, for each row that has been put out. -/
  output : List (List Text)

/-- `vm::set_column_value_null` -/
def setColumnValueNull : Cond → Cond
  | .value type value => .value type value
  | .column tbl colName type negate _ => .column tbl colName type negate NULL_VALUE
  | .op op left right => .op op (setColumnValueNull left) (setColumnValueNull right)

variable (A : Arith)

namespace Query

/-- Values are set in the expressions and in the WHERE condition. -/
def setValues (set : Cond → Option Cond) (q : Query) : Option Query := do
  let exprs ← q.exprs.mapM set
  let cond ← q.cond.mapM set
  some { q with exprs, cond }

/-- The values of the expressions are null. -/
def setNull (q : Query) : Query := { q with exprs := q.exprs.map setColumnValueNull }

/-- `vm::output_expr_list` -/
def outputExprList (q : Query) : Option Query := do
  let line ← q.exprs.mapM (execCondition A)
  some { q with didOutput := true, output := q.output ++ [line] }

/-- `vm::exec_where`, or the output if there is no condition. -/
def execWhere (q : Query) : Option Query :=
  match q.cond with
  | none => q.outputExprList A
  | some c => do
      let res ← execCondition A c
      if res = "true".toList then q.outputExprList A else some q

end Query

namespace Joined

/-- The foreign key of the index, of the table whose row is at hand. -/
def foreign (j : Joined) (lt : Table) : Option (Option Foreign) :=
  match j.fgnName with
  | none => some none
  | some name => (lt.getForeign name).map some

/-- The rows that are tested: all of the table, or the one that is looked up. -/
def candidates (j : Joined) (l : Placed) : Option Foreign → Option (List Placed)
  | none => some (j.table.rows.map fun r => (j.table, r))
  | some fgn => do
      let key ← probeKey l.1 fgn l.2.2
      some ((j.table.find PK_NDX key).toList.map fun r => (j.table, r))

end Joined

/-- The test of a row in the loop of table `i`, and what comes behind it. -/
def tryRow (set : Cond → Option Cond) (next : Query → Option Query) (i : ℕ) (l r : View) (q : Query) : Option Query := do
  let (on, res) ← testOn A l r (q.ons i)
  let q := { q with ons := Function.update q.ons i on }
  if res then do
    let q ← q.setValues set
    next q
  else some q

/-- `vm::exec_join` behind the second table: `vm::exec_inner_join_x_0` and `vm::exec_inner_join_x_1`, and the same for
left joins. The rows are those of the tables before table `i`. -/
def execJoin : List Joined → ℕ → List Placed → Query → Option Query
  | [], _, _, q => q.execWhere A
  | j :: js, i, rows, q => do
      let l ← rows[j.prev]?
      let fgn ← j.foreign l.1
      let cand ← j.candidates l fgn
      cand.foldlM (fun q r => tryRow A (setColumnValue A r.view) (execJoin js (i + 1) (rows ++ [r])) i l.view r.view q) q

/-- The loop over the second table, for a row of the first one. -/
def execRow (j : Joined) (js : List Joined) (fgn : Option Foreign) (l : Placed) (q : Query) : Option Query := do
  let cand ← j.candidates l fgn
  cand.foldlM (fun q r => tryRow A (setColumnValues A l.view r.view) (execJoin A js 2 [l, r]) 1 l.view r.view q) q

/-- `vm::exec_inner_join_0_0` and `vm::exec_inner_join_0_1` -/
def execInnerJoin0 (j : Joined) (js : List Joined) (fgn : Option Foreign) (l : Placed) (q : Query) : Option Query :=
  execRow A j js fgn l q.setNull

/-- `vm::exec_left_join_0_0` and `vm::exec_left_join_0_1`; the flag is `m_have_inner_join`. -/
def execLeftJoin0 (haveInner : Bool) (j : Joined) (js : List Joined) (fgn : Option Foreign) (l : Placed) (q : Query) : Option Query := do
  let q ← execRow A j js fgn l { q.setNull with didOutput := false }
  if !q.didOutput && !haveInner then do
    let exprs ← q.exprs.mapM (setColumnValue A l.view)
    Query.outputExprList A { q with exprs }
  else some q

/-- `vm::exec_query`, for a row. -/
def execQuery (l : Placed) (q : Query) : Option Query := do
  let q ← q.setNull.setValues (setColumnValue A l.view)
  q.execWhere A

/-- The loops of `vm::select`; the flag is `m_have_inner_join`. -/
def select (haveInner : Bool) (head : Table) (joins : List Joined) (q : Query) : Option Query :=
  let rows := head.rows.map fun r => ((head, r) : Placed)
  match joins with
  | [] => rows.foldlM (fun q l => execQuery A l q) q
  | j :: js => do
      let fgn ← j.foreign head
      rows.foldlM (fun q l =>
        if j.isLeft then execLeftJoin0 A haveInner j js fgn l q else execInnerJoin0 A j js fgn l q) q

/-! ### What is meant -/

/-- The condition of a join, of the rows of the tables before it and one of its table. -/
def Joined.on (j : Joined) (rows : List Placed) (r : Placed) : Bool :=
  match rows[j.prev]? with
  | none => false
  | some l => holds A l.1 r.1 j.onCond l.2 r.2 = some true

/-- The rows of a table. -/
def Table.placed (t : Table) : List Placed := t.rows.map fun r => (t, r)

/-- The rows of the joined table that go with those of the tables before it. -/
def matching (j : Joined) (rows : List Placed) : List Placed := j.table.placed.filter (j.on A rows)

/-- All rows that begin with some rows and meet the conditions of the joins. -/
def joinedRows : List Joined → List Placed → List (List Placed)
  | [], rows => [rows]
  | j :: js, rows => (matching A j rows).flatMap fun r => joinedRows js (rows ++ [r])

/-- The rows that the loops behind some rows set, in their order. -/
def visited : List Joined → List Placed → List Placed
  | [], _ => []
  | j :: js, rows => (matching A j rows).flatMap fun r => r :: visited js (rows ++ [r])

/-- Every row of every table with those of the others. -/
def tuples : List Table → List (List Placed)
  | [] => [[]]
  | t :: ts => t.placed.flatMap fun r => (tuples ts).map (r :: ·)

/-- The conditions of all joins, of the rows of the tables before them and those of their tables. -/
def meets : List Joined → List Placed → List Placed → Bool
  | j :: js, rows, r :: rest => j.on A rows r && meets js (rows ++ [r]) rest
  | _, _, _ => true

/-- The values by tables. -/
abbrev Seen := Name → Option View

namespace Seen

/-- No values. -/
def nowhere : Seen := fun _ => none

/-- The values of a row are set last. -/
def set (ρ : Seen) (v : View) : Seen := Function.update ρ v.tbl (some v)

/-- The values of some rows are set, one after the other. -/
def overlay (ρ : Seen) (vs : List View) : Seen := vs.foldl set ρ

/-- All values are of rows of these tables. -/
def Of (N : List Table) (ρ : Seen) : Prop := ∀ n v, ρ n = some v → ∃ t ∈ N, t.name = n ∧ ∃ r ∈ t.rows, v = t.view r.2

/-- The values of these rows are set. -/
def Covers (ρ : Seen) (rows : List Placed) : Prop := ∀ p ∈ rows, ρ p.1.name = some p.view

end Seen

/-- The values of some rows and no others. -/
def seen (rows : List Placed) : Seen := Seen.nowhere.overlay (rows.map Placed.view)

/-- An item with values that have been set. -/
def fill (ρ : Seen) : Cond → Option Cond
  | .value type value => some (.value type value)
  | .column tbl colName type negate value =>
      match ρ tbl with
      | none => some (.column tbl colName type negate value)
      | some v => do
          let new ← v.valueAt colName
          let value ← setValue A type negate value new
          some (.column tbl colName type negate value)
  | .op op left right => do
      let left ← fill ρ left
      let right ← fill ρ right
      some (.op op left right)

/-- The value of an expression for these values. -/
def evalAt (ρ : Seen) (c : Cond) : Option Text := (fill A ρ c).bind (execCondition A)

namespace Query

/-- The WHERE condition is true of joined rows. -/
def accepts (q : Query) (rows : List Placed) : Bool := q.cond.all fun c => evalAt A (seen rows) c = some "true".toList

/-- The values of the expressions. -/
def line (q : Query) (ρ : Seen) : List Text := q.exprs.map fun e => (evalAt A ρ e).getD []

/-- What is to be put out for the joined rows that begin with some rows. -/
def lines (q : Query) (js : List Joined) (rows : List Placed) : List (List Text) :=
  ((joinedRows A js rows).filter (q.accepts A)).map fun rows => q.line A (seen rows)

/-- An inner join of all tables: the rows that meet all conditions. -/
def innerJoins (q : Query) (head : Table) (joins : List Joined) : List (List Text) :=
  head.placed.flatMap fun l => (((tuples (joins.map Joined.table)).filter fun rest =>
    meets A joins [l] rest && q.accepts A (l :: rest)).map fun rest => q.line A (seen (l :: rest)))

/-- The left join of two tables: a row without a match stands alone. -/
def leftJoin (q : Query) (head : Table) (j : Joined) : List (List Text) :=
  head.placed.flatMap fun l =>
    let found := if matching A j [l] = [] then [[l]] else (matching A j [l]).map fun r => [l, r]
    (found.filter (q.accepts A)).map fun rows => q.line A (seen rows)

/-- The rows that are set for a row of the first table and stay, whether anything is put out for them or not. -/
def tried (j : Joined) (js : List Joined) (l : Placed) : List Placed :=
  (matching A j [l]).flatMap fun r => l :: r :: visited A js [l, r]

/-- The line for a row of the first table for which nothing else is put out. -/
def leftLine (q : Query) (j : Joined) (js : List Joined) (l : Placed) : List Text :=
  q.line A ((Seen.nowhere.overlay ((tried A j js l).map Placed.view)).set l.view)

end Query

/-! ### What can be evaluated -/

/-- The condition of a join has a value for all rows, and if there is an index it finds all rows that meet it. -/
structure Joined.Ok (j : Joined) (lt : Table) : Prop where
  conds : ∀ l ∈ lt.rows, ∀ r ∈ j.table.rows, holds A lt j.table j.onCond l r ≠ none
  index : ∀ name, j.fgnName = some name →
    j.table.Wf ∧ ∃ fgn, lt.getForeign name = some fgn ∧ ∀ l ∈ lt.rows, LooksUp A lt j.table fgn j.onCond l

/-- So for all joins of a list, behind some tables. -/
def JoinsOk : List Joined → List Table → Prop
  | [], _ => True
  | j :: js, ts => (∃ lt, ts[j.prev]? = some lt ∧ j.Ok A lt) ∧ JoinsOk js (ts ++ [j.table])

/-- No condition and no expression throws, whatever rows have been set in them. -/
def Query.Total (q : Query) (N : List Table) : Prop :=
  ∀ ρ, Seen.Of N ρ → (∀ e ∈ q.exprs, evalAt A ρ e ≠ none) ∧ ∀ c ∈ q.cond, evalAt A ρ c ≠ none

/-- A query as it was made, none of whose conditions and expressions throws. -/
structure Query.Evaluable (q : Query) (head : Table) (joins : List Joined) : Prop where
  exprsMade : ∀ e ∈ q.exprs, setColumnValueNull e = e
  condMade : ∀ c ∈ q.cond, setColumnValueNull c = c
  onsMade : ∀ i j, joins[i]? = some j → q.ons (i + 1) = j.onCond
  /-- No table is there twice. -/
  names : ((head :: joins.map Joined.table).map Table.name).Nodup
  joinsOk : JoinsOk A joins [head]
  total : q.Total A (head :: joins.map Joined.table)

variable {A}

/-! ### Values that are set -/

theorem setColumnValue_fill {ρ : Seen} {v : View} {c c' : Cond} (h : fill A ρ c = some c') :
    setColumnValue A v c' = fill A (ρ.set v) c := by
  induction c generalizing c' with
  | value type value =>
    obtain rfl := Option.some.inj h
    rfl
  | column tbl colName type negate value =>
    by_cases ht : tbl = v.tbl
    · have hset : (ρ.set v) tbl = some v := by rw [Seen.set, ht, Function.update_self]
      simp only [fill, hset]
      rw [fill] at h
      cases hρ : ρ tbl with
      | none =>
        rw [hρ] at h
        obtain rfl := Option.some.inj h
        rw [setColumnValue, if_pos ht.symm]
      | some w =>
        rw [hρ] at h
        obtain ⟨new, -, h⟩ := Option.bind_eq_some_iff.mp h
        obtain ⟨y, hy, h⟩ := Option.bind_eq_some_iff.mp h
        obtain rfl := Option.some.inj h
        rw [setColumnValue, if_pos ht.symm]
        simp only [setValue_setValue hy]
    · have hset : (ρ.set v) tbl = ρ tbl := Function.update_of_ne ht _ _
      rw [fill] at h
      rw [fill, hset, h]
      cases hρ : ρ tbl with
      | none =>
        rw [hρ] at h
        obtain rfl := Option.some.inj h
        rw [setColumnValue, if_neg (Ne.symm ht)]
      | some w =>
        rw [hρ] at h
        obtain ⟨new, -, h⟩ := Option.bind_eq_some_iff.mp h
        obtain ⟨y, hy, h⟩ := Option.bind_eq_some_iff.mp h
        obtain rfl := Option.some.inj h
        rw [setColumnValue, if_neg (Ne.symm ht)]
  | op o left right ihl ihr =>
    obtain ⟨left', hl, h⟩ := Option.bind_eq_some_iff.mp h
    obtain ⟨right', hr, h⟩ := Option.bind_eq_some_iff.mp h
    obtain rfl := Option.some.inj h
    rw [setColumnValue, fill, ihl hl, ihr hr]

/-- Two rows of different tables are set one after the other. -/
theorem setColumnValues_eq {l r : View} (hlr : l.tbl ≠ r.tbl) (c : Cond) :
    setColumnValues A l r c = (setColumnValue A l c).bind (setColumnValue A r) := by
  induction c with
  | value type value => rfl
  | column tbl colName type negate value =>
    rw [setColumnValues, setColumnValue]
    by_cases hl : l.tbl = tbl
    · have hr : r.tbl ≠ tbl := fun h => hlr (hl.trans h.symm)
      rw [if_pos hl, if_pos hl]
      cases l.valueAt colName with
      | none => rfl
      | some new =>
        simp only [Option.bind_eq_bind, Option.bind_some]
        cases setValue A type negate value new with
        | none => rfl
        | some y =>
          simp only [Option.bind_some]
          rw [setColumnValue, if_neg hr]
    · rw [if_neg hl, if_neg hl, Option.bind_some, setColumnValue]
  | op o left right ihl ihr =>
    rw [setColumnValues, setColumnValue, ihl, ihr]
    simp only [Option.bind_eq_bind, Option.bind_assoc, Option.bind_some]
    cases setColumnValue A l left with
    | none => rfl
    | some left' =>
      simp only [Option.bind_some]
      cases setColumnValue A l right with
      | none => cases setColumnValue A r left' <;> rfl
      | some right' =>
        simp only [Option.bind_some, setColumnValue]
        rfl

/-- An item is made again when its values are taken out. -/
theorem null_fill {ρ : Seen} {c c' : Cond} (h : fill A ρ c = some c') : setColumnValueNull c' = setColumnValueNull c := by
  induction c generalizing c' with
  | value type value =>
    obtain rfl := Option.some.inj h
    rfl
  | column tbl colName type negate value =>
    rw [fill] at h
    split at h
    · obtain rfl := Option.some.inj h
      rfl
    · obtain ⟨new, -, h⟩ := Option.bind_eq_some_iff.mp h
      obtain ⟨y, -, h⟩ := Option.bind_eq_some_iff.mp h
      obtain rfl := Option.some.inj h
      rfl
  | op o left right ihl ihr =>
    obtain ⟨left', hl, h⟩ := Option.bind_eq_some_iff.mp h
    obtain ⟨right', hr, h⟩ := Option.bind_eq_some_iff.mp h
    obtain rfl := Option.some.inj h
    rw [setColumnValueNull, setColumnValueNull, ihl hl, ihr hr]

/-- Nothing is set in an item. -/
theorem fill_nowhere (c : Cond) : fill A Seen.nowhere c = some c := by
  induction c with
  | value type value => rfl
  | column tbl colName type negate value => rfl
  | op o left right ihl ihr =>
    rw [fill, ihl, ihr]
    rfl

/-! ### Values of tables -/

theorem Seen.set_self (ρ : Seen) (v : View) : ρ.set v v.tbl = some v := Function.update_self ..

theorem Seen.set_of_ne {ρ : Seen} {v : View} {n : Name} (h : n ≠ v.tbl) : ρ.set v n = ρ n := Function.update_of_ne h ..

theorem Seen.over_append (ρ : Seen) (vs ws : List View) : ρ.overlay (vs ++ ws) = (ρ.overlay vs).overlay ws := List.foldl_append

theorem Seen.over_of_notMem {ρ : Seen} {vs : List View} {n : Name} (h : n ∉ vs.map View.tbl) : ρ.overlay vs n = ρ n := by
  induction vs generalizing ρ with
  | nil => rfl
  | cons v vs ih =>
    rw [List.map_cons, List.mem_cons, not_or] at h
    exact (ih h.2).trans (set_of_ne h.1)

theorem Seen.of_nowhere (N : List Table) : nowhere.Of N := by
  intro n v h
  cases h

theorem Seen.Of.set {N : List Table} {ρ : Seen} {p : Placed} (h : ρ.Of N) (ht : p.1 ∈ N) (hr : p.2 ∈ p.1.rows) : (ρ.set p.view).Of N := by
  intro n v hv
  by_cases hn : n = p.1.name
  · subst hn
    obtain rfl := Option.some.inj ((Seen.set_self ρ p.view).symm.trans hv)
    exact ⟨p.1, ht, rfl, p.2, hr, rfl⟩
  · rw [Seen.set_of_ne (v := p.view) hn] at hv
    exact h n v hv

theorem Seen.Of.overlay {N : List Table} {ρ : Seen} {rows : List Placed} (h : ρ.Of N) (hrows : ∀ p ∈ rows, p.1 ∈ N ∧ p.2 ∈ p.1.rows) :
    (ρ.overlay (rows.map Placed.view)).Of N := by
  induction rows generalizing ρ with
  | nil => exact h
  | cons p rows ih =>
    rw [List.forall_mem_cons] at hrows
    exact ih (h.set hrows.1.1 hrows.1.2) hrows.2

theorem Seen.covers_over {ρ : Seen} {rows : List Placed} (h : (rows.map fun p => p.1.name).Nodup) :
    (ρ.overlay (rows.map Placed.view)).Covers rows := by
  induction rows generalizing ρ with
  | nil => simp [Covers]
  | cons p rows ih =>
    rw [List.map_cons, List.nodup_cons] at h
    rw [Covers, List.forall_mem_cons]
    refine ⟨?_, ih h.2⟩
    have hmem : p.1.name ∉ (rows.map Placed.view).map View.tbl := by
      rw [List.map_map]
      exact h.1
    exact (over_of_notMem hmem).trans (set_self ρ p.view)

theorem Seen.Covers.overlay {ρ : Seen} {rows : List Placed} {vs : List View} (h : ρ.Covers rows)
    (hd : ∀ p ∈ rows, p.1.name ∉ vs.map View.tbl) : (ρ.overlay vs).Covers rows :=
  fun p hp => (over_of_notMem (hd p hp)).trans (h p hp)

/-- If all tables have values, nothing else is set. -/
theorem Seen.Covers.eq_seen {ρ : Seen} {rows : List Placed} (h : ρ.Covers rows) (hof : ρ.Of (rows.map Prod.fst))
    (hn : (rows.map fun p => p.1.name).Nodup) (hr : ∀ p ∈ rows, p.2 ∈ p.1.rows) : ρ = seen rows := by
  have hs : (seen rows).Of (rows.map Prod.fst) :=
    (of_nowhere _).overlay fun p hp => ⟨List.mem_map_of_mem hp, hr p hp⟩
  have hc : (seen rows).Covers rows := covers_over hn
  funext n
  by_cases hmem : ∃ p ∈ rows, p.1.name = n
  · obtain ⟨p, hp, rfl⟩ := hmem
    rw [h p hp, hc p hp]
  · have hnone : ∀ σ : Seen, σ.Of (rows.map Prod.fst) → σ n = none := by
      intro σ hσ
      by_contra hv
      obtain ⟨v, hv⟩ := Option.ne_none_iff_exists'.mp hv
      obtain ⟨t, ht, htn, -⟩ := hσ n v hv
      obtain ⟨p, hp, rfl⟩ := List.mem_map.mp ht
      exact hmem ⟨p, hp, htn⟩
    rw [hnone ρ hof, hnone _ hs]

/-! ### Items of a query -/

theorem mapM_of_forall {α β : Type} {f : α → Option β} {xs : List α} (h : ∀ x ∈ xs, f x ≠ none) :
    ∃ ys, xs.mapM f = some ys ∧ ys.map some = xs.map f := by
  induction xs with
  | nil => exact ⟨[], rfl, rfl⟩
  | cons x xs ih =>
    rw [List.forall_mem_cons] at h
    obtain ⟨y, hy⟩ := Option.ne_none_iff_exists'.mp h.1
    obtain ⟨ys, hys, hmap⟩ := ih h.2
    exact ⟨y :: ys, by rw [List.mapM_cons, hy, hys]; rfl, by rw [List.map_cons, List.map_cons, hy, hmap]⟩

/-- Values are set in items that have been filled. -/
theorem mapM_filled {ρ ρ' : Seen} {set : Cond → Option Cond} {es es' : List Cond} (h : es'.map some = es.map (fill A ρ))
    (hset : ∀ e ∈ es, (fill A ρ e).bind set = fill A ρ' e) (hne : ∀ e ∈ es, fill A ρ' e ≠ none) :
    ∃ ys, es'.mapM set = some ys ∧ ys.map some = es.map (fill A ρ') := by
  have hmap : es'.map set = es.map (fill A ρ') := by
    calc es'.map set = (es'.map some).map fun o => o.bind set := by rw [List.map_map]; rfl
      _ = es.map fun e => (fill A ρ e).bind set := by rw [h, List.map_map]; rfl
      _ = es.map (fill A ρ') := List.map_congr_left hset
  have hall : ∀ x ∈ es', set x ≠ none := by
    intro x hx
    obtain ⟨e, he, hxe⟩ := List.mem_map.mp (hmap ▸ List.mem_map_of_mem hx : set x ∈ es.map (fill A ρ'))
    rw [← hxe]
    exact hne e he
  obtain ⟨ys, hys, hmap'⟩ := mapM_of_forall hall
  exact ⟨ys, hys, hmap'.trans hmap⟩

/-- The values of items that have been filled. -/
theorem mapM_exec {ρ : Seen} {es es' : List Cond} (h : es'.map some = es.map (fill A ρ)) (hne : ∀ e ∈ es, evalAt A ρ e ≠ none) :
    es'.mapM (execCondition A) = some (es.map fun e => (evalAt A ρ e).getD []) := by
  have hmap : es'.map (execCondition A) = es.map (evalAt A ρ) := by
    calc es'.map (execCondition A) = (es'.map some).map fun o => o.bind (execCondition A) := by rw [List.map_map]; rfl
      _ = es.map (evalAt A ρ) := by rw [h, List.map_map]; rfl
  have hall : ∀ x ∈ es', execCondition A x ≠ none := by
    intro x hx
    obtain ⟨e, he, hxe⟩ := List.mem_map.mp (hmap ▸ List.mem_map_of_mem hx : execCondition A x ∈ es.map (evalAt A ρ))
    rw [← hxe]
    exact hne e he
  obtain ⟨ys, hys, hmap'⟩ := mapM_of_forall hall
  rw [hys]
  have : ys = (ys.map some).map fun o => o.getD [] := by rw [List.map_map]; exact (List.map_id ys).symm
  rw [this, hmap', hmap, List.map_map]
  rfl

theorem fill_ne_none {ρ : Seen} {c : Cond} (h : evalAt A ρ c ≠ none) : fill A ρ c ≠ none := by
  intro hn
  rw [evalAt, hn] at h
  exact h rfl

end RedB.Dml
