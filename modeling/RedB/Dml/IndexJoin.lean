import RedB.Dml.Append
import Mathlib.Data.Multiset.AddSub

/-!
# Inner joins of two tables

An inner join tests its condition on every row of the right table, or, if a foreign key of
the left table was found for it, on one row only: the values of the columns of the foreign
key are put together, and the row with this primary key is looked up.

The foreign key is found by the names of the columns of the right table that stand in
comparisons, whatever the comparisons say, and the values are not padded as those of keys
are. So both joins agree if and only if, for every row of the left table, no row but the one
that is looked up meets the condition (`index_join_agrees_iff`).
-/

namespace RedB.Dml

/-- An item of an ON condition, a column with the item of its table. -/
inductive OnItem where
  | value (type : ValueType) (value : Text)
  /-- `TYPE_COLUMN`, with `m_parent`. -/
  | column (parent : ℕ) (tbl : Name) (colName : Text) (type : ColType) (negate : Bool) (value : Text)
  | op (op : Operator) (left right : OnItem)
deriving DecidableEq, Repr

/-- The condition of an item. -/
def OnItem.cond : OnItem → Cond
  | .value type text => .value type text
  | .column _ tbl colName type negate text => .column tbl colName type negate text
  | .op o left right => .op o left.cond right.cond

/-- `vm::make_column_list`: tables and names of the columns of the left item and of the right
item that are compared. -/
def makeColumnList (lItem rItem : ℕ) : OnItem → List ((Name × Text) × (Name × Text))
  | .op (.cmp _) (.column p tbl col _ _ _) (.column p' tbl' col' _ _ _) =>
      if p = lItem ∧ p' = rItem then [((tbl, col), (tbl', col'))]
      else if p = rItem ∧ p' = lItem then [((tbl', col'), (tbl, col))]
      else []
  | .op .and left right | .op .or left right => makeColumnList lItem rItem left ++ makeColumnList lItem rItem right
  | _ => []

/-- `vm::get_index_name`: the foreign key with which rows of the next table are looked up in
its primary index, nothing if they are not. -/
def getIndexName (lt rt : Table) (prev next : ℕ) (onCond : OnItem) : Option Text :=
  let columnList := makeColumnList prev next onCond
  let fgn := lt.foreignList.find? fun fgn =>
    fgn.tbl = rt.name ∧ fgn.colNameList.all fun colName => columnList.any fun p => p.2 = (rt.name, colName)
  (fgn.map Foreign.name).filter fun name => name ≠ []

/-- `schema::get_foreign` -/
def Table.getForeign (t : Table) (name : Text) : Option Foreign := t.foreignList.find? fun fgn => fgn.name = name

variable (A : Arith)

/-- `vm::set_column_value`, of two rows. -/
def setColumnValues (l r : View) : Cond → Option Cond
  | .value type value => some (.value type value)
  | .column tbl colName type negate value =>
      if l.tbl = tbl then do
        let new ← l.valueAt colName
        let value ← setValue A type negate value new
        some (.column tbl colName type negate value)
      else if r.tbl = tbl then do
        let new ← r.valueAt colName
        let value ← setValue A type negate value new
        some (.column tbl colName type negate value)
      else some (.column tbl colName type negate value)
  | .op op left right => do
      let left ← setColumnValues l r left
      let right ← setColumnValues l r right
      some (.op op left right)

/-- The condition with the values of two rows, and whether it holds. -/
def testOn (l r : View) (onCond : Cond) : Option (Cond × Bool) := do
  let onCond ← setColumnValues A l r onCond
  let res ← execCondition A onCond
  some (onCond, res = "true".toList)

variable (lt rt : Table)

/-- A row of the left table and a row of the right table, with their places. -/
abbrev Pair := (ℕ × Row) × (ℕ × Row)

/-- The loop of `vm::exec_inner_join_x_0`: the pairs that go to the next item, and the
condition as it is then. -/
def joinRows (l : ℕ × Row) (onCond : Cond) : List (ℕ × Row) → Option (Cond × List Pair)
  | [] => some (onCond, [])
  | r :: rs => do
      let (onCond, res) ← testOn A (lt.view l.2) (rt.view r.2) onCond
      let (onCond, pairs) ← joinRows l onCond rs
      some (onCond, if res then (l, r) :: pairs else pairs)

/-- `vm::exec_inner_join_x_0` -/
def execInnerJoinX0 (onCond : Cond) (l : ℕ × Row) : Option (Cond × List Pair) := joinRows A lt rt l onCond rt.rows

/-- The values of the columns of a foreign key, one after the other. -/
def probeKey (fgn : Foreign) (l : Row) : Option Text := (fgn.colNameList.mapM (lt.view l).valueAt).map List.flatten

/-- The test of the row that is looked up. -/
def probeRow (fgn : Foreign) (onCond : Cond) (l : ℕ × Row) : Option (Cond × List Pair) := do
  let key ← probeKey lt fgn l.2
  match rt.find PK_NDX key with
  | none => some (onCond, [])
  | some r => do
      let (onCond, res) ← testOn A (lt.view l.2) (rt.view r.2) onCond
      some (onCond, if res then [(l, r)] else [])

/-- `vm::exec_inner_join_x_1` -/
def execInnerJoinX1 (fgnName : Text) (onCond : Cond) (l : ℕ × Row) : Option (Cond × List Pair) := do
  let fgn ← lt.getForeign fgnName
  probeRow A lt rt fgn onCond l

/-- The loop over the rows of the left table. -/
def joinAll (join : Cond → ℕ × Row → Option (Cond × List Pair)) (onCond : Cond) : List (ℕ × Row) → Option (Cond × List Pair)
  | [] => some (onCond, [])
  | l :: ls => do
      let (onCond, pairs) ← join onCond l
      let (onCond, pairs') ← joinAll join onCond ls
      some (onCond, pairs ++ pairs')

/-- `vm::exec_inner_join_0_0` -/
def execInnerJoin00 (onCond : Cond) : Option (Cond × List Pair) := joinAll (execInnerJoinX0 A lt rt) onCond lt.rows

/-- `vm::exec_inner_join_0_1` -/
def execInnerJoin01 (fgnName : Text) (onCond : Cond) : Option (Cond × List Pair) := do
  let fgn ← lt.getForeign fgnName
  joinAll (probeRow A lt rt fgn) onCond lt.rows

/-- The joined pairs, in any order; nothing if the join throws. -/
def joined (res : Option (Cond × List Pair)) : Option (Multiset Pair) := res.map fun p => (p.2 : Multiset Pair)

/-- Whether the condition holds of two rows, nothing if it throws. -/
def holds (onCond : Cond) (l r : ℕ × Row) : Option Bool := (testOn A (lt.view l.2) (rt.view r.2) onCond).map Prod.snd

/-- Every row of the right table that meets the condition is the one that is looked up. If the
condition throws for a row of the right table, then for this one or with its key. -/
def LooksUp (fgn : Foreign) (onCond : Cond) (l : ℕ × Row) : Prop :=
  if ∀ r ∈ rt.rows, holds A lt rt onCond l r ≠ none then
    ∃ key, probeKey lt fgn l.2 = some key ∧
      ∀ r ∈ rt.rows, holds A lt rt onCond l r = some true → rt.find PK_NDX key = some r
  else
    ∀ key, probeKey lt fgn l.2 = some key → ∃ r, rt.find PK_NDX key = some r ∧ holds A lt rt onCond l r = none

/-! ### What has been set before -/

/-- The conditions are one once the values of rows of these tables are set. -/
def Resets (c c' : Cond) : Prop :=
  ∀ l r : View, l.tbl = lt.name → r.tbl = rt.name → setColumnValues A l r c' = setColumnValues A l r c

variable {A lt rt}

/-- A second value takes the place of the first. -/
theorem setValue_setValue {type : ColType} {negate : Bool} {old value value' new : Text}
    (h : setValue A type negate old value = some new) : setValue A type negate new value' = setValue A type negate old value' := by
  unfold setValue at *
  cases negate with
  | false => rfl
  | true =>
    cases type with
    | int | float => rfl
    | _ => exact h.symm

theorem resets_setColumnValues {l r : View} {c c' : Cond} (hl : l.tbl = lt.name) (hr : r.tbl = rt.name)
    (h : setColumnValues A l r c = some c') : Resets A lt rt c c' := by
  intro l' r' hl' hr'
  induction c generalizing c' with
  | value type value => rw [← Option.some.inj h]
  | column tbl colName type negate value =>
    rw [setColumnValues] at h
    rw [hl, hr] at h
    split at h
    · rename_i htbl
      obtain ⟨new, -, h⟩ := Option.bind_eq_some_iff.mp h
      obtain ⟨v, hv, h⟩ := Option.bind_eq_some_iff.mp h
      rw [← Option.some.inj h]
      simp only [setColumnValues, hl', htbl, if_true, setValue_setValue hv]
    · rename_i htbl
      split at h
      · rename_i htbl'
        obtain ⟨new, -, h⟩ := Option.bind_eq_some_iff.mp h
        obtain ⟨v, hv, h⟩ := Option.bind_eq_some_iff.mp h
        rw [← Option.some.inj h]
        simp only [setColumnValues, hl', hr', htbl, htbl', if_true, if_false, setValue_setValue hv]
      · rw [← Option.some.inj h]
  | op o left right ihl ihr =>
    obtain ⟨left', hleft, h⟩ := Option.bind_eq_some_iff.mp h
    obtain ⟨right', hright, h⟩ := Option.bind_eq_some_iff.mp h
    rw [← Option.some.inj h]
    simp only [setColumnValues, ihl hleft, ihr hright]

theorem Resets.refl (c : Cond) : Resets A lt rt c c := fun _ _ _ _ => rfl

theorem Resets.trans {c c' c'' : Cond} (h : Resets A lt rt c c') (h' : Resets A lt rt c' c'') : Resets A lt rt c c'' :=
  fun l r hl hr => (h' l r hl hr).trans (h l r hl hr)

theorem Resets.testOn {c c' : Cond} (h : Resets A lt rt c c') (l r : ℕ × Row) :
    testOn A (lt.view l.2) (rt.view r.2) c' = testOn A (lt.view l.2) (rt.view r.2) c := by
  rw [Dml.testOn, Dml.testOn, h _ _ rfl rfl]

theorem resets_testOn {c c' : Cond} {b : Bool} {l r : ℕ × Row}
    (h : testOn A (lt.view l.2) (rt.view r.2) c = some (c', b)) : Resets A lt rt c c' := by
  obtain ⟨c'', hset, h⟩ := Option.bind_eq_some_iff.mp h
  obtain ⟨res, -, h⟩ := Option.bind_eq_some_iff.mp h
  rw [← (Prod.mk.inj (Option.some.inj h)).1]
  exact resets_setColumnValues rfl rfl hset

theorem Resets.holds {c c' : Cond} (h : Resets A lt rt c c') : holds A lt rt c' = holds A lt rt c := by
  funext l r
  rw [Dml.holds, Dml.holds, h.testOn]

/-! ### One row of the left table -/

/-- The pairs of a row with those of `rs` that meet the condition. -/
def pairsOf (A : Arith) (lt rt : Table) (onCond : Cond) (l : ℕ × Row) (rs : List (ℕ × Row)) : Option (Multiset Pair) :=
  if ∀ r ∈ rs, holds A lt rt onCond l r ≠ none then
    some ((rs.filter fun r => holds A lt rt onCond l r = some true).map fun r => (l, r))
  else none

theorem pairsOf_none {c : Cond} {l : ℕ × Row} {rs : List (ℕ × Row)} :
    pairsOf A lt rt c l rs = none ↔ ∃ r ∈ rs, holds A lt rt c l r = none := by
  rw [pairsOf, ite_eq_right_iff]
  constructor
  · intro h
    by_contra hn
    cases h fun r hr he => hn ⟨r, hr, he⟩
  · rintro ⟨r, hr, he⟩ h
    exact absurd he (h r hr)

theorem pairsOf_cons {c : Cond} {l r : ℕ × Row} {rs : List (ℕ × Row)} {b : Bool} (h : holds A lt rt c l r = some b) :
    pairsOf A lt rt c l (r :: rs) = (pairsOf A lt rt c l rs).map fun M => if b then (l, r) ::ₘ M else M := by
  simp only [pairsOf, List.forall_mem_cons, h, ne_eq, reduceCtorEq, not_false_eq_true, true_and]
  split
  · cases b <;> simp [h]
  · rfl

/-- The loop, from a condition in which rows may have been set before. -/
theorem joinRows_eq {c c' : Cond} (h : Resets A lt rt c c') (l : ℕ × Row) (rs : List (ℕ × Row)) :
    joined (joinRows A lt rt l c' rs) = pairsOf A lt rt c l rs ∧
      ∀ res, joinRows A lt rt l c' rs = some res → Resets A lt rt c res.1 := by
  induction rs generalizing c' with
  | nil => exact ⟨by simp [joinRows, joined, pairsOf], fun res hres => Option.some.inj hres ▸ h⟩
  | cons r rs ih =>
    have hr : holds A lt rt c l r = (testOn A (lt.view l.2) (rt.view r.2) c').map Prod.snd := by rw [← h.holds]; rfl
    cases ht : testOn A (lt.view l.2) (rt.view r.2) c' with
    | none =>
      rw [ht] at hr
      have hnone : joinRows A lt rt l c' (r :: rs) = none := by rw [joinRows, ht]; rfl
      rw [hnone, pairsOf_none.mpr ⟨r, List.mem_cons_self, hr⟩]
      exact ⟨rfl, nofun⟩
    | some p =>
      obtain ⟨c'', b⟩ := p
      rw [ht] at hr
      obtain ⟨heq, hres⟩ := ih (h.trans (resets_testOn ht))
      have hcons : joinRows A lt rt l c' (r :: rs) =
          (joinRows A lt rt l c'' rs).map fun q => (q.1, if b then (l, r) :: q.2 else q.2) := by
        rw [joinRows, ht]
        simp only [Option.bind_eq_bind, Option.bind_some]
        cases joinRows A lt rt l c'' rs <;> rfl
      rw [hcons]
      refine ⟨?_, fun res h => ?_⟩
      · rw [pairsOf_cons hr, ← heq]
        cases joinRows A lt rt l c'' rs with
        | none => rfl
        | some q => cases b <;> rfl
      · obtain ⟨q, hq, rfl⟩ := Option.map_eq_some_iff.mp h
        exact hres q hq

/-- The loop over the row that is looked up. -/
theorem probeRow_eq (fgn : Foreign) (c : Cond) (l : ℕ × Row) :
    probeRow A lt rt fgn c l = (probeKey lt fgn l.2).bind fun key => joinRows A lt rt l c (rt.find PK_NDX key).toList := by
  rw [probeRow]
  cases probeKey lt fgn l.2 with
  | none => rfl
  | some key =>
    simp only [Option.bind_eq_bind, Option.bind_some]
    cases rt.find PK_NDX key with
    | none => rfl
    | some r => rfl

/-- The rows that meet a condition are those that the index finds. -/
theorem pairs_find_iff (hw : rt.Wf) (key : Text) (p : ℕ × Row → Prop) [DecidablePred p] (l : ℕ × Row) :
    ((((rt.find PK_NDX key).toList.filter p).map fun r => (l, r) : List Pair) : Multiset Pair) =
        ((rt.rows.filter p).map fun r => (l, r) : List Pair) ↔
      ∀ r ∈ rt.rows, p r → rt.find PK_NDX key = some r := by
  have hinj : Function.Injective fun r : ℕ × Row => (l, r) := fun _ _ h => (Prod.mk.inj h).2
  have hfound : (((rt.find PK_NDX key).toList.filter p).map fun r => (l, r)).Nodup :=
    List.Nodup.map hinj ((Option.toList_nodup _).filter _)
  have hrows : ((rt.rows.filter p).map fun r => (l, r)).Nodup :=
    List.Nodup.map hinj ((List.Nodup.of_map _ hw.places).filter _)
  rw [Multiset.coe_eq_coe, List.perm_ext_iff_of_nodup hfound hrows]
  constructor
  · intro h r hr hp
    obtain ⟨r', hr', he⟩ := List.mem_map.mp ((h (l, r)).mpr (List.mem_map.mpr ⟨r, List.mem_filter.mpr ⟨hr, decide_eq_true hp⟩, rfl⟩))
    rw [← (Prod.mk.inj he).2]
    exact Option.mem_toList.mp (List.mem_filter.mp hr').1
  · intro h q
    constructor
    · intro hq
      obtain ⟨r, hr, rfl⟩ := List.mem_map.mp hq
      obtain ⟨hr, hp⟩ := List.mem_filter.mp hr
      exact List.mem_map.mpr ⟨r, List.mem_filter.mpr ⟨(hw.find_mem (Option.mem_toList.mp hr)).1, hp⟩, rfl⟩
    · intro hq
      obtain ⟨r, hr, rfl⟩ := List.mem_map.mp hq
      obtain ⟨hr, hp⟩ := List.mem_filter.mp hr
      exact List.mem_map.mpr ⟨r, List.mem_filter.mpr ⟨Option.mem_toList.mpr (h r hr (of_decide_eq_true hp)), hp⟩, rfl⟩

/-- Both joins of a row give the same pairs if and only if the index finds all rows that meet
the condition. -/
theorem joined_row_iff (hw : rt.Wf) (fgn : Foreign) (c : Cond) (l : ℕ × Row) :
    joined (probeRow A lt rt fgn c l) = joined (execInnerJoinX0 A lt rt c l) ↔ LooksUp A lt rt fgn c l := by
  have hjoin : ∀ rs, joined (joinRows A lt rt l c rs) = pairsOf A lt rt c l rs := fun rs => (joinRows_eq (Resets.refl c) l rs).1
  rw [probeRow_eq, execInnerJoinX0, hjoin, LooksUp]
  by_cases htotal : ∀ r ∈ rt.rows, holds A lt rt c l r ≠ none
  · rw [if_pos htotal, pairsOf, if_pos htotal]
    cases hk : probeKey lt fgn l.2 with
    | none => simp [joined]
    | some key =>
      rw [Option.bind_some, hjoin, pairsOf, if_pos fun r hr => htotal r (hw.find_mem (Option.mem_toList.mp hr)).1]
      simp only [Option.some.injEq, exists_eq_left']
      exact pairs_find_iff hw key (fun r => holds A lt rt c l r = some true) l
  · rw [if_neg htotal]
    push Not at htotal
    rw [pairsOf_none.mpr htotal]
    cases hk : probeKey lt fgn l.2 with
    | none => simp [joined]
    | some key =>
      rw [Option.bind_some, hjoin, pairsOf_none]
      simp only [Option.mem_toList, Option.some.injEq, forall_eq']

/-! ### All rows of the left table -/

/-- A join of one row that does not depend on what has been set in its condition. -/
def Steady (A : Arith) (lt rt : Table) (join : Cond → ℕ × Row → Option (Cond × List Pair)) : Prop :=
  ∀ c c' l, Resets A lt rt c c' → joined (join c' l) = joined (join c l) ∧ ∀ res, join c' l = some res → Resets A lt rt c res.1

theorem steady_execInnerJoinX0 : Steady A lt rt (execInnerJoinX0 A lt rt) := fun c _ l h =>
  ⟨(joinRows_eq h l rt.rows).1.trans (joinRows_eq (Resets.refl c) l rt.rows).1.symm, (joinRows_eq h l rt.rows).2⟩

theorem steady_probeRow (fgn : Foreign) : Steady A lt rt (probeRow A lt rt fgn) := by
  intro c c' l h
  rw [probeRow_eq, probeRow_eq]
  cases probeKey lt fgn l.2 with
  | none => exact ⟨rfl, nofun⟩
  | some key =>
    have hrows := joinRows_eq h l (rt.find PK_NDX key).toList
    exact ⟨hrows.1.trans (joinRows_eq (Resets.refl c) l _).1.symm, hrows.2⟩

theorem joinAll_cons (join : Cond → ℕ × Row → Option (Cond × List Pair)) (c : Cond) (l : ℕ × Row) (ls : List (ℕ × Row)) :
    joinAll join c (l :: ls) = (join c l).bind fun p => (joinAll join p.1 ls).map fun q => (q.1, p.2 ++ q.2) := by
  rw [joinAll]
  cases join c l with
  | none => rfl
  | some p =>
    simp only [Option.bind_eq_bind, Option.bind_some]
    cases joinAll join p.1 ls <;> rfl

/-- Joins that agree on each row agree on all rows. -/
theorem joined_joinAll {f g : Cond → ℕ × Row → Option (Cond × List Pair)} (hf : Steady A lt rt f) (hg : Steady A lt rt g)
    {c cf cg : Cond} (hcf : Resets A lt rt c cf) (hcg : Resets A lt rt c cg) {ls : List (ℕ × Row)}
    (h : ∀ l ∈ ls, joined (f c l) = joined (g c l)) : joined (joinAll f cf ls) = joined (joinAll g cg ls) := by
  induction ls generalizing cf cg with
  | nil => rfl
  | cons l ls ih =>
    obtain ⟨hf1, hf2⟩ := hf c cf l hcf
    obtain ⟨hg1, hg2⟩ := hg c cg l hcg
    have hrow : joined (f cf l) = joined (g cg l) := by
      rw [hf1, hg1]
      exact h l List.mem_cons_self
    rw [joinAll_cons, joinAll_cons]
    cases hfl : f cf l with
    | none =>
      cases hgl : g cg l with
      | none => rfl
      | some q =>
        rw [hfl, hgl] at hrow
        cases hrow
    | some p =>
      cases hgl : g cg l with
      | none =>
        rw [hfl, hgl] at hrow
        cases hrow
      | some q =>
        rw [hfl, hgl] at hrow
        have hpq : (p.2 : Multiset Pair) = q.2 := Option.some.inj hrow
        have hls := ih (hf2 p hfl) (hg2 q hgl) fun l hl => h l (List.mem_cons_of_mem _ hl)
        simp only [Option.bind_some]
        cases hfls : joinAll f p.1 ls with
        | none =>
          cases hgls : joinAll g q.1 ls with
          | none => rfl
          | some q' =>
            rw [hfls, hgls] at hls
            cases hls
        | some p' =>
          cases hgls : joinAll g q.1 ls with
          | none =>
            rw [hfls, hgls] at hls
            cases hls
          | some q' =>
            rw [hfls, hgls] at hls
            have hpq' : (p'.2 : Multiset Pair) = q'.2 := Option.some.inj hls
            simp only [joined, Option.map_some, ← Multiset.coe_add, hpq, hpq']

/-- The foreign key that was found has its name. -/
theorem getForeign_getIndexName {prev next : ℕ} {onCond : OnItem} {fgnName : Text}
    (h : getIndexName lt rt prev next onCond = some fgnName) : ∃ fgn, lt.getForeign fgnName = some fgn := by
  obtain ⟨hname, -⟩ := Option.filter_eq_some_iff.mp h
  obtain ⟨fgn, hf, rfl⟩ := Option.map_eq_some_iff.mp hname
  refine Option.isSome_iff_exists.mp (List.find?_isSome.mpr ⟨fgn, List.mem_of_find?_eq_some hf, ?_⟩)
  exact decide_eq_true rfl

/-- The index join agrees with the nested loop, over all rows of the left table and for each of
them, if and only if the index finds all rows that meet the condition. -/
theorem index_join_agrees_iff (A : Arith) (lt rt : Table) (prev next : ℕ) (onCond : OnItem) (fgnName : Text) (hw : rt.Wf)
    (hi : getIndexName lt rt prev next onCond = some fgnName) :
    (joined (execInnerJoin01 A lt rt fgnName onCond.cond) = joined (execInnerJoin00 A lt rt onCond.cond) ∧
        ∀ l ∈ lt.rows,
          joined (execInnerJoinX1 A lt rt fgnName onCond.cond l) = joined (execInnerJoinX0 A lt rt onCond.cond l)) ↔
      ∀ fgn, lt.getForeign fgnName = some fgn → ∀ l ∈ lt.rows, LooksUp A lt rt fgn onCond.cond l := by
  obtain ⟨fgn, hf⟩ := getForeign_getIndexName hi
  have h01 : execInnerJoin01 A lt rt fgnName onCond.cond = joinAll (probeRow A lt rt fgn) onCond.cond lt.rows := by
    rw [execInnerJoin01, hf]
    rfl
  have hX1 : execInnerJoinX1 A lt rt fgnName onCond.cond = probeRow A lt rt fgn onCond.cond := by
    funext l
    rw [execInnerJoinX1, hf]
    rfl
  rw [h01, hX1, hf]
  simp only [Option.some.injEq, forall_eq']
  constructor
  · rintro ⟨-, h⟩ l hl
    exact (joined_row_iff hw fgn _ l).mp (h l hl)
  · intro h
    have hrow := fun l hl => (joined_row_iff hw fgn _ l).mpr (h l hl)
    exact ⟨joined_joinAll (steady_probeRow fgn) steady_execInnerJoinX0 (Resets.refl _) (Resets.refl _) hrow, hrow⟩

/-! ### Rows that refer to rows -/

/-- `id` or `name`, of this type and size, as a column of a table. -/
def joinColumn (name : String) (type : ColType) (size : ℕ) (isPrimary : Bool) : Column :=
  { name := name.toList, type, size, prec := 0, enumList := [], isAutoInc := false, isNotNull := isPrimary, isPrimary
    isUnique := isPrimary, autoInc := 0 }

/-- A table of `id` and `name` with a row for each of these, which are written the same way in the index. -/
def referredTable (type : ColType) (size : ℕ) (ids : List Text) : Table :=
  { name := ("d".toList, "p".toList)
    columns := [joinColumn "id" type size true, joinColumn "name" .varchar 5 false]
    indexList := [{ name := PK_NDX, isUnique := true, colNameList := ["id".toList], elements := ids.zipIdx }]
    foreignList := []
    rows := ids.zipIdx.map fun e => (e.2, Row.ofTexts [e.1, "ann".toList])
    next := ids.length }

/-- A table of `name` and `id`, which refers to the other table, with a row for each of these. -/
def referringTable (type : ColType) (size : ℕ) (ids : List Text) : Table :=
  { name := ("d".toList, "c".toList)
    columns := [joinColumn "name" .varchar 5 false, joinColumn "id" type size false]
    indexList := []
    foreignList := [{ name := "FGN_000".toList, tbl := ("d".toList, "p".toList), colNameList := ["id".toList] }]
    rows := ids.zipIdx.map fun e => (e.2, Row.ofTexts ["bob".toList, e.1])
    next := ids.length }

/-- `ON c.id = p.id` -/
def onId (type : ColType) : OnItem :=
  .op (.cmp .eq) (.column 0 ("d".toList, "c".toList) "id".toList type false [])
    (.column 1 ("d".toList, "p".toList) "id".toList type false [])

/-- Four rows, one of which refers to no row. -/
theorem index_join_agrees_varchar :
    (joined (execInnerJoin01 wholeNumbers (referringTable .varchar 1 [['b'], ['a'], ['c'], ['b']]) (referredTable .varchar 1 [['a'], ['b']])
          "FGN_000".toList (onId .varchar).cond) =
        joined (execInnerJoin00 wholeNumbers (referringTable .varchar 1 [['b'], ['a'], ['c'], ['b']])
          (referredTable .varchar 1 [['a'], ['b']]) (onId .varchar).cond) ∧
      ∀ l ∈ (referringTable .varchar 1 [['b'], ['a'], ['c'], ['b']]).rows,
        joined (execInnerJoinX1 wholeNumbers (referringTable .varchar 1 [['b'], ['a'], ['c'], ['b']])
            (referredTable .varchar 1 [['a'], ['b']]) "FGN_000".toList (onId .varchar).cond l) =
          joined (execInnerJoinX0 wholeNumbers (referringTable .varchar 1 [['b'], ['a'], ['c'], ['b']])
            (referredTable .varchar 1 [['a'], ['b']]) (onId .varchar).cond l)) :=
  (index_join_agrees_iff wholeNumbers (referringTable .varchar 1 [['b'], ['a'], ['c'], ['b']]) (referredTable .varchar 1 [['a'], ['b']]) 0 1
    (onId .varchar) "FGN_000".toList ⟨⟨by decide, by decide, by decide, by decide, by decide⟩, ⟨_, rfl, rfl⟩⟩ (by decide)).mpr (by
      intro fgn hf
      obtain rfl := Option.some.inj hf
      unfold LooksUp
      decide)

/-- A number is kept with leading zeros in a primary key and without them in a column that
refers to it. -/
theorem index_join_misses : ¬∀ (lt rt : Table) (prev next : ℕ) (onCond : OnItem) (fgnName : Text), rt.Wf →
    getIndexName lt rt prev next onCond = some fgnName →
    joined (execInnerJoin01 wholeNumbers lt rt fgnName onCond.cond) = joined (execInnerJoin00 wholeNumbers lt rt onCond.cond) ∧
      ∀ l ∈ lt.rows, joined (execInnerJoinX1 wholeNumbers lt rt fgnName onCond.cond l) =
        joined (execInnerJoinX0 wholeNumbers lt rt onCond.cond l) := by
  intro h
  have hw : (referredTable .int 10 ["0000000005".toList]).Wf :=
    ⟨⟨by decide, by decide, by decide, by decide, by decide⟩, ⟨_, rfl, rfl⟩⟩
  have h01 := (h (referringTable .int 10 ["5".toList]) _ 0 1 (onId .int) "FGN_000".toList hw (by decide)).1
  revert h01
  decide

end RedB.Dml
