import Mathlib.Data.Multiset.Bind
import Mathlib.Data.Multiset.Filter
import Mathlib.Algebra.Group.Action.Defs
import Mathlib.Algebra.Group.Nat.Defs

/-!
# Joins

A joined row gives every table a row or nothing. A condition is a truth value of joined
rows. The inner join of joined rows with a table is the product with the table,
filtered; inner joins whose conditions look at tables already joined may therefore be
taken in any order (`foldl_inner`). The outer joins are not so: a row that finds no
match is kept.
-/

namespace Joins

variable {ι ρ : Type}

/-- A row of each of some tables. -/
abbrev JRow (ι ρ : Type) := ι → Option ρ

/-- No table has a row. -/
def nowhere : JRow ι ρ := fun _ => none

variable [DecidableEq ι]

/-- The joined row with a row of table `t`. -/
def extend (x : JRow ι ρ) (t : ι) (r : ρ) : JRow ι ρ := Function.update x t (some r)

theorem extend_comm {a b : ι} (h : a ≠ b) (x : JRow ι ρ) (r r' : ρ) :
    extend (extend x a r) b r' = extend (extend x b r') a r := Function.update_comm h _ _ x

/-- The rows of a table, as joined rows. -/
def rowsOf (t : ι) (rows : Multiset ρ) : Multiset (JRow ι ρ) := rows.map (extend nowhere t)

/-- Every joined row with every row of table `t`. -/
def cross (t : ι) (rows : Multiset ρ) (L : Multiset (JRow ι ρ)) : Multiset (JRow ι ρ) :=
  L.bind fun x => rows.map (extend x t)

/-- The rows that `x` matches, put together with it. -/
def matching (on : JRow ι ρ → Bool) (t : ι) (rows : Multiset ρ) (x : JRow ι ρ) : Multiset (JRow ι ρ) :=
  (rows.map (extend x t)).filter (on · = true)

/-- The inner join. -/
def innerJoin (on : JRow ι ρ → Bool) (t : ι) (rows : Multiset ρ) (L : Multiset (JRow ι ρ)) : Multiset (JRow ι ρ) :=
  L.bind (matching on t rows)

/-- The left outer join. -/
def leftJoin (on : JRow ι ρ → Bool) (t : ι) (rows : Multiset ρ) (L : Multiset (JRow ι ρ)) : Multiset (JRow ι ρ) :=
  L.bind fun x => if (matching on t rows x).card = 0 then {x} else matching on t rows x

/-- The rows of `L` that match the row `r`, put together with it. -/
def matched (on : JRow ι ρ → Bool) (t : ι) (L : Multiset (JRow ι ρ)) (r : ρ) : Multiset (JRow ι ρ) :=
  (L.map (extend · t r)).filter (on · = true)

/-- The right outer join. -/
def rightJoin (on : JRow ι ρ → Bool) (t : ι) (rows : Multiset ρ) (L : Multiset (JRow ι ρ)) : Multiset (JRow ι ρ) :=
  rows.bind fun r => if (matched on t L r).card = 0 then {extend nowhere t r} else matched on t L r

@[simp] theorem cross_zero (t : ι) (rows : Multiset ρ) : cross t rows (0 : Multiset (JRow ι ρ)) = 0 := rfl

theorem cross_cons (t : ι) (rows : Multiset ρ) (x : JRow ι ρ) (L : Multiset (JRow ι ρ)) :
    cross t rows (x ::ₘ L) = rows.map (extend x t) + cross t rows L := Multiset.cons_bind ..

/-! ### Inner joins -/

/-- An inner join is a product, filtered. -/
theorem innerJoin_eq (on : JRow ι ρ → Bool) (t : ι) (rows : Multiset ρ) (L : Multiset (JRow ι ρ)) :
    innerJoin on t rows L = (cross t rows L).filter (on · = true) := by
  induction L using Multiset.induction with
  | empty => rfl
  | cons x L ih => rw [innerJoin, Multiset.cons_bind, ← innerJoin, ih, cross_cons, Multiset.filter_add, matching]

/-- The condition says the same whatever row table `t` has. -/
def Ignores (on : JRow ι ρ → Prop) (t : ι) : Prop := ∀ x r, on (extend x t r) ↔ on x

/-- A condition that does not look at a table can be tested before or after the product
with it. -/
theorem cross_filter {on : JRow ι ρ → Prop} [DecidablePred on] {t : ι} (h : Ignores on t) (rows : Multiset ρ)
    (L : Multiset (JRow ι ρ)) : cross t rows (L.filter on) = (cross t rows L).filter on := by
  induction L using Multiset.induction with
  | empty => rfl
  | cons x L ih =>
    have hx : ∀ y ∈ rows.map (extend x t), on y ↔ on x := by
      intro y hy
      obtain ⟨r, -, rfl⟩ := Multiset.mem_map.mp hy
      exact h x r
    rw [cross_cons, Multiset.filter_add, ← ih]
    by_cases hon : on x
    · rw [Multiset.filter_cons_of_pos _ hon, cross_cons, Multiset.filter_eq_self.mpr fun y hy => (hx y hy).mpr hon]
    · rw [Multiset.filter_cons_of_neg _ hon, Multiset.filter_eq_nil.mpr fun y hy hy' => hon ((hx y hy).mp hy'),
        zero_add]

/-- Products may be taken in any order. -/
theorem cross_comm {a b : ι} (h : a ≠ b) (A B : Multiset ρ) (L : Multiset (JRow ι ρ)) :
    cross b B (cross a A L) = cross a A (cross b B L) := by
  rw [cross, cross, cross, cross, Multiset.bind_assoc, Multiset.bind_assoc]
  refine Multiset.bind_congr fun x _ => ?_
  rw [Multiset.bind_map, Multiset.bind_map, Multiset.bind_map_comm]
  exact Multiset.bind_congr fun r' _ => Multiset.map_congr rfl fun r _ => extend_comm h x r r'

section Chains

variable (rows : ι → Multiset ρ)

/-- The product of the tables of a list, in this order. -/
def crossAll (L : Multiset (JRow ι ρ)) (ts : List ι) : Multiset (JRow ι ρ) :=
  ts.foldl (fun L t => cross t (rows t) L) L

theorem crossAll_append (L : Multiset (JRow ι ρ)) (ts ts' : List ι) :
    crossAll rows L (ts ++ ts') = crossAll rows (crossAll rows L ts) ts' := List.foldl_append ..

/-- The order of the tables does not matter. -/
theorem crossAll_perm {ts ts' : List ι} (h : ts.Perm ts') (hn : ts.Nodup) (L : Multiset (JRow ι ρ)) :
    crossAll rows L ts = crossAll rows L ts' := by
  induction h generalizing L with
  | nil => rfl
  | cons t _ ih => exact ih (List.nodup_cons.mp hn).2 _
  | swap a b l =>
    have hab : b ≠ a := fun e => (List.nodup_cons.mp hn).1 (e ▸ List.mem_cons_self ..)
    rw [crossAll, List.foldl_cons, List.foldl_cons, cross_comm hab]
    rfl
  | trans h1 _ ih1 ih2 => exact (ih1 hn L).trans (ih2 (h1.nodup_iff.mp hn) L)

/-- A chain of inner joins is the product of its tables with all conditions tested at the
end, if no condition looks at a table that comes later. -/
theorem foldl_inner {js : List (ι × (JRow ι ρ → Bool))} (h : js.Pairwise fun a b => Ignores (a.2 · = true) b.1)
    (L : Multiset (JRow ι ρ)) :
    js.foldl (fun L j => innerJoin j.2 j.1 (rows j.1) L) L =
      (crossAll rows L (js.map Prod.fst)).filter fun x => ∀ j ∈ js, j.2 x = true := by
  induction js using List.reverseRecOn with
  | nil => simp [crossAll]
  | append_singleton js j ih =>
    rw [List.pairwise_append] at h
    have hlater : Ignores (fun x => ∀ c ∈ js, c.2 x = true) j.1 := fun x r =>
      forall₂_congr fun c hc => h.2.2 c hc j (List.mem_singleton_self j) x r
    rw [List.foldl_append, List.foldl_cons, List.foldl_nil, ih h.1, innerJoin_eq, cross_filter hlater,
      Multiset.filter_filter, List.map_append, crossAll_append]
    refine Multiset.filter_congr fun x _ => ?_
    simp only [List.mem_append, List.mem_singleton, or_imp, forall_and, forall_eq]
    exact and_comm

end Chains

/-! ### How many rows there are when a condition is constant -/

section Card

variable (t : ι) (rows : Multiset ρ) (L : Multiset (JRow ι ρ))

theorem card_matching (b : Bool) (x : JRow ι ρ) :
    (matching (fun _ => b) t rows x).card = if b then rows.card else 0 := by
  cases b <;> simp [matching]

theorem card_matched (b : Bool) (r : ρ) : (matched (fun _ => b) t L r).card = if b then L.card else 0 := by
  cases b <;> simp [matched]

theorem card_innerJoin (b : Bool) :
    (innerJoin (fun _ => b) t rows L).card = if b then L.card * rows.card else 0 := by
  simp only [innerJoin, Multiset.card_bind, Function.comp_def, card_matching, Multiset.map_const', Multiset.sum_replicate,
    smul_eq_mul]
  split <;> simp

theorem card_leftJoin (b : Bool) (hr : rows ≠ 0) :
    (leftJoin (fun _ => b) t rows L).card = if b then L.card * rows.card else L.card := by
  have hr' : rows.card ≠ 0 := mt Multiset.card_eq_zero.mp hr
  have hx : ∀ x, (if (matching (fun _ => b) t rows x).card = 0 then {x} else matching (fun _ => b) t rows x).card =
      if b then rows.card else 1 := by
    intro x
    cases b
    · simp [card_matching]
    · simp [card_matching, hr']
  simp only [leftJoin, Multiset.card_bind, Function.comp_def, hx, Multiset.map_const', Multiset.sum_replicate, smul_eq_mul]
  split <;> simp

theorem card_rightJoin (b : Bool) :
    (rightJoin (fun _ => b) t rows L).card = if b ∧ L.card ≠ 0 then L.card * rows.card else rows.card := by
  have hx : ∀ r, (if (matched (fun _ => b) t L r).card = 0 then {extend nowhere t r} else matched (fun _ => b) t L r).card =
      if b ∧ L.card ≠ 0 then L.card else 1 := by
    intro r
    cases b
    · simp [card_matched]
    · by_cases hL : L.card = 0 <;> simp [card_matched, hL]
  simp only [rightJoin, Multiset.card_bind, Function.comp_def, hx, Multiset.map_const', Multiset.sum_replicate, smul_eq_mul]
  split <;> simp [Nat.mul_comm]

end Card

end Joins
