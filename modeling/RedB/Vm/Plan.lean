import RedB.Theory.Joins
import Mathlib.Data.List.Range

/-!
# The order of the joins

A SELECT keeps its tables in a doubly linked list from `m_head` to `m_tail`. Each table
but the first has the kind of its join and the condition, on itself and the table before
it. `make_query` turns a prefix of the list around: up to the last right join if there is
one, and up to the middle otherwise.

The plan returns the rows of the query as it was written, for all conditions and tables,
for the kinds of `PlanOk` and no others (`makeQuery_preserves_iff`).
-/

namespace RedB

open Joins

/-- `m_action` of a table of the query. -/
inductive Action where
  | null
  | injoin
  | ltjoin
  | rtjoin
deriving DecidableEq, Repr

/-- `m_on_cond`: what it says of the rows of two tables. -/
structure OnCond (ρ : Type) where
  /-- The table before. -/
  left : ℕ
  /-- The joined table. -/
  right : ℕ
  /-- Its value. -/
  holds : Option ρ → Option ρ → Bool

/-- A table of the query. -/
structure Item (ρ : Type) where
  /-- Which table. -/
  table : ℕ
  /-- `m_action` -/
  action : Action
  /-- `m_on_cond` -/
  onCond : Option (OnCond ρ)

variable {ρ : Type}

/-! ### `make_query` -/

/-- The next item of the list gets the action and the condition of this one. -/
def carry (flip : Action → Action) : Item ρ → List (Item ρ) → List (Item ρ)
  | _, [] => []
  | prev, curr :: rest =>
      { curr with action := flip prev.action, onCond := prev.onCond } :: carry flip curr rest

/-- Moves actions and conditions one item right. -/
def shift (flip : Action → Action) : List (Item ρ) → List (Item ρ)
  | [] => []
  | front :: rest => { front with action := .null, onCond := none } :: carry flip front rest

/-- The kind of a join turned around before the last right join. -/
def flipRight : Action → Action
  | .ltjoin => .injoin
  | .rtjoin => .ltjoin
  | a => a

/-- The kind of a join turned around before the middle. -/
def flipMiddle : Action → Action
  | .ltjoin => .injoin
  | a => a

/-- Where `next`, from the head, and `prev`, from the tail, are the same item, if
anywhere; both have gone `count` steps. -/
def meet (size count : ℕ) : Option ℕ :=
  if size ≤ count then none
  else if count = size - 1 - count then some count
  else meet size (count + 1)
termination_by size - count

/-- `vm::make_query` -/
def makeQuery (items : List (Item ρ)) : List (Item ρ) :=
  let itemList := items.reverse.dropWhile fun i => decide (i.action ≠ .rtjoin)
  if itemList ≠ [] then
    shift flipRight itemList ++ items.drop itemList.length
  else
    match meet items.length 0 with
    | some count =>
        if 1 < count then shift flipMiddle (items.take (count + 1)).reverse ++ items.drop (count + 1)
        else items
    | none => items

/-- `m_have_inner_join`, which `vm::make_query` sets before it turns the list around. -/
def haveInnerJoin (items : List (Item ρ)) : Bool := items.tail.any fun i => decide (i.action = .injoin)

/-! ### What a list of tables denotes -/

/-- The value of a condition. -/
def OnCond.on (c : OnCond ρ) (x : JRow ℕ ρ) : Bool := c.holds (x c.left) (x c.right)

/-- The condition of an item. -/
def Item.on (i : Item ρ) (x : JRow ℕ ρ) : Bool := (i.onCond.map (·.on x)).getD true

variable (tables : ℕ → Multiset ρ)

/-- The join with the table of an item. -/
def joinStep (L : Multiset (JRow ℕ ρ)) (i : Item ρ) : Multiset (JRow ℕ ρ) :=
  match i.action with
  | .null | .injoin => innerJoin i.on i.table (tables i.table) L
  | .ltjoin => leftJoin i.on i.table (tables i.table) L
  | .rtjoin => rightJoin i.on i.table (tables i.table) L

/-- The joins of a list of tables, from left to right. -/
def denote : List (Item ρ) → Multiset (JRow ℕ ρ)
  | [] => 0
  | front :: rest => rest.foldl (joinStep tables) (rowsOf front.table (tables front.table))

/-! ### The list as written -/

/-- The kind of a join. -/
inductive Kind where
  | inner
  | left
  | right
deriving DecidableEq, Repr

/-- The action that `vm::inner_join`, `vm::left_join` and `vm::right_join` give a table. -/
def Kind.action : Kind → Action
  | .inner => .injoin
  | .left => .ltjoin
  | .right => .rtjoin

/-- A join: its kind, and its condition on the table before and the joined one. -/
abbrev Join (ρ : Type) := Kind × (Option ρ → Option ρ → Bool)

/-- The tables after table `i`. -/
def links (i : ℕ) : List (Join ρ) → List (Item ρ)
  | [] => []
  | (k, p) :: js => ⟨i + 1, k.action, some ⟨i, i + 1, p⟩⟩ :: links (i + 1) js

/-- The tables of a query, `t0 JOIN t1 ON .. JOIN t2 ON ..`. -/
def chain (js : List (Join ρ)) : List (Item ρ) := ⟨0, .null, none⟩ :: links 0 js

/-- For which kinds of joins the plan is right. A right join must be the first join and
the only one; and without one, if the number of tables is odd and 5 or more, the joins up to
the middle table must be inner joins. -/
def PlanOk (ks : List Kind) : Prop :=
  if .right ∈ ks then .right ∉ ks.tail
  else ks.length % 2 = 1 ∨ ks.length < 4 ∨ ∀ k ∈ ks.take (ks.length / 2), k = .inner

instance (ks : List Kind) : Decidable (PlanOk ks) := by unfold PlanOk; infer_instance

@[simp] theorem length_links (i : ℕ) (js : List (Join ρ)) : (links i js).length = js.length := by
  induction js generalizing i with
  | nil => rfl
  | cons j js ih => simp [links, ih]

@[simp] theorem length_chain (js : List (Join ρ)) : (chain js).length = js.length + 1 := by simp [chain]

theorem links_append (i : ℕ) (js js' : List (Join ρ)) : links i (js ++ js') = links i js ++ links (i + js.length) js' := by
  induction js generalizing i with
  | nil => simp [links]
  | cons j js ih =>
    rw [List.cons_append, links, links, ih, List.cons_append, List.length_cons, show i + 1 + js.length = i + (js.length + 1) by omega]

theorem action_eq_rtjoin {k : Kind} : k.action = .rtjoin ↔ k = .right := by cases k <;> simp [Kind.action]

theorem mem_links_action {i : ℕ} {js : List (Join ρ)} {x : Item ρ} (h : x ∈ links i js) : ∃ j ∈ js, x.action = j.1.action := by
  induction js generalizing i with
  | nil => cases h
  | cons j js ih =>
    rcases List.mem_cons.mp h with rfl | h
    · exact ⟨j, List.mem_cons_self .., rfl⟩
    · obtain ⟨j', hj', e⟩ := ih h
      exact ⟨j', List.mem_cons_of_mem _ hj', e⟩

/-! ### The list turned around -/

/-- The tables before table `i + js.length`, down to table `i`: each has the condition and
the kind of the join it had with the table after it. -/
def turned (flip : Action → Action) (i : ℕ) : List (Join ρ) → List (Item ρ)
  | [] => []
  | (k, p) :: js => turned flip (i + 1) js ++ [⟨i, flip k.action, some ⟨i, i + 1, p⟩⟩]

theorem carry_append (flip : Action → Action) (prev : Item ρ) (xs : List (Item ρ)) (a : Item ρ) :
    carry flip prev (xs ++ [a]) = carry flip prev xs ++
      [{ a with
          action := flip ((prev :: xs).getLast (by simp)).action
          onCond := ((prev :: xs).getLast (by simp)).onCond }] := by
  induction xs generalizing prev with
  | nil => rfl
  | cons x xs ih => simp only [List.cons_append, carry, ih x, List.getLast_cons_cons]

theorem shift_append (flip : Action → Action) {xs : List (Item ρ)} (hxs : xs ≠ []) (a : Item ρ) :
    shift flip (xs ++ [a]) = shift flip xs ++
      [{ a with action := flip (xs.getLast hxs).action, onCond := (xs.getLast hxs).onCond }] := by
  obtain ⟨x, xs, rfl⟩ := List.exists_cons_of_ne_nil hxs
  rw [List.cons_append, shift, shift, carry_append, List.cons_append]

/-- What `shift` makes of a prefix in reverse order. -/
theorem shift_reverse (flip : Action → Action) (a : Action) (c : Option (OnCond ρ)) (i : ℕ) (js : List (Join ρ)) :
    shift flip ((⟨i, a, c⟩ :: links i js).reverse) = ⟨i + js.length, .null, none⟩ :: turned flip i js := by
  induction js generalizing i a c with
  | nil => rfl
  | cons j js ih =>
    obtain ⟨k, p⟩ := j
    have hne : (links i ((k, p) :: js)).reverse ≠ [] := by simp [links]
    rw [List.reverse_cons, shift_append flip hne]
    simp only [links, List.getLast_reverse, List.head_cons]
    rw [ih, turned, List.cons_append, List.length_cons, show i + 1 + js.length = i + (js.length + 1) by omega]

/-- No item of the list is a right join. -/
theorem dropWhile_of_no_right {js : List (Join ρ)} (h : ∀ j ∈ js, j.1 ≠ .right) {i : ℕ} {tail : List (Item ρ)} :
    ((links i js).reverse ++ tail).dropWhile (fun i => decide (i.action ≠ .rtjoin)) =
      tail.dropWhile fun i => decide (i.action ≠ .rtjoin) := by
  rw [List.dropWhile_append_of_pos]
  intro x hx
  obtain ⟨j, hj, e⟩ := mem_links_action (List.mem_reverse.mp hx)
  rw [decide_eq_true_eq, e, Ne, action_eq_rtjoin]
  exact h j hj

/-- The plan of a query whose last right join is `j`. -/
theorem makeQuery_right {pre rest : List (Join ρ)} {p : Option ρ → Option ρ → Bool} (h : ∀ j ∈ rest, j.1 ≠ .right) :
    makeQuery (chain (pre ++ (.right, p) :: rest)) =
      ⟨pre.length + 1, .null, none⟩ :: (turned flipRight 0 (pre ++ [(.right, p)]) ++ links (pre.length + 1) rest) := by
  have hsplit : chain (pre ++ (.right, p) :: rest) = (⟨0, .null, none⟩ :: links 0 (pre ++ [(.right, p)])) ++ links (pre.length + 1) rest := by
    rw [chain, List.append_cons, links_append, List.cons_append, List.length_append, List.length_singleton, Nat.zero_add]
  have hlist : (chain (pre ++ (.right, p) :: rest)).reverse.dropWhile (fun i => decide (i.action ≠ .rtjoin)) =
      (⟨0, .null, none⟩ :: links 0 (pre ++ [(.right, p)])).reverse := by
    rw [hsplit, List.reverse_append, dropWhile_of_no_right h, links_append, ← List.cons_append, List.reverse_append]
    rfl
  have hne : (⟨0, .null, none⟩ :: links 0 (pre ++ [(Kind.right, p)])).reverse ≠ [] := by simp
  rw [makeQuery]
  simp only [hlist, if_pos hne]
  rw [shift_reverse, hsplit, List.length_reverse, List.drop_left, List.cons_append]
  simp

/-- Where the two pointers of the middle loop meet. -/
theorem meet_eq (size count : ℕ) :
    meet size count = if size % 2 = 1 ∧ 2 * count < size then some (size / 2) else none := by
  fun_induction meet size count with
  | case1 count hle => rw [if_neg (by omega)]
  | case2 count hlt heq => rw [if_pos (by omega)]; congr 1; omega
  | case3 count hlt hne ih =>
    rw [ih]
    congr 1
    exact propext (by omega)

/-- The plan of a query without a right join. -/
theorem makeQuery_no_right {js : List (Join ρ)} (h : ∀ j ∈ js, j.1 ≠ .right) :
    makeQuery (chain js) =
      if js.length % 2 = 0 ∧ 4 ≤ js.length then
        ⟨js.length / 2, .null, none⟩ :: (turned flipMiddle 0 (js.take (js.length / 2)) ++
          links (js.length / 2) (js.drop (js.length / 2)))
      else chain js := by
  have hlist : (chain js).reverse.dropWhile (fun i => decide (i.action ≠ .rtjoin)) = [] := by
    rw [chain, List.reverse_cons, dropWhile_of_no_right h]
    rfl
  simp only [makeQuery, hlist, ne_eq, not_true_eq_false, if_false, meet_eq, length_chain]
  by_cases hodd : (js.length + 1) % 2 = 1 ∧ 2 * 0 < js.length + 1
  · rw [if_pos hodd]
    have hhalf : (js.length + 1) / 2 = js.length / 2 := by omega
    simp only [hhalf]
    by_cases h1 : 1 < js.length / 2
    · rw [if_pos h1, if_pos (by omega)]
      have hsplit : chain js = (⟨0, .null, none⟩ :: links 0 (js.take (js.length / 2))) ++
          links (js.length / 2) (js.drop (js.length / 2)) := by
        conv_lhs => rw [chain, ← List.take_append_drop (js.length / 2) js, links_append]
        rw [List.cons_append, List.length_take_of_le (Nat.div_le_self ..), Nat.zero_add]
      have hlen : (⟨0, .null, none⟩ :: links 0 (js.take (js.length / 2)) : List (Item ρ)).length = js.length / 2 + 1 := by
        rw [List.length_cons, length_links, List.length_take_of_le (Nat.div_le_self ..)]
      rw [hsplit, List.take_left' hlen, List.drop_left' hlen, shift_reverse, List.length_take_of_le (Nat.div_le_self ..),
        Nat.zero_add, List.cons_append]
    · rw [if_neg h1, if_neg (by omega)]
  · rw [if_neg hodd, if_neg (by omega)]

/-! ### Inner joins of the plan -/

theorem getLast_right {ks : List Kind} (h : .right ∈ ks) : ∃ pre rest, ks = pre ++ .right :: rest ∧ .right ∉ rest := by
  induction ks with
  | nil => cases h
  | cons k ks ih =>
    by_cases hks : .right ∈ ks
    · obtain ⟨pre, rest, rfl, hrest⟩ := ih hks
      exact ⟨k :: pre, rest, rfl, hrest⟩
    · rcases List.mem_cons.mp h with rfl | h
      · exact ⟨[], ks, rfl, hks⟩
      · exact absurd h hks

theorem any_links (P : Action → Bool) (i : ℕ) (js : List (Join ρ)) :
    ((links i js).any fun x => P x.action) = js.any fun j => P j.1.action := by
  induction js generalizing i with
  | nil => rfl
  | cons j js ih => rw [links, List.any_cons, List.any_cons, ih]

theorem any_turned (flip : Action → Action) (P : Action → Bool) (i : ℕ) (js : List (Join ρ)) :
    ((turned flip i js).any fun x => P x.action) = js.any fun j => P (flip j.1.action) := by
  induction js generalizing i with
  | nil => rfl
  | cons j js ih => rw [turned, List.any_append, List.any_cons, List.any_cons, List.any_nil, ih, Bool.or_false, Bool.or_comm]

/-- A query with an inner join has a plan with one. The converse fails: a left join that is turned around is an inner one. -/
theorem haveInnerJoin_makeQuery {js : List (Join ρ)} (h : haveInnerJoin (chain js) = true) :
    haveInnerJoin (makeQuery (chain js)) = true := by
  have hinner : (js.any fun j => decide (j.1.action = .injoin)) = true := by
    rwa [haveInnerJoin, chain, List.tail_cons, any_links (fun a => decide (a = .injoin))] at h
  by_cases hright : Kind.right ∈ js.map Prod.fst
  · obtain ⟨front, back, hsplit, hback⟩ := getLast_right hright
    obtain ⟨pre, rest', rfl, -, hmap⟩ := List.map_eq_append_iff.mp hsplit
    obtain ⟨⟨k, p⟩, rest, rfl, rfl, rfl⟩ := List.map_eq_cons_iff.mp hmap
    have hrest : ∀ j ∈ rest, j.1 ≠ .right := fun j hj e => hback (e ▸ List.mem_map_of_mem hj)
    have hflip : ∀ a : Action, a = .injoin → flipRight a = .injoin := fun _ ha => by rw [ha]; rfl
    rw [makeQuery_right hrest, haveInnerJoin, List.tail_cons, List.any_append, any_turned _ (fun a => decide (a = .injoin)),
      any_links (fun a => decide (a = .injoin)), Bool.or_eq_true]
    rw [List.append_cons, List.any_append, Bool.or_eq_true] at hinner
    refine hinner.imp_left fun hpre => ?_
    obtain ⟨j, hj, ha⟩ := List.any_eq_true.mp hpre
    exact List.any_eq_true.mpr ⟨j, hj, decide_eq_true (hflip _ (of_decide_eq_true ha))⟩
  · have hno : ∀ j ∈ js, j.1 ≠ .right := fun j hj e => hright (e ▸ List.mem_map_of_mem hj)
    have hflip : ∀ a : Action, a = .injoin → flipMiddle a = .injoin := fun _ ha => by rw [ha]; rfl
    rw [makeQuery_no_right hno]
    split
    · rw [haveInnerJoin, List.tail_cons, List.any_append, any_turned _ (fun a => decide (a = .injoin)),
        any_links (fun a => decide (a = .injoin)), Bool.or_eq_true]
      rw [← List.take_append_drop (js.length / 2) js, List.any_append, Bool.or_eq_true] at hinner
      refine hinner.imp_left fun hpre => ?_
      obtain ⟨j, hj, ha⟩ := List.any_eq_true.mp hpre
      exact List.any_eq_true.mpr ⟨j, hj, decide_eq_true (hflip _ (of_decide_eq_true ha))⟩
    · exact h

example : haveInnerJoin (chain [(.left, fun _ _ : Option ℕ => true), (.right, fun _ _ => true)]) = false ∧
    haveInnerJoin (makeQuery (chain [(.left, fun _ _ : Option ℕ => true), (.right, fun _ _ => true)])) = true := by decide

/-! ### Where the plan is right -/

@[simp] theorem Item.on_some (t : ℕ) (a : Action) (c : OnCond ρ) : (⟨t, a, some c⟩ : Item ρ).on = c.on := rfl

/-- A condition does not look at other tables. -/
theorem OnCond.ignores (c : OnCond ρ) {t : ℕ} (hl : c.left ≠ t) (hr : c.right ≠ t) : Ignores (c.on · = true) t := by
  intro x r
  simp only [OnCond.on, extend, Function.update_of_ne hl, Function.update_of_ne hr]

theorem mem_links_table {i : ℕ} {js : List (Join ρ)} {x : Item ρ} (h : x ∈ links i js) : i < x.table := by
  induction js generalizing i with
  | nil => cases h
  | cons j js ih =>
    rcases List.mem_cons.mp h with rfl | h
    · exact Nat.lt_succ_self i
    · exact (Nat.lt_succ_self i).trans (ih h)

theorem mem_turned_onCond {flip : Action → Action} {i : ℕ} {js : List (Join ρ)} {x : Item ρ} (h : x ∈ turned flip i js) :
    ∃ c : OnCond ρ, x.on = c.on ∧ i ≤ c.left ∧ i ≤ c.right := by
  induction js generalizing i with
  | nil => cases h
  | cons j js ih =>
    rcases List.mem_append.mp h with h | h
    · obtain ⟨c, hc, h1, h2⟩ := ih h
      exact ⟨c, hc, by omega, by omega⟩
    · obtain rfl := List.mem_singleton.mp h
      exact ⟨⟨i, i + 1, j.2⟩, rfl, Nat.le_refl _, Nat.le_succ i⟩

theorem tables_links (i : ℕ) (js : List (Join ρ)) : (links i js).map Item.table = List.range' (i + 1) js.length := by
  induction js generalizing i with
  | nil => rfl
  | cons j js ih => rw [links, List.map_cons, ih, List.length_cons, List.range'_succ]

theorem tables_turned (flip : Action → Action) (i : ℕ) (js : List (Join ρ)) :
    (turned flip i js).map Item.table = (List.range' i js.length).reverse := by
  induction js generalizing i with
  | nil => rfl
  | cons j js ih => rw [turned, List.map_append, ih, List.length_cons, List.range'_succ, List.reverse_cons, List.map_singleton]

/-- The conditions are the same, in the other order. -/
theorem on_turned (flip : Action → Action) (i : ℕ) (js : List (Join ρ)) :
    (turned flip i js).map Item.on = ((links i js).map Item.on).reverse := by
  induction js generalizing i with
  | nil => rfl
  | cons j js ih =>
    rw [turned, links, List.map_append, ih, List.map_cons, List.map_nil]
    exact (List.reverse_cons ..).symm

theorem action_turned (flip : Action → Action) (i : ℕ) (js : List (Join ρ)) :
    (turned flip i js).map Item.action = (js.map fun j => flip j.1.action).reverse := by
  induction js generalizing i with
  | nil => rfl
  | cons j js ih =>
    rw [turned, List.map_append, ih, List.map_cons, List.map_nil]
    exact (List.reverse_cons ..).symm

theorem rowsOf_eq_cross (t : ℕ) (rows : Multiset ρ) : rowsOf t rows = cross t rows {nowhere} :=
  (Multiset.singleton_bind ..).symm

/-- A list of inner joins is the product of its tables, filtered by all conditions. -/
theorem foldl_joinStep_inner {is : List (Item ρ)} (ha : ∀ i ∈ is, i.action = .injoin)
    (hi : is.Pairwise fun a b => Ignores (a.on · = true) b.table) (t : ℕ) :
    is.foldl (joinStep tables) (rowsOf t (tables t)) =
      (crossAll tables {nowhere} (t :: is.map Item.table)).filter fun x => ∀ on ∈ is.map Item.on, on x = true := by
  have hstep : ∀ L, is.foldl (joinStep tables) L =
      (is.map fun i => (i.table, i.on)).foldl (fun L j => innerJoin j.2 j.1 (tables j.1) L) L := by
    intro L
    rw [List.foldl_map]
    refine List.foldl_ext _ _ _ fun L i h => ?_
    rw [joinStep, ha i h]
  rw [hstep, foldl_inner tables (List.pairwise_map.mpr hi), rowsOf_eq_cross, List.map_map]
  refine Multiset.filter_congr fun x _ => ?_
  simp only [List.forall_mem_map]

theorem pairwise_links (i : ℕ) (js : List (Join ρ)) :
    (links i js).Pairwise fun a b => Ignores (a.on · = true) b.table := by
  induction js generalizing i with
  | nil => exact .nil
  | cons j js ih =>
    refine List.pairwise_cons.mpr ⟨fun b hb => ?_, ih (i + 1)⟩
    have := mem_links_table hb
    exact OnCond.ignores ⟨i, i + 1, j.2⟩ (by simp only; omega) (by simp only; omega)

theorem pairwise_turned (flip : Action → Action) (i : ℕ) (js : List (Join ρ)) :
    (turned flip i js).Pairwise fun a b => Ignores (a.on · = true) b.table := by
  induction js generalizing i with
  | nil => exact .nil
  | cons j js ih =>
    refine List.pairwise_append.mpr ⟨ih (i + 1), List.pairwise_singleton .., fun a ha b hb => ?_⟩
    obtain rfl := List.mem_singleton.mp hb
    obtain ⟨c, hc, h1, h2⟩ := mem_turned_onCond ha
    rw [hc]
    exact c.ignores (by simp only; omega) (by simp only; omega)

/-- Turning inner joins around changes nothing. -/
theorem turned_inner {flip : Action → Action} (hf : flip .injoin = .injoin) {js : List (Join ρ)} (h : ∀ j ∈ js, j.1 = .inner) :
    (turned flip 0 js).foldl (joinStep tables) (rowsOf js.length (tables js.length)) =
      (links 0 js).foldl (joinStep tables) (rowsOf 0 (tables 0)) := by
  have hturned : ∀ i ∈ turned flip 0 js, i.action = .injoin := by
    intro i hi
    have : i.action ∈ (turned flip 0 js).map Item.action := List.mem_map_of_mem hi
    rw [action_turned, List.mem_reverse] at this
    obtain ⟨j, hj, e⟩ := List.mem_map.mp this
    rw [← e, h j hj]
    exact hf
  have hlinks : ∀ i ∈ links 0 js, i.action = .injoin := by
    intro i hi
    obtain ⟨j, hj, e⟩ := mem_links_action hi
    rw [e, h j hj]
    rfl
  have hlist : 0 :: (links 0 js).map Item.table = List.range' 0 (js.length + 1) := by
    rw [tables_links, List.range'_succ]
  have hperm : (js.length :: (turned flip 0 js).map Item.table).Perm (0 :: (links 0 js).map Item.table) := by
    rw [tables_turned, hlist, List.range'_1_concat, Nat.zero_add]
    exact (List.perm_append_singleton ..).symm.trans ((List.reverse_perm _).append_right _)
  rw [foldl_joinStep_inner tables hturned (pairwise_turned ..), foldl_joinStep_inner tables hlinks (pairwise_links ..),
    crossAll_perm tables hperm (hperm.nodup_iff.mpr (hlist ▸ List.nodup_range')), on_turned]
  refine Multiset.filter_congr fun x _ => ?_
  simp only [List.mem_reverse]

/-- A right join of two tables is the left join of the same tables. -/
theorem rightJoin_rowsOf {a b : ℕ} (hab : a ≠ b) (c : OnCond ρ) (A B : Multiset ρ) :
    rightJoin c.on b B (rowsOf a A) = leftJoin c.on a A (rowsOf b B) := by
  have hmatch : ∀ r, matched c.on b (rowsOf a A) r = matching c.on a A (extend nowhere b r) := by
    intro r
    rw [matched, matching, rowsOf, Multiset.map_map]
    congr 1
    exact Multiset.map_congr rfl fun r' _ => extend_comm hab nowhere r' r
  rw [rightJoin, leftJoin, show rowsOf b B = B.map (extend nowhere b) from rfl, Multiset.bind_map]
  exact Multiset.bind_congr fun r _ => by rw [hmatch]

/-! ### Where it is wrong -/

section Counting

variable {two : Multiset ρ} (h2 : two.card = 2)

/-- How many rows a join with a table of two rows leaves of `n`, if its condition is
always true or always false. -/
def cardStep (n : ℕ) : Action × Bool → ℕ
  | (.null, b) | (.injoin, b) => if b then n * 2 else 0
  | (.ltjoin, b) => if b then n * 2 else n
  | (.rtjoin, b) => if b ∧ n ≠ 0 then n * 2 else 2

/-- Joins whose conditions are always true or always false. -/
def constant (kbs : List (Kind × Bool)) : List (Join ρ) := kbs.map fun kb => (kb.1, fun _ _ => kb.2)

include h2 in
theorem card_joinStep (L : Multiset (JRow ℕ ρ)) (i : Item ρ) {b : Bool} (hb : i.on = fun _ => b) :
    (joinStep (fun _ => two) L i).card = cardStep L.card (i.action, b) := by
  have hne : two ≠ 0 := by
    rintro rfl
    cases h2
  rw [joinStep, hb]
  cases i.action with
  | null => simp [card_innerJoin, cardStep, h2]
  | injoin => simp [card_innerJoin, cardStep, h2]
  | ltjoin => simp [card_leftJoin _ _ _ _ hne, cardStep, h2]
  | rtjoin => simp [card_rightJoin, cardStep, h2]

include h2 in
theorem card_links (i : ℕ) (kbs : List (Kind × Bool)) (L : Multiset (JRow ℕ ρ)) :
    ((links i (constant kbs)).foldl (joinStep fun _ => two) L).card =
      (kbs.map fun kb => (kb.1.action, kb.2)).foldl cardStep L.card := by
  induction kbs generalizing i L with
  | nil => rfl
  | cons kb kbs ih =>
    simp only [constant, List.map_cons, links, List.foldl_cons]
    rw [← constant, ih, card_joinStep h2 _ _ rfl]

include h2 in
theorem card_turned (flip : Action → Action) (i : ℕ) (kbs : List (Kind × Bool)) (L : Multiset (JRow ℕ ρ)) :
    ((turned flip i (constant kbs)).foldl (joinStep fun _ => two) L).card =
      (kbs.map fun kb => (flip kb.1.action, kb.2)).reverse.foldl cardStep L.card := by
  induction kbs generalizing i L with
  | nil => rfl
  | cons kb kbs ih =>
    simp only [constant, List.map_cons, turned, List.foldl_append, List.foldl_cons, List.foldl_nil, List.reverse_cons]
    rw [card_joinStep h2 _ _ rfl, ← constant, ih]

/-- With conditions that are always true every join doubles the rows. -/
theorem cardStep_true {as : List Action} (h : ∀ a ∈ as, a ≠ .rtjoin) (n : ℕ) :
    (as.map fun a => (a, true)).foldl cardStep n = n * 2 ^ as.length := by
  induction as generalizing n with
  | nil => simp
  | cons a as ih =>
    have h1 : cardStep n (a, true) = n * 2 := by
      cases a with
      | rtjoin => exact absurd rfl (h _ (List.mem_cons_self ..))
      | _ => simp [cardStep]
    rw [List.map_cons, List.foldl_cons, h1, ih fun a ha => h a (List.mem_cons_of_mem _ ha), List.length_cons, Nat.pow_succ,
      Nat.mul_assoc, Nat.mul_comm 2]

@[simp] theorem map_fst_constant (kbs : List (Kind × Bool)) : (constant kbs : List (Join ρ)).map Prod.fst = kbs.map Prod.fst := by
  simp [constant]

theorem constant_append (kbs kbs' : List (Kind × Bool)) :
    (constant (kbs ++ kbs') : List (Join ρ)) = constant kbs ++ constant kbs' := List.map_append

theorem length_constant (kbs : List (Kind × Bool)) : (constant kbs : List (Join ρ)).length = kbs.length := List.length_map _

/-- The kinds with conditions that are always true. -/
def withTrue (ks : List Kind) : List (Kind × Bool) := ks.map fun k => (k, true)

theorem withTrue_card {ks : List Kind} (h : .right ∉ ks) (n : ℕ) :
    ((withTrue ks).map fun kb => (kb.1.action, kb.2)).foldl cardStep n = n * 2 ^ ks.length := by
  have ha : ∀ a ∈ ks.map Kind.action, a ≠ .rtjoin := by
    intro a ha e
    obtain ⟨k, hk, rfl⟩ := List.mem_map.mp ha
    exact h (action_eq_rtjoin.mp e ▸ hk)
  simpa [withTrue, Function.comp_def] using cardStep_true ha n

/-- What is turned around has no right joins. -/
theorem withTrue_card_turned {flip : Action → Action} (ks : List Kind) (h : ∀ k ∈ ks, flip k.action ≠ .rtjoin) (n : ℕ) :
    (((withTrue ks).map fun kb => (flip kb.1.action, kb.2)).reverse).foldl cardStep n = n * 2 ^ ks.length := by
  have ha : ∀ a ∈ (ks.map fun k => flip k.action).reverse, a ≠ .rtjoin := by
    intro a ha
    obtain ⟨k, hk, rfl⟩ := List.mem_map.mp (List.mem_reverse.mp ha)
    exact h k hk
  simpa [withTrue, Function.comp_def, List.map_reverse] using cardStep_true ha n

theorem flipRight_ne (k : Kind) : flipRight k.action ≠ .rtjoin := by cases k <;> simp [Kind.action, flipRight]

theorem flipMiddle_ne {k : Kind} (h : k ≠ .right) : flipMiddle k.action ≠ .rtjoin := by
  cases k <;> simp [Kind.action, flipMiddle] at h ⊢

theorem not_right_withTrue {ks : List Kind} (h : .right ∉ ks) : ∀ j ∈ (constant (withTrue ks) : List (Join ρ)), j.1 ≠ .right := by
  intro j hj e
  obtain ⟨kb, hkb, rfl⟩ := List.mem_map.mp hj
  obtain ⟨k, hk, rfl⟩ := List.mem_map.mp hkb
  exact h (e ▸ hk)

include h2 in
/-- The right join, as written, leaves the two rows of its table. -/
theorem card_right_written (kbs : List (Kind × Bool)) {rest : List Kind} (h : .right ∉ rest) :
    (denote (fun _ => two) (chain (constant (kbs ++ (.right, false) :: withTrue rest)))).card = 2 * 2 ^ rest.length := by
  rw [chain, denote, card_links h2, List.map_append, List.map_cons, List.foldl_append, List.foldl_cons, withTrue_card h]
  rfl

include h2 in
/-- Turned around it is a left join that leaves the two rows of its table to the other joins. -/
theorem card_right_plan (kbs : List (Kind × Bool)) {rest : List Kind} (h : .right ∉ rest) :
    (denote (fun _ => two) (makeQuery (chain (constant (kbs ++ (.right, false) :: withTrue rest))))).card =
      (kbs.map fun kb => (flipRight kb.1.action, kb.2)).reverse.foldl cardStep 2 * 2 ^ rest.length := by
  have hsplit : (constant (kbs ++ (.right, false) :: withTrue rest) : List (Join ρ)) =
      constant kbs ++ (.right, fun _ _ => false) :: constant (withTrue rest) := constant_append ..
  have hturned : (constant kbs : List (Join ρ)) ++ [(.right, fun _ _ => false)] = constant (kbs ++ [(.right, false)]) :=
    (constant_append kbs [(.right, false)]).symm
  rw [hsplit, makeQuery_right (not_right_withTrue h), denote, List.foldl_append, hturned, card_links h2, card_turned h2,
    withTrue_card h, List.map_append, List.reverse_append]
  simp [rowsOf, h2, cardStep, flipRight, Kind.action]

include h2 in
/-- A right join after another join: what is before it is turned into left and inner joins,
which leave other rows. -/
theorem right_after_join (pre rest : List Kind) (k : Kind) (h : .right ∉ rest) :
    ∃ js : List (Join ρ), js.map Prod.fst = (pre ++ [k]) ++ .right :: rest ∧
      denote (fun _ => two) (makeQuery (chain js)) ≠ denote (fun _ => two) (chain js) := by
  refine ⟨constant ((withTrue pre ++ [(k, decide (k = .right))]) ++ (.right, false) :: withTrue rest), ?_, fun he => ?_⟩
  · simp [withTrue, Function.comp_def]
  have he := congrArg Multiset.card he
  rw [card_right_plan h2 _ h, card_right_written h2 _ h] at he
  have he := Nat.eq_of_mul_eq_mul_right (Nat.two_pow_pos _) he
  rw [List.map_append, List.reverse_append, List.foldl_append, withTrue_card_turned pre fun k _ => flipRight_ne k] at he
  -- the join before the right join comes next: four rows or none
  have hk : cardStep 2 (flipRight k.action, decide (k = .right)) = 4 ∨ cardStep 2 (flipRight k.action, decide (k = .right)) = 0 := by
    cases k <;> simp [cardStep, flipRight, Kind.action]
  have hpos := Nat.two_pow_pos pre.length
  simp only [List.map_cons, List.map_nil, List.reverse_singleton, List.foldl_cons, List.foldl_nil] at he
  rcases hk with hk | hk
  · rw [hk] at he
    omega
  · rw [hk] at he
    omega

include h2 in
/-- A left join before the middle table: turned around it is an inner join, which may
leave no rows. -/
theorem left_before_middle (pre rest rest' : List Kind) (h : .right ∉ pre ++ .left :: (rest ++ rest'))
    (hlen : (pre ++ .left :: rest).length = rest'.length) (hlen4 : 2 ≤ rest'.length) :
    ∃ js : List (Join ρ), js.map Prod.fst = pre ++ .left :: (rest ++ rest') ∧
      denote (fun _ => two) (makeQuery (chain js)) ≠ denote (fun _ => two) (chain js) := by
  have hpre : .right ∉ pre := fun hm => h (List.mem_append_left _ hm)
  have hrest : .right ∉ rest := fun hm => h (List.mem_append_right _ (List.mem_cons_of_mem _ (List.mem_append_left _ hm)))
  have hrest' : .right ∉ rest' := fun hm => h (List.mem_append_right _ (List.mem_cons_of_mem _ (List.mem_append_right _ hm)))
  let half := withTrue pre ++ (Kind.left, false) :: withTrue rest
  refine ⟨constant (half ++ withTrue rest'), ?_, fun he => ?_⟩
  · simp [half, withTrue, Function.comp_def]
  have hhalf : (constant half : List (Join ρ)).length = rest'.length := by
    simpa [half, length_constant, withTrue] using hlen
  have hall : (constant (half ++ withTrue rest') : List (Join ρ)).length = 2 * rest'.length := by
    rw [constant_append, List.length_append, hhalf, length_constant, withTrue, List.length_map, Nat.two_mul]
  have hno : ∀ j ∈ (constant (half ++ withTrue rest') : List (Join ρ)), j.1 ≠ .right := by
    intro j hj e
    obtain ⟨kb, hkb, rfl⟩ := List.mem_map.mp hj
    have : kb.1 ∈ pre ++ .left :: (rest ++ rest') := by
      have := List.mem_map_of_mem (f := Prod.fst) hkb
      simpa [half, withTrue, Function.comp_def] using this
    exact h (e ▸ this)
  have he := congrArg Multiset.card he
  rw [makeQuery_no_right hno, if_pos (by rw [hall]; omega), hall, Nat.mul_div_cancel_left _ Nat.two_pos, constant_append,
    List.take_left' hhalf, List.drop_left' hhalf, ← constant_append, denote, List.foldl_append, card_links h2, card_turned h2,
    withTrue_card hrest', chain, denote, card_links h2] at he
  simp only [half, List.map_append, List.map_cons, List.reverse_append, List.reverse_cons, List.foldl_append, List.foldl_cons,
    List.foldl_nil, List.append_assoc] at he
  have hflip : ∀ k ∈ pre, flipMiddle k.action ≠ .rtjoin := fun k hk => flipMiddle_ne fun e => hpre (e ▸ hk)
  rw [withTrue_card_turned pre hflip, withTrue_card hrest', withTrue_card hrest, withTrue_card hpre] at he
  -- nothing is left on one side
  have hzero : ∀ n, cardStep n (flipMiddle Kind.left.action, false) = 0 := fun n => rfl
  have hsame : ∀ n, cardStep n (Kind.left.action, false) = n := fun n => rfl
  rw [hzero, hsame, Nat.zero_mul, Nat.zero_mul] at he
  simp only [rowsOf, Multiset.card_map, h2] at he
  have hpos : 0 < 2 * 2 ^ pre.length * 2 ^ rest.length * 2 ^ rest'.length :=
    Nat.mul_pos (Nat.mul_pos (Nat.mul_pos Nat.two_pos (Nat.two_pow_pos _)) (Nat.two_pow_pos _)) (Nat.two_pow_pos _)
  omega

end Counting

theorem plan_ok {ks : List Kind} (h : PlanOk ks) {js : List (Join ρ)} (hjs : js.map Prod.fst = ks) :
    denote tables (makeQuery (chain js)) = denote tables (chain js) := by
  have hmem : ∀ j ∈ js, j.1 ∈ ks := fun j hj => hjs ▸ List.mem_map_of_mem hj
  have hlen : ks.length = js.length := hjs ▸ List.length_map _
  rw [PlanOk] at h
  split at h
  · -- a right join, the first one
    obtain ⟨pre, rest, rfl, hrest⟩ := getLast_right ‹_›
    cases pre with
    | cons k pre => exact absurd (List.mem_append_right pre (List.mem_cons_self ..)) h
    | nil =>
      obtain ⟨⟨k, p⟩, js, rfl, rfl, rfl⟩ := List.map_eq_cons_iff.mp hjs
      have hno : ∀ j ∈ js, j.1 ≠ .right := fun j hj e => hrest (e ▸ List.mem_map_of_mem hj)
      have := @makeQuery_right _ [] js p hno
      rw [List.nil_append] at this
      rw [this, chain, denote, denote, List.foldl_append, links, List.foldl_cons]
      congr 1
      exact (rightJoin_rowsOf (by simp) ⟨0, 1, p⟩ (tables 0) (tables 1)).symm
  · have hno : ∀ j ∈ js, j.1 ≠ .right := fun j hj e => ‹Kind.right ∉ ks› (e ▸ hmem j hj)
    rw [makeQuery_no_right hno]
    split
    · -- inner joins up to the middle
      have hin : ∀ j ∈ js.take (js.length / 2), j.1 = .inner := by
        intro j hj
        rcases h with h | h | h
        · omega
        · omega
        · refine h j.1 ?_
          rw [hlen, ← hjs, ← List.map_take]
          exact List.mem_map_of_mem hj
      have hhalf : (js.take (js.length / 2)).length = js.length / 2 := List.length_take_of_le (Nat.div_le_self ..)
      have := @turned_inner _ tables flipMiddle rfl _ hin
      rw [hhalf] at this
      rw [denote, List.foldl_append, this, chain, denote, ← List.foldl_append]
      congr 1
      conv_rhs => rw [← List.take_append_drop (js.length / 2) js, links_append, hhalf, Nat.zero_add]
    · rfl

/-- The plan of a query returns the rows of the query as written, whatever its conditions
and its tables, for exactly these kinds of joins. -/
theorem makeQuery_preserves_iff [Inhabited ρ] (ks : List Kind) :
    (∀ js : List (Join ρ), js.map Prod.fst = ks → ∀ tables : ℕ → Multiset ρ,
      denote tables (makeQuery (chain js)) = denote tables (chain js)) ↔ PlanOk ks := by
  refine ⟨fun h => ?_, fun h js hjs tables => plan_ok tables h hjs⟩
  have h2 : (Multiset.replicate 2 (default : ρ)).card = 2 := Multiset.card_replicate ..
  rw [PlanOk]
  split
  · obtain ⟨pre, rest, rfl, hrest⟩ := getLast_right ‹_›
    rcases pre.eq_nil_or_concat with rfl | ⟨pre, k, rfl⟩
    · exact hrest
    · rw [List.concat_eq_append] at h
      obtain ⟨js, hjs, hne⟩ := right_after_join h2 pre rest k hrest
      exact absurd (h js hjs _) hne
  · by_contra hbad
    push Not at hbad
    obtain ⟨heven, hlen, k, hk, hin⟩ := hbad
    have hleft : Kind.left ∈ ks.take (ks.length / 2) := by
      cases k with
      | inner => exact absurd rfl hin
      | left => exact hk
      | right => exact absurd (List.mem_of_mem_take hk) ‹_›
    obtain ⟨pre, rest, hsplit⟩ := List.append_of_mem hleft
    have hks : ks = pre ++ .left :: (rest ++ ks.drop (ks.length / 2)) := by
      conv_lhs => rw [← List.take_append_drop (ks.length / 2) ks, hsplit]
      simp
    have hlen1 : (pre ++ Kind.left :: rest).length = ks.length / 2 := by
      rw [← hsplit]
      exact List.length_take_of_le (Nat.div_le_self ..)
    have hlen2 : (ks.drop (ks.length / 2)).length = ks.length / 2 := by
      rw [List.length_drop]
      omega
    obtain ⟨js, hjs, hne⟩ := left_before_middle h2 pre rest (ks.drop (ks.length / 2)) (hks ▸ ‹_›) (hlen1.trans hlen2.symm)
      (by omega)
    exact hne (h js (hjs.trans hks.symm) _)

/-- `t0 INNER JOIN t1 ON t0.a = t1.a RIGHT JOIN t2 ON t1.a = t2.a`, with `t0` and `t2` holding
one row and `t1` none: the row of `t2` is lost. -/
theorem makeQuery_loses_row :
    ¬∀ (js : List (Join ℕ)) (tables : ℕ → Multiset ℕ), denote tables (makeQuery (chain js)) = denote tables (chain js) := by
  intro h
  have := h [(.inner, fun x y => x.isSome && decide (x = y)), (.right, fun x y => x.isSome && decide (x = y))]
    (fun t => if t = 1 then 0 else {7})
  have := congrArg Multiset.card this
  revert this
  decide

end RedB
