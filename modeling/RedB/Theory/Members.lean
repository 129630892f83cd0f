import Mathlib.Data.List.Sort
import Mathlib.Data.List.Nodup
import Mathlib.Data.List.Perm.Basic

/-!
# Members of objects

An object has members under different names, in an order that does not matter. Members are put in
the order of their names. That a list is restored from the members of an object, put in this order,
takes names that grow along the list (`sorted_eq`).
-/

namespace Members

variable {K V : Type}

section Set

variable [DecidableEq K]

/-- The object with this member. A member of the same name is replaced. -/
def set (l : List (K × V)) (m : K × V) : List (K × V) :=
  if m.1 ∈ l.map Prod.fst then l.map fun p => if p.1 = m.1 then m else p else l ++ [m]

theorem set_new {l : List (K × V)} {m : K × V} (h : m.1 ∉ l.map Prod.fst) : set l m = l ++ [m] := if_neg h

/-- Members of different names are all there. -/
theorem foldl_set {l ms : List (K × V)} (h : ((l ++ ms).map Prod.fst).Nodup) : ms.foldl set l = l ++ ms := by
  induction ms generalizing l with
  | nil => rw [List.append_nil]; rfl
  | cons m ms ih =>
    have hm : m.1 ∉ l.map Prod.fst := by
      rw [List.map_append, List.nodup_append] at h
      intro hl
      exact h.2.2 _ hl _ List.mem_cons_self rfl
    have hcons : l ++ m :: ms = l ++ [m] ++ ms := by rw [List.append_assoc]; rfl
    rw [List.foldl_cons, set_new hm, hcons]
    exact ih (hcons ▸ h)

end Set

section Search

variable [DecidableEq K] {name : V → K}

theorem find?_eq_some {l : List V} (h : (l.map name).Nodup) {k : K} {v : V} :
    (l.find? fun v => name v = k) = some v ↔ v ∈ l ∧ name v = k := by
  constructor
  · intro hf
    exact ⟨List.mem_of_find?_eq_some hf, by simpa using List.find?_some hf⟩
  · rintro ⟨hv, rfl⟩
    cases hf : l.find? fun w => decide (name w = name v) with
    | none => simpa using List.find?_eq_none.mp hf v hv
    | some w =>
      have hw : name w = name v := by simpa using List.find?_some hf
      rw [List.inj_on_of_nodup_map h (List.mem_of_find?_eq_some hf) hv hw]

/-- A search by name does not depend on the order. -/
theorem find?_perm (name : V → K) {l l' : List V} (hp : l.Perm l') (h : (l.map name).Nodup) (k : K) :
    (l.find? fun v => name v = k) = l'.find? fun v => name v = k := by
  refine Option.ext fun v => ?_
  rw [find?_eq_some h, find?_eq_some ((hp.map name).nodup_iff.mp h), hp.mem_iff]

end Search

section Sorted

variable [LinearOrder K]

/-- Members in the order of their names. -/
def sorted (l : List (K × V)) : List (K × V) := l.insertionSort fun p q => p.1 ≤ q.1

theorem sorted_perm (l : List (K × V)) : (sorted l).Perm l := List.perm_insertionSort _ l

theorem pairwise_sorted (l : List (K × V)) : (sorted l).Pairwise fun p q => p.1 ≤ q.1 := by
  have : Std.Total fun p q : K × V => p.1 ≤ q.1 := ⟨fun p q => le_total p.1 q.1⟩
  have : IsTrans (K × V) fun p q => p.1 ≤ q.1 := ⟨fun _ _ _ => le_trans⟩
  exact List.pairwise_insertionSort _ l

/-- There is one order of the members of an object. -/
theorem sorted_congr {l l' : List (K × V)} (hp : l.Perm l') (h : (l.map Prod.fst).Nodup) : sorted l = sorted l' := by
  refine List.Perm.eq_of_pairwise (fun p q hpl hql hle hle' => ?_) (pairwise_sorted l) (pairwise_sorted l')
    ((sorted_perm l).trans (hp.trans (sorted_perm l').symm))
  have hq : q ∈ l := hp.mem_iff.mpr ((sorted_perm l').mem_iff.mp hql)
  exact List.inj_on_of_nodup_map h ((sorted_perm l).mem_iff.mp hpl) hq (le_antisymm hle hle')

/-- Members whose names grow are in order. -/
theorem sorted_eq {l : List (K × V)} (h : l.Pairwise fun p q => p.1 ≤ q.1) : sorted l = l := List.Pairwise.insertionSort_eq h

end Sorted

end Members
