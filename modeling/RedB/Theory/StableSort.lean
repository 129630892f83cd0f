import Mathlib.Data.List.Pairwise
import Mathlib.Data.List.Sublists

/-!
# Sorting by insertion

Elements are put in one after the other, each behind those that are not greater. The result is in
order, and elements that are equal stay as they came (`sorts_sortLast`).

A sort by one order is a sort by another one if and only if both agree on each two elements, in the
order in which these came (`sorts_iff`).
-/

namespace StableSort

variable {α : Type}

/-- An element is put behind those that are not greater. -/
def insertLast (le : α → α → Bool) (x : α) : List α → List α
  | [] => [x]
  | y :: ys => if le y x then y :: insertLast le x ys else x :: y :: ys

/-- Elements are put in one after the other. -/
def sortLast (le : α → α → Bool) (l : List α) : List α := l.foldl (fun acc x => insertLast le x acc) []

/-- The elements that are equal to one. -/
def equals (le : α → α → Bool) (a b : α) : Bool := le a b && le b a

/-- A list is sorted, and elements that are equal stay as they came. -/
structure Sorts (le : α → α → Bool) (l sorted : List α) : Prop where
  perm : sorted.Perm l
  pairwise : sorted.Pairwise fun a b => le a b = true
  stable : ∀ a, sorted.filter (equals le a) = l.filter (equals le a)

/-- An order in which any two elements can be compared. -/
structure Compares (le : α → α → Bool) : Prop where
  trans : ∀ a b c, le a b = true → le b c = true → le a c = true
  total : ∀ a b, le a b = true ∨ le b a = true

variable {le le' : α → α → Bool}

theorem Compares.refl (h : Compares le) (a : α) : le a a = true := (h.total a a).elim id id

theorem Compares.of_not (h : Compares le) {a b : α} (hn : ¬le a b = true) : le b a = true := (h.total a b).resolve_left hn

/-! ### Insertion -/

theorem insertLast_perm (x : α) (l : List α) : (insertLast le x l).Perm (x :: l) := by
  induction l with
  | nil => exact List.Perm.refl _
  | cons y ys ih =>
    rw [insertLast]
    split
    · exact (ih.cons y).trans (List.Perm.swap x y ys)
    · exact List.Perm.refl _

theorem insertLast_pairwise (h : Compares le) {x : α} {l : List α} (hl : l.Pairwise fun a b => le a b = true) :
    (insertLast le x l).Pairwise fun a b => le a b = true := by
  induction l with
  | nil => exact List.pairwise_singleton _ _
  | cons y ys ih =>
    obtain ⟨hy, hys⟩ := List.pairwise_cons.mp hl
    rw [insertLast]
    split
    · rename_i hle
      refine List.pairwise_cons.mpr ⟨fun z hz => ?_, ih hys⟩
      rcases List.mem_cons.mp ((insertLast_perm x ys).mem_iff.mp hz) with rfl | hz
      · exact hle
      · exact hy z hz
    · rename_i hle
      refine List.pairwise_cons.mpr ⟨fun z hz => ?_, hl⟩
      rcases List.mem_cons.mp hz with rfl | hz
      · exact h.of_not hle
      · exact h.trans x y z (h.of_not hle) (hy z hz)

/-- What is not greater than the new element stays in front of it. -/
theorem insertLast_of_le {x : α} {l : List α} (hl : ∀ y ∈ l, le y x = true) : insertLast le x l = l ++ [x] := by
  induction l with
  | nil => rfl
  | cons y ys ih =>
    rw [insertLast, if_pos (hl y List.mem_cons_self), ih fun z hz => hl z (List.mem_cons_of_mem _ hz)]
    rfl

/-- A new element comes in front of what is greater. -/
theorem insertLast_of_lt {x : α} {l : List α} (hl : ∀ y ∈ l, ¬le y x = true) : insertLast le x l = x :: l := by
  cases l with
  | nil => rfl
  | cons y ys => rw [insertLast, if_neg (hl y List.mem_cons_self)]

/-- Some of the elements are as if the others were not there. -/
theorem insertLast_filter (h : Compares le) {x : α} {l : List α} (hl : l.Pairwise fun a b => le a b = true) (p : α → Bool) :
    (insertLast le x l).filter p = if p x then insertLast le x (l.filter p) else l.filter p := by
  induction l with
  | nil => cases hp : p x <;> simp [insertLast, hp]
  | cons y ys ih =>
    obtain ⟨hy, hys⟩ := List.pairwise_cons.mp hl
    rw [insertLast]
    split
    · rename_i hle
      rw [List.filter_cons, ih hys, List.filter_cons]
      split
      · split
        · rw [insertLast, if_pos hle]
        · rfl
      · rfl
    · rename_i hle
      -- all that is behind is greater
      have hall : ∀ z ∈ (y :: ys).filter p, ¬le z x = true := by
        intro z hz hzx
        rcases List.mem_cons.mp (List.mem_filter.mp hz).1 with rfl | hz
        · exact hle hzx
        · exact hle (h.trans y z x (hy z hz) hzx)
      rw [List.filter_cons, insertLast_of_lt hall]

/-- The elements have keys. -/
theorem insertLast_map {β : Type} {le : β → β → Bool} (f : α → β) (x : α) (l : List α) :
    insertLast le (f x) (l.map f) = (insertLast (fun a b => le (f a) (f b)) x l).map f := by
  induction l with
  | nil => rfl
  | cons y ys ih =>
    rw [List.map_cons, insertLast, insertLast, ih]
    split <;> rfl

/-! ### Sorting -/

theorem foldl_insertLast_perm (l acc : List α) : (l.foldl (fun acc x => insertLast le x acc) acc).Perm (acc ++ l) := by
  induction l generalizing acc with
  | nil => rw [List.foldl_nil, List.append_nil]
  | cons x l ih =>
    refine (ih _).trans ?_
    refine ((insertLast_perm x acc).append_right l).trans ?_
    exact List.perm_middle.symm

theorem sortLast_perm (l : List α) : (sortLast le l).Perm l := foldl_insertLast_perm l []

theorem foldl_insertLast_pairwise (h : Compares le) (l : List α) {acc : List α} (hacc : acc.Pairwise fun a b => le a b = true) :
    (l.foldl (fun acc x => insertLast le x acc) acc).Pairwise fun a b => le a b = true := by
  induction l generalizing acc with
  | nil => exact hacc
  | cons x l ih => exact ih (insertLast_pairwise h hacc)

theorem sortLast_pairwise (h : Compares le) (l : List α) : (sortLast le l).Pairwise fun a b => le a b = true :=
  foldl_insertLast_pairwise h l List.Pairwise.nil

theorem foldl_insertLast_filter (h : Compares le) (p : α → Bool) (l : List α) {acc : List α} (hacc : acc.Pairwise fun a b => le a b = true) :
    (l.foldl (fun acc x => insertLast le x acc) acc).filter p =
      (l.filter p).foldl (fun acc x => insertLast le x acc) (acc.filter p) := by
  induction l generalizing acc with
  | nil => rfl
  | cons x l ih =>
    rw [List.foldl_cons, ih (insertLast_pairwise h hacc), insertLast_filter h hacc, List.filter_cons]
    split <;> rfl

theorem sortLast_filter (h : Compares le) (p : α → Bool) (l : List α) : (sortLast le l).filter p = sortLast le (l.filter p) :=
  foldl_insertLast_filter h p l List.Pairwise.nil

theorem foldl_insertLast_sorted {l acc : List α} (hl : (acc ++ l).Pairwise fun a b => le a b = true) :
    l.foldl (fun acc x => insertLast le x acc) acc = acc ++ l := by
  induction l generalizing acc with
  | nil => rw [List.foldl_nil, List.append_nil]
  | cons x l ih =>
    have hx : ∀ y ∈ acc, le y x = true := fun y hy => (List.pairwise_append.mp hl).2.2 y hy x List.mem_cons_self
    rw [List.foldl_cons, insertLast_of_le hx]
    have happend : acc ++ [x] ++ l = acc ++ x :: l := by rw [List.append_assoc, List.singleton_append]
    rw [ih (happend ▸ hl), happend]

/-- A list that is in order stays as it is. -/
theorem sortLast_sorted {l : List α} (hl : l.Pairwise fun a b => le a b = true) : sortLast le l = l := foldl_insertLast_sorted hl

/-- Elements of a list of which each two are in order, as they come, stay as they are among all. -/
theorem sortLast_filter_of_pairwise (h : Compares le) {p : α → Bool} {l : List α} (hp : (l.filter p).Pairwise fun a b => le a b = true) :
    (sortLast le l).filter p = l.filter p := by
  rw [sortLast_filter h, sortLast_sorted hp]

theorem equals_pairwise (h : Compares le) (a : α) (l : List α) : (l.filter (equals le a)).Pairwise fun b c => le b c = true := by
  refine List.pairwise_of_forall_mem_list fun b hb c hc => ?_
  have hb := (Bool.and_eq_true_iff.mp (List.mem_filter.mp hb).2).2
  have hc := (Bool.and_eq_true_iff.mp (List.mem_filter.mp hc).2).1
  exact h.trans b a c hb hc

theorem sorts_sortLast (h : Compares le) (l : List α) : Sorts le l (sortLast le l) where
  perm := sortLast_perm l
  pairwise := sortLast_pairwise h l
  stable a := sortLast_filter_of_pairwise h (equals_pairwise h a l)

/-! ### Two orders -/

/-- Two elements of a filtered list. -/
theorem pair_sublist_filter {p : α → Bool} {a b : α} {l : List α} (ha : p a = true) (hb : p b = true) (h : [a, b].Sublist l) :
    [a, b].Sublist (l.filter p) := by
  have := h.filter p
  rwa [List.filter_cons_of_pos ha, List.filter_cons_of_pos hb, List.filter_nil] at this

theorem Sorts.le_of_sublist {l sorted : List α} (h : Sorts le l sorted) {a b : α} (hs : [a, b].Sublist sorted) : le a b = true := by
  have := h.pairwise.sublist hs
  exact (List.pairwise_cons.mp this).1 b List.mem_cons_self

/-- Two elements of a list, in one order or the other, if they are not one. -/
theorem pair_sublist {a b : α} {l : List α} (ha : a ∈ l) (hb : b ∈ l) (hne : a ≠ b) : [a, b].Sublist l ∨ [b, a].Sublist l := by
  induction l with
  | nil => cases ha
  | cons x l ih =>
    rcases List.mem_cons.mp ha with rfl | ha'
    · exact Or.inl ((List.singleton_sublist.mpr ((List.mem_cons.mp hb).resolve_left (Ne.symm hne))).cons_cons _)
    · rcases List.mem_cons.mp hb with rfl | hb'
      · exact Or.inr ((List.singleton_sublist.mpr ha').cons_cons _)
      · exact (ih ha' hb').imp (List.Sublist.cons _) (List.Sublist.cons _)

/-- A sort by one order is a sort by another one if and only if both agree on each two elements, in the
order in which these came. -/
theorem sorts_iff (h : Compares le) (h' : Compares le') (l : List α) :
    Sorts le' l (sortLast le l) ↔ ∀ a b, [a, b].Sublist l → (le a b = true ↔ le' a b = true) := by
  have hsort := sorts_sortLast h l
  constructor
  · intro hs a b hab
    have hmem : a ∈ sortLast le l ∧ b ∈ sortLast le l := by
      refine ⟨hsort.perm.mem_iff.mpr ?_, hsort.perm.mem_iff.mpr ?_⟩
      · exact hab.subset List.mem_cons_self
      · exact hab.subset (List.mem_cons_of_mem _ List.mem_cons_self)
    by_cases hne : a = b
    · subst hne
      exact iff_of_true (h.refl a) (h'.refl a)
    -- two that are equal for one of the orders stay as they came
    have hkeeps : ∀ o : α → α → Bool, Compares o → Sorts o l (sortLast le l) → o a b = true → o b a = true →
        [a, b].Sublist (sortLast le l) := by
      intro o ho hso hle hge
      have hfilter := pair_sublist_filter (p := equals o a) (Bool.and_eq_true_iff.mpr ⟨ho.refl a, ho.refl a⟩)
        (Bool.and_eq_true_iff.mpr ⟨hle, hge⟩) hab
      rw [← hso.stable a] at hfilter
      exact hfilter.trans List.filter_sublist
    constructor
    · intro hle
      rcases pair_sublist hmem.1 hmem.2 hne with hsub | hsub
      · exact hs.le_of_sublist hsub
      · exact hs.le_of_sublist (hkeeps le h hsort hle (hsort.le_of_sublist hsub))
    · intro hle
      rcases pair_sublist hmem.1 hmem.2 hne with hsub | hsub
      · exact hsort.le_of_sublist hsub
      · exact hsort.le_of_sublist (hkeeps le' h' hs hle (hs.le_of_sublist hsub))
  · intro hagree
    refine ⟨hsort.perm, ?_, fun a => ?_⟩
    · refine List.pairwise_iff_forall_sublist.mpr fun {x y} hxy => ?_
      by_cases hne : x = y
      · subst hne
        exact h'.refl x
      have hx : x ∈ l := hsort.perm.mem_iff.mp (hxy.subset List.mem_cons_self)
      have hy : y ∈ l := hsort.perm.mem_iff.mp (hxy.subset (List.mem_cons_of_mem _ List.mem_cons_self))
      have hle := hsort.le_of_sublist hxy
      rcases pair_sublist hx hy hne with hsub | hsub
      · exact (hagree x y hsub).mp hle
      · by_cases hge : le y x = true
        · have hfilter := pair_sublist_filter (p := equals le x) (Bool.and_eq_true_iff.mpr ⟨h.refl x, h.refl x⟩)
            (Bool.and_eq_true_iff.mpr ⟨hle, hge⟩) hxy
          rw [hsort.stable x] at hfilter
          exact (hagree x y (hfilter.trans List.filter_sublist)).mp hle
        · exact h'.of_not fun hle' => hge ((hagree y x hsub).mpr hle')
    · refine sortLast_filter_of_pairwise h (List.pairwise_iff_forall_sublist.mpr fun {x y} hxy => ?_)
      refine (hagree x y (hxy.trans List.filter_sublist)).mpr ?_
      exact List.pairwise_iff_forall_sublist.mp (equals_pairwise h' a l) hxy

end StableSort
