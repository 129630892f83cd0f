import Mathlib.Data.List.Chain
import Mathlib.Data.List.Nodup
import Mathlib.Logic.Function.Basic

/-!
# Doubly linked rings

A list of names hangs on an owner: the forward reference of the owner is to the first name, its
backward reference to the last one, and the ends of the list refer to the owner. So the owner and the
names are a ring, and a name is put at the end of the list, or taken out of it, by changing the
references of the two names next to the place, whether one of them is the owner or not.
-/

namespace Rings

variable {ι κ : Type} {nx pv nx' pv' : ι → κ} {ref : ι → κ} {o x : ι} {xs A B : List ι}

/-- From the owner `o` through the names `xs` and back, forward along `nx` and backward along `pv`. -/
def RingOf (nx pv ref : ι → κ) (o : ι) (xs : List ι) : Prop :=
  List.IsChain (fun a b => nx a = ref b ∧ pv b = ref a) (o :: (xs ++ [o]))

theorem ringOf_nil : RingOf nx pv ref o [] ↔ nx o = ref o ∧ pv o = ref o :=
  List.isChain_pair

/-- A list that is not empty begins with all but its last name. -/
theorem exists_snoc (o : ι) (xs : List ι) : ∃ C, o :: xs = C ++ [xs.getLastD o] := by
  induction xs generalizing o with
  | nil => exact ⟨[], rfl⟩
  | cons x xs ih =>
    obtain ⟨C, hC⟩ := ih x
    exact ⟨o :: C, by rw [List.getLastD_cons, List.cons_append, ← hC]⟩

theorem exists_cons (o : ι) (xs : List ι) : ∃ D, xs ++ [o] = xs.headD o :: D := by
  cases xs with
  | nil => exact ⟨[], rfl⟩
  | cons x xs => exact ⟨xs ++ [o], rfl⟩

/-- The references on both sides of a place in the list. -/
theorem RingOf.split (h : RingOf nx pv ref o (A ++ B)) :
    nx (A.getLastD o) = ref (B.headD o) ∧ pv (B.headD o) = ref (A.getLastD o) := by
  obtain ⟨C, hC⟩ := exists_snoc o A
  obtain ⟨D, hD⟩ := exists_cons o B
  rw [RingOf, List.append_assoc, hD, ← List.cons_append, hC, List.append_assoc] at h
  exact (List.isChain_append_cons_cons.mp h).2.1

theorem RingOf.first (h : RingOf nx pv ref o xs) : nx o = ref (xs.headD o) := (@RingOf.split _ _ _ _ _ _ [] xs h).1

theorem RingOf.last (h : RingOf nx pv ref o xs) : pv o = ref (xs.getLastD o) := by
  rw [← List.append_nil xs] at h
  exact h.split.2

/-- A name refers to the one behind it. -/
theorem RingOf.next (h : RingOf nx pv ref o (A ++ x :: B)) : nx x = ref (B.headD o) := by
  rw [List.append_cons] at h
  simpa using h.split.1

/-- A name refers to the one before it. -/
theorem RingOf.prev (h : RingOf nx pv ref o (A ++ x :: B)) : pv x = ref (A.getLastD o) := h.split.2

/-- Only the references of the owner and of the names matter. -/
theorem RingOf.congr (h : RingOf nx pv ref o xs) (hnx : ∀ a ∈ o :: xs, nx' a = nx a) (hpv : ∀ a ∈ o :: xs, pv' a = pv a) :
    RingOf nx' pv' ref o xs := by
  have hmem : ∀ a ∈ o :: (xs ++ [o]), a ∈ o :: xs := by
    intro a ha
    simp only [List.mem_cons, List.mem_append, List.not_mem_nil, or_false] at ha ⊢
    tauto
  refine List.IsChain.imp_of_mem_imp (fun a b ha hb hab => ?_) h
  rw [hnx a (hmem a ha), hpv b (hmem b hb)]
  exact hab

/-- A part of the ring in which neither `p` refers forward nor `n` refers backward. -/
theorem isChain_update [DecidableEq ι] {l : List ι} {p n : ι} {v w : κ} (h : l.IsChain fun a b => nx a = ref b ∧ pv b = ref a)
    (hp : ∀ a b l₁ l₂, l = l₁ ++ a :: b :: l₂ → a ≠ p) (hn : ∀ a b l₁ l₂, l = l₁ ++ a :: b :: l₂ → b ≠ n) :
    l.IsChain fun a b => Function.update nx p v a = ref b ∧ Function.update pv n w b = ref a := by
  refine List.isChain_iff_forall_rel_of_append_cons_cons.mpr fun a b l₁ l₂ hl => ?_
  rw [Function.update_of_ne (hp a b l₁ l₂ hl), Function.update_of_ne (hn a b l₁ l₂ hl)]
  exact List.isChain_iff_forall_rel_of_append_cons_cons.mp h hl

/-- In a list without repetitions, what has a successor is not the last, and what has a predecessor is
not the first. -/
theorem ne_last_of_nodup {C l₁ l₂ : List ι} {p a b : ι} (hn : (C ++ [p]).Nodup) (h : C ++ [p] = l₁ ++ a :: b :: l₂) : a ≠ p := by
  rintro rfl
  obtain ⟨D, hD⟩ : ∃ D, l₁ ++ a :: b :: l₂ = D ++ [(b :: l₂).getLast (List.cons_ne_nil _ _)] :=
    ⟨l₁ ++ a :: (b :: l₂).dropLast, by
      rw [List.append_assoc, List.cons_append, List.dropLast_append_getLast]⟩
  have hlast := (List.append_inj' (h.trans hD) rfl).2
  rw [h] at hn
  have ha : a ∉ b :: l₂ := (List.nodup_cons.mp (List.nodup_append.mp hn).2.1).1
  rw [List.singleton_inj.mp hlast] at ha
  exact ha (List.getLast_mem _)

theorem ne_first_of_nodup {l l₁ l₂ : List ι} {n a b : ι} (hn : (n :: l).Nodup) (h : n :: l = l₁ ++ a :: b :: l₂) : b ≠ n := by
  rintro rfl
  have hmem : b ∈ l := by
    cases l₁ with
    | nil =>
      obtain ⟨-, rfl⟩ := List.cons.inj h
      exact List.mem_cons_self
    | cons c l₁ =>
      obtain ⟨-, rfl⟩ := List.cons.inj h
      simp
  exact (List.nodup_cons.mp hn).1 hmem

/-- A name is put at the end of the list. -/
theorem RingOf.put [DecidableEq ι] (h : RingOf nx pv ref o xs) (hn : (o :: xs).Nodup) (hx : x ∉ o :: xs) :
    RingOf (Function.update (Function.update nx x (ref o)) (xs.getLastD o) (ref x))
      (Function.update (Function.update pv x (ref (xs.getLastD o))) o (ref x)) ref o (xs ++ [x]) := by
  obtain ⟨C, hC⟩ := exists_snoc o xs
  have hl : xs.getLastD o ∈ o :: xs := by
    rw [hC]
    simp
  rw [RingOf, ← List.cons_append, hC, List.append_assoc] at h
  obtain ⟨hleft, -, -⟩ := List.isChain_append_cons_cons.mp h
  rw [RingOf, ← List.cons_append, ← List.cons_append, hC, List.append_assoc, List.append_assoc]
  refine List.isChain_append_cons_cons.mpr ⟨?_, ?_, List.isChain_pair.mpr ?_⟩
  · rw [← hC] at hleft ⊢
    have hx' : ∀ a b l₁ l₂, o :: xs = l₁ ++ a :: b :: l₂ → a ≠ x ∧ b ≠ x := by
      rintro a b l₁ l₂ hs
      constructor
      · rintro rfl
        exact hx (hs ▸ by simp)
      · rintro rfl
        exact hx (hs ▸ by simp)
    refine isChain_update (isChain_update hleft (fun a b l₁ l₂ hs => (hx' a b l₁ l₂ hs).1) fun a b l₁ l₂ hs => (hx' a b l₁ l₂ hs).2)
      (fun a b l₁ l₂ hs => ?_) fun a b l₁ l₂ hs => ne_first_of_nodup hn hs
    rw [hC] at hn hs
    exact ne_last_of_nodup hn hs
  · have hxo : x ≠ o := fun e => hx (e ▸ List.mem_cons_self)
    rw [Function.update_self, Function.update_of_ne hxo, Function.update_self]
    exact ⟨rfl, rfl⟩
  · have hxl : x ≠ xs.getLastD o := fun e => hx (e ▸ hl)
    rw [Function.update_of_ne hxl, Function.update_self, Function.update_self]
    exact ⟨rfl, rfl⟩

/-- A name is taken out of the list. -/
theorem RingOf.takeOut [DecidableEq ι] (h : RingOf nx pv ref o (A ++ x :: B)) (hn : (o :: (A ++ x :: B)).Nodup) :
    RingOf (Function.update nx (A.getLastD o) (nx x)) (Function.update pv (B.headD o) (pv x)) ref o (A ++ B) := by
  obtain ⟨C, hC⟩ := exists_snoc o A
  obtain ⟨D, hD⟩ := exists_cons o B
  have hxn := h.next
  have hxp := h.prev
  obtain ⟨hnA, hnB, hdis⟩ := List.nodup_append.mp (by rwa [← List.cons_append] at hn)
  obtain ⟨-, hnB⟩ := List.nodup_cons.mp hnB
  have hoB : o ∉ B := fun ho => hdis o List.mem_cons_self o (List.mem_cons_of_mem _ ho) rfl
  have hp : A.getLastD o ∈ o :: A := by
    rw [hC]
    simp
  rw [RingOf, List.append_assoc, List.cons_append, hD, ← List.cons_append, hC, List.append_assoc] at h
  obtain ⟨hleft, -, hright⟩ := List.isChain_append_cons_cons.mp h
  rw [RingOf, List.append_assoc, hD, ← List.cons_append, hC, List.append_assoc]
  refine List.isChain_append_cons_cons.mpr ⟨?_, ?_, ?_⟩
  · rw [← hC] at hleft ⊢
    refine isChain_update hleft (fun a b l₁ l₂ hs => ?_) fun a b l₁ l₂ hs => ?_
    · rw [hC] at hnA hs
      exact ne_last_of_nodup hnA hs
    · have hb : b ∈ o :: A := hs ▸ by simp
      cases B with
      | nil => exact ne_first_of_nodup hnA hs
      | cons y B => exact fun e => hdis b hb y (by simp) e
  · rw [Function.update_self, Function.update_self]
    exact ⟨hxn, hxp⟩
  · rw [← hD] at hright ⊢
    obtain ⟨-, hright⟩ := List.isChain_cons_cons.mp (hD ▸ hright)
    rw [← hD] at hright
    have hnr : (B ++ [o]).Nodup := by
      refine List.nodup_append.mpr ⟨hnB, List.nodup_singleton o, ?_⟩
      rintro a ha b hb rfl
      exact hoB (List.mem_singleton.mp hb ▸ ha)
    refine isChain_update hright (fun a b l₁ l₂ hs => ?_) fun a b l₁ l₂ hs => ?_
    · have ha : a ∈ B := by
        have ha' : a ∈ B ++ [o] := hs ▸ by simp
        rcases List.mem_append.mp ha' with ha' | ha'
        · exact ha'
        · exact absurd (List.mem_singleton.mp ha') (ne_last_of_nodup hnr hs)
      rintro rfl
      exact hdis _ hp _ (List.mem_cons_of_mem _ ha) rfl
    · rw [hD] at hnr hs
      exact ne_first_of_nodup hnr hs

end Rings
