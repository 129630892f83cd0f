import Mathlib.Data.List.Basic
import Mathlib.Data.List.Nodup
import Mathlib.Data.Nat.Notation

/-!
# Doubly linked lists

A list of names is linked when every name leads to its successor by `nx` and to its
predecessor by `pv`, the ends leading nowhere. A list can be spliced by changing the
links next to the place: putting a name behind another, or taking one out.
-/

namespace Links

variable {ι : Type}

/-- Every name leads to the next one; the last leads nowhere. -/
def Fwd (nx : ι → Option ι) : List ι → Prop
  | [] => True
  | a :: l => nx a = l.head? ∧ Fwd nx l

/-- Every name leads to the one before it; the first leads to `p`. -/
def Bwd (pv : ι → Option ι) : Option ι → List ι → Prop
  | _, [] => True
  | p, a :: l => pv a = p ∧ Bwd pv (some a) l

/-- The last name of a list, or else `p`. -/
def lastOr (p : Option ι) (l : List ι) : Option ι := l.getLast?.or p

@[simp] theorem lastOr_nil (p : Option ι) : lastOr p [] = p := by simp [lastOr]

@[simp] theorem lastOr_cons (p : Option ι) (a : ι) (l : List ι) : lastOr p (a :: l) = lastOr (some a) l := by
  simp [lastOr, List.getLast?_cons]

theorem Fwd.congr {nx nx' : ι → Option ι} {l : List ι} (h : Fwd nx l) (he : ∀ a ∈ l, nx' a = nx a) :
    Fwd nx' l := by
  induction l with
  | nil => trivial
  | cons a l ih =>
    exact ⟨(he a (List.mem_cons_self ..)).trans h.1, ih h.2 fun b hb => he b (List.mem_cons_of_mem a hb)⟩

theorem Bwd.congr {pv pv' : ι → Option ι} {p : Option ι} {l : List ι} (h : Bwd pv p l)
    (he : ∀ a ∈ l, pv' a = pv a) : Bwd pv' p l := by
  induction l generalizing p with
  | nil => trivial
  | cons a l ih =>
    exact ⟨(he a (List.mem_cons_self ..)).trans h.1, ih h.2 fun b hb => he b (List.mem_cons_of_mem a hb)⟩

/-- The part of a linked list behind a name is linked. -/
theorem Fwd.right {nx : ι → Option ι} {l l' : List ι} (h : Fwd nx (l ++ l')) : Fwd nx l' := by
  induction l with
  | nil => exact h
  | cons a l ih => exact ih h.2

/-- A list is known by its first name and the links. -/
theorem Fwd.unique {nx : ι → Option ι} {l l' : List ι} (h : Fwd nx l) (h' : Fwd nx l') (he : l.head? = l'.head?) :
    l = l' := by
  induction l generalizing l' with
  | nil => exact (List.head?_eq_none_iff.mp he.symm).symm
  | cons a l ih =>
    obtain ⟨l', rfl⟩ := List.head?_eq_some_iff.mp he.symm
    rw [ih h.2 h'.2 (h.1.symm.trans h'.1)]

/-- A name in the list leads to the next one. -/
theorem Fwd.next {nx : ι → Option ι} {X Y : List ι} {a : ι} (h : Fwd nx (X ++ a :: Y)) : nx a = Y.head? :=
  h.right.1

/-- A tail of the list is replaced by another that begins alike. -/
theorem Fwd.replace {nx nx' : ι → Option ι} {X Y Y' : List ι} (h : Fwd nx (X ++ Y)) (hX : ∀ a ∈ X, nx' a = nx a)
    (hY : Fwd nx' Y') (hhead : Y'.head? = Y.head?) : Fwd nx' (X ++ Y') := by
  induction X with
  | nil => exact hY
  | cons a X ih =>
    refine ⟨?_, ih h.2 fun b hb => hX b (List.mem_cons_of_mem a hb)⟩
    rw [hX a (List.mem_cons_self ..), h.1]
    cases X with
    | nil => exact hhead.symm
    | cons b X => rfl

theorem Bwd.append {pv : ι → Option ι} {p : Option ι} {X Y : List ι} :
    Bwd pv p (X ++ Y) ↔ Bwd pv p X ∧ Bwd pv (lastOr p X) Y := by
  induction X generalizing p with
  | nil => simp [Bwd]
  | cons a X ih =>
    rw [List.cons_append, Bwd, ih, Bwd, lastOr_cons, and_assoc]

/-- Forward and backward links are inverse to each other. -/
theorem Fwd.iff_bwd {nx pv : ι → Option ι} {l : List ι} (h : Fwd nx l) (h' : Bwd pv none l) {a b : ι}
    (ha : a ∈ l) (hb : b ∈ l) : nx a = some b ↔ pv b = some a := by
  constructor
  · intro hab
    obtain ⟨X, Y, rfl⟩ := List.append_of_mem ha
    rw [h.next] at hab
    obtain ⟨Y', rfl⟩ : ∃ Y', Y = b :: Y' := List.head?_eq_some_iff.mp hab
    exact (Bwd.append.mp h').2.2.1
  · intro hba
    obtain ⟨X, Y, rfl⟩ := List.append_of_mem hb
    rw [(Bwd.append.mp h').2.1] at hba
    obtain ⟨X', rfl⟩ : ∃ X', X = X' ++ [a] := List.getLast?_eq_some_iff.mp (by simpa [lastOr] using hba)
    rw [List.append_assoc] at h
    exact h.next

/-- A name `f` is put behind `a`. -/
theorem Fwd.insert {nx nx' : ι → Option ι} {X Y : List ι} {a f : ι} (h : Fwd nx (X ++ a :: Y))
    (hn : (X ++ a :: Y).Nodup) (ha : nx' a = some f) (hf : nx' f = nx a)
    (he : ∀ b ∈ X ++ a :: Y, b ≠ a → nx' b = nx b) : Fwd nx' (X ++ a :: f :: Y) := by
  have ha' : ∀ b, b ∈ X ∨ b ∈ Y → b ≠ a := by
    rintro b hb rfl
    rw [List.nodup_middle, List.nodup_cons, List.mem_append] at hn
    exact hn.1 hb
  refine h.replace (fun b hb => he b (by simp [hb]) (ha' b (.inl hb))) ⟨ha, ?_, ?_⟩ rfl
  · rw [hf, h.next]
  · exact h.right.2.congr fun b hb => he b (by simp [hb]) (ha' b (.inr hb))

/-- The backward links when a name `f` is put behind `a`. -/
theorem Bwd.insert {pv pv' : ι → Option ι} {X Y : List ι} {a f : ι} {p : Option ι} (h : Bwd pv p (X ++ a :: Y))
    (hf : pv' f = some a) (hY : ∀ b, Y.head? = some b → pv' b = some f)
    (he : ∀ b ∈ X ++ a :: Y, Y.head? ≠ some b → pv' b = pv b) (hn : (X ++ a :: Y).Nodup) :
    Bwd pv' p (X ++ a :: f :: Y) := by
  rw [Bwd.append] at h ⊢
  obtain ⟨hX, ha, hY'⟩ := h
  have hdis : ∀ b, b ∈ X ∨ b = a → Y.head? ≠ some b := by
    intro b hb hh
    have hbY := List.mem_of_head? hh
    rw [List.nodup_append, List.nodup_cons] at hn
    rcases hb with hb | rfl
    · exact hn.2.2 b hb b (List.mem_cons_of_mem a hbY) rfl
    · exact hn.2.1.1 hbY
  refine ⟨hX.congr fun b hb => he b (by simp [hb]) (hdis b (.inl hb)), ?_, hf, ?_⟩
  · rw [he a (by simp) (hdis a (.inr rfl)), ha]
  · cases Y with
    | nil => trivial
    | cons y Y =>
      refine ⟨hY y rfl, hY'.2.congr fun b hb => he b (by simp [hb]) ?_⟩
      rintro hyb
      obtain rfl : y = b := by simpa using hyb
      rw [List.nodup_append, List.nodup_cons, List.nodup_cons] at hn
      exact hn.2.1.2.1 hb

end Links
