import RedB.Theory.Borrow

/-!
# Filling up a child

A child of fewer than `t` keys is brought up to `t` keys with the help of a neighbour
(`Refill`). The keys of the tree stay in order (`Refill.inorder`), and so do the nodes
below the children (`Refill.below`). The elements stay what they are if the children are
inner nodes (`Refill.elems`); for leaves they stay exactly if the element that is moved is
the one that would be made of the separator (`Refill.elems_iff`), and never if two
leaves are joined.
-/

namespace BPlus

namespace BTree

variable {ι κ α : Type}

/-- What the nodes below the children of the root say, from left to right. -/
def below {h : ℕ} (T : BTree ι κ α (h + 1)) : List (Desc ι κ α) := (Inner.children T).flatMap subDescs

@[simp] theorem below_mk {h : ℕ} (l : ι) (ks : List κ) (cs : List (BTree ι κ α h)) :
    @below ι κ α h ⟨l, ks, cs⟩ = cs.flatMap subDescs := rfl

/-! ### The nodes below two neighbours -/

theorem subDescs_borrowPrev (z : α) {r r' lo hi : ℕ} : {h : ℕ} → {x y : BTree ι κ α h} → (k : κ) → Shape r lo hi x →
    Shape r' lo hi y →
    subDescs (borrowPrev z x k y).1 ++ subDescs (borrowPrev z x k y).2.2 = subDescs x ++ subDescs y
  | 0, _, _, _, _, _ => rfl
  | _ + 1, ⟨_, ks, cs⟩, ⟨_, ks', cs'⟩, k, hx, _ => by
    rw [shape_inner] at hx
    obtain ⟨cs, c, rfl⟩ : ∃ cs₀ c, cs = cs₀ ++ [c] := by
      rcases List.eq_nil_or_concat cs with rfl | ⟨cs₀, c, rfl⟩
      · exact absurd hx.2.1 (by simp)
      · exact ⟨cs₀, c, by simp⟩
    simp [borrowPrev, subDescs]

theorem subDescs_borrowNext (z : α) {r r' lo hi : ℕ} : {h : ℕ} → {x y : BTree ι κ α h} → (k : κ) → Shape r lo hi x →
    Shape r' lo hi y →
    subDescs (borrowNext z x k y).1 ++ subDescs (borrowNext z x k y).2.2 = subDescs x ++ subDescs y
  | 0, _, _, _, _, _ => rfl
  | _ + 1, ⟨_, ks, cs⟩, ⟨_, ks', cs'⟩, k, _, hy => by
    rw [shape_inner] at hy
    obtain ⟨c, cs', rfl⟩ := List.exists_cons_of_length_eq_add_one hy.2.1
    simp [borrowNext, subDescs]

theorem subDescs_join (z : α) : {h : ℕ} → (x : BTree ι κ α h) → (k : κ) → (y : BTree ι κ α h) →
    subDescs (join z x k y) = subDescs x ++ subDescs y
  | 0, _, _, _ => rfl
  | _ + 1, _, _, _ => by simp [join, subDescs]

/-- The nodes of a tree, two neighbours among them in the open. -/
theorem descs_two {h : ℕ} (l : ι) (ks : List κ) (A B : List (BTree ι κ α h)) (x y : BTree ι κ α h) :
    (@descs ι κ α (h + 1) ⟨l, ks, A ++ x :: y :: B⟩).Perm
      (.inner l (h + 1) ks ((A ++ x :: y :: B).map label) :: rootDesc x :: rootDesc y ::
        (A.flatMap descs ++ (subDescs x ++ subDescs y) ++ B.flatMap descs)) := by
  rw [descs_inner, List.flatMap_append, List.flatMap_cons, List.flatMap_cons, descs_eq x, descs_eq y]
  refine List.Perm.cons _ ?_
  simp only [List.cons_append, List.append_assoc]
  refine List.perm_middle.trans (List.Perm.cons _ ?_)
  rw [← List.append_assoc]
  refine List.perm_middle.trans (List.Perm.cons _ ?_)
  rw [List.append_assoc]

/-- The nodes of a tree, its last child in the open. -/
theorem descs_last {h : ℕ} (l : ι) (ks : List κ) (A : List (BTree ι κ α h)) (x : BTree ι κ α h) :
    (@descs ι κ α (h + 1) ⟨l, ks, A ++ [x]⟩).Perm
      (.inner l (h + 1) ks ((A ++ [x]).map label) :: rootDesc x :: (A.flatMap descs ++ subDescs x)) := by
  rw [descs_inner, List.flatMap_append, List.flatMap_singleton, descs_eq x]
  exact List.Perm.cons _ List.perm_middle

/-! ### The ways to fill up a child -/

/-- Child `n`, which has fewer than `t` keys, borrows from its left neighbour if that has
`t` keys, or else from its right neighbour, or else the last two children, one of which it
is, are joined. -/
inductive Refill (t : ℕ) (z : α) {h : ℕ} : BTree ι κ α (h + 1) → ℕ → BTree ι κ α (h + 1) → Prop where
  /-- The left neighbour has keys to spare. -/
  | prev {l : ι} {P Q : List κ} {k : κ} {A B : List (BTree ι κ α h)} {x y : BTree ι κ α h} (hA : A.length = P.length)
      (hx : t ≤ x.count) (hy : y.count < t) :
      Refill t z ⟨l, P ++ k :: Q, A ++ x :: y :: B⟩ (P.length + 1)
        ⟨l, P ++ (x.borrowPrev z k y).2.1 :: Q, A ++ (x.borrowPrev z k y).1 :: (x.borrowPrev z k y).2.2 :: B⟩
  /-- The right neighbour has. -/
  | next {l : ι} {P Q : List κ} {k : κ} {A B : List (BTree ι κ α h)} {x y : BTree ι κ α h} (hA : A.length = P.length)
      (hprev : ∀ w, A.getLast? = some w → w.count < t) (hx : x.count < t) (hy : t ≤ y.count) :
      Refill t z ⟨l, P ++ k :: Q, A ++ x :: y :: B⟩ P.length
        ⟨l, P ++ (x.borrowNext z k y).2.1 :: Q, A ++ (x.borrowNext z k y).1 :: (x.borrowNext z k y).2.2 :: B⟩
  /-- The child is the last but one, and no neighbour has. -/
  | mergeNext {l : ι} {P : List κ} {k : κ} {A : List (BTree ι κ α h)} {x y : BTree ι κ α h} (hA : A.length = P.length)
      (hprev : ∀ w, A.getLast? = some w → w.count < t) (hx : x.count < t) (hy : y.count < t) :
      Refill t z ⟨l, P ++ [k], A ++ [x, y]⟩ P.length ⟨l, P, A ++ [join z x k y]⟩
  /-- The child is the last, and its neighbour has none to spare. -/
  | mergePrev {l : ι} {P : List κ} {k : κ} {A : List (BTree ι κ α h)} {x y : BTree ι κ α h} (hA : A.length = P.length)
      (hx : x.count < t) (hy : y.count < t) :
      Refill t z ⟨l, P ++ [k], A ++ [x, y]⟩ (P.length + 1) ⟨l, P, A ++ [join z x k y]⟩

/-- Child `n` has fewer than `t` keys, no neighbour has `t`, and it is neither the last child
nor the last but one. -/
inductive Wedged (t : ℕ) {h : ℕ} : BTree ι κ α (h + 1) → ℕ → Prop where
  /-- There is a child behind the right neighbour. -/
  | mk {l : ι} {P Q : List κ} {k q : κ} {A B : List (BTree ι κ α h)} {x y w : BTree ι κ α h} (hA : A.length = P.length)
      (hB : B.length = Q.length) (hprev : ∀ w, A.getLast? = some w → w.count < t) (hx : x.count < t)
      (hy : y.count < t) : Wedged t ⟨l, P ++ k :: (Q ++ [q]), A ++ x :: y :: (B ++ [w])⟩ P.length

/-- There is no other way. -/
theorem refill_or_wedged {t r lo hi : ℕ} (z : α) {h n : ℕ} {T : BTree ι κ α (h + 1)} {c : BTree ι κ α h}
    (hs : Shape r lo hi T) (hr : 1 ≤ r) (hc : (Inner.children T)[n]? = some c) (hct : c.count < t) :
    (∃ T', Refill t z T n T') ∨ Wedged t T n := by
  obtain ⟨l, ks, cs⟩ := T
  obtain ⟨hks, hlen, -⟩ := shape_inner.mp hs
  obtain ⟨A, B, rfl, rfl, -⟩ := hole hc
  simp only [List.length_append, List.length_cons] at hlen
  by_cases hprev : ∀ w, A.getLast? = some w → w.count < t
  · cases B with
    | nil =>
      obtain ⟨A, x, rfl⟩ : ∃ A₀ x, A = A₀ ++ [x] := by
        rcases List.eq_nil_or_concat A with rfl | ⟨A₀, x, rfl⟩
        · have := hr.trans hks.1
          simp only [List.length_nil] at hlen
          omega
        · exact ⟨A₀, x, by simp⟩
      obtain ⟨P, k, rfl⟩ : ∃ P k, ks = P ++ [k] := by
        rcases List.eq_nil_or_concat ks with rfl | ⟨P, k, rfl⟩
        · simp at hlen
        · exact ⟨P, k, by simp⟩
      have hA : A.length = P.length := by simpa using hlen
      have hm := Refill.mergePrev (z := z) (l := l) (k := k) hA (hprev x (by simp)) hct
      rw [← hA] at hm
      exact .inl ⟨_, by simpa using hm⟩
    | cons y B =>
      obtain ⟨P, k, Q, rfl, hP⟩ : ∃ P k Q, ks = P ++ k :: Q ∧ P.length = A.length := by
        obtain ⟨P, Q, hPQ, hP, -⟩ := hole (List.getElem?_eq_getElem (show A.length < ks.length by simp at hlen; omega))
        exact ⟨P, _, Q, hPQ, hP⟩
      by_cases hy : t ≤ y.count
      · exact .inl ⟨_, hP ▸ Refill.next hP.symm hprev hct hy⟩
      · rcases List.eq_nil_or_concat B with rfl | ⟨B, w, rfl⟩
        · obtain rfl : Q = [] := by
            refine List.eq_nil_of_length_eq_zero ?_
            simp at hlen
            omega
          exact .inl ⟨_, hP ▸ Refill.mergeNext hP.symm hprev hct (by omega)⟩
        · rcases List.eq_nil_or_concat Q with rfl | ⟨Q, q, rfl⟩
          · simp at hlen
            omega
          · rw [List.concat_eq_append] at hlen ⊢
            rw [List.concat_eq_append]
            exact .inr (hP ▸ Wedged.mk hP.symm (by simp at hlen; omega) hprev hct (by omega))
  · simp only [not_forall, not_lt] at hprev
    obtain ⟨x, hx, hxt⟩ := hprev
    obtain ⟨A, rfl⟩ : ∃ A₀, A = A₀ ++ [x] := List.getLast?_eq_some_iff.mp hx
    obtain ⟨P, k, Q, rfl, hP⟩ : ∃ P k Q, ks = P ++ k :: Q ∧ P.length = A.length := by
      obtain ⟨P, Q, hPQ, hP, -⟩ := hole (List.getElem?_eq_getElem (show A.length < ks.length by simp at hlen; omega))
      exact ⟨P, _, Q, hPQ, hP⟩
    have hm := Refill.prev (z := z) (l := l) (k := k) (Q := Q) (B := B) hP.symm hxt hct
    rw [hP] at hm
    exact .inl ⟨_, by simpa using hm⟩

/-! ### What stays -/

section Refill

variable {t r lo hi n : ℕ} {z : α} {h : ℕ} {T T' : BTree ι κ α (h + 1)}

theorem Refill.label (hf : Refill t z T n T') : T'.label = T.label := by
  cases hf <;> rfl

/-- The nodes below the children are the same ones, in the same order. -/
theorem Refill.below (hf : Refill t z T n T') (hs : Shape r lo hi T) : T'.below = T.below := by
  cases hf with
  | @prev l P Q k A B x y hA hx hy =>
    obtain ⟨-, -, hcs⟩ := shape_inner.mp hs
    have := subDescs_borrowPrev z k (hcs x (by simp)) (hcs y (by simp))
    simp only [below_mk, List.flatMap_append, List.flatMap_cons]
    rw [← List.append_assoc (subDescs _) (subDescs _), this, List.append_assoc]
  | @next l P Q k A B x y hA hprev hx hy =>
    obtain ⟨-, -, hcs⟩ := shape_inner.mp hs
    have := subDescs_borrowNext z k (hcs x (by simp)) (hcs y (by simp))
    simp only [below_mk, List.flatMap_append, List.flatMap_cons]
    rw [← List.append_assoc (subDescs _) (subDescs _), this, List.append_assoc]
  | mergeNext => simp [subDescs_join]
  | mergePrev => simp [subDescs_join]

/-- The keys are the same ones, in the same order. -/
theorem Refill.inorder (hf : Refill t z T n T') (hs : Shape r lo hi T) (ht : 1 ≤ t) :
    BPlus.inorder T'.toks = BPlus.inorder T.toks := by
  cases hf with
  | @prev l P Q k A B x y hA hx hy =>
    obtain ⟨-, -, hcs⟩ := shape_inner.mp hs
    have := inorder_borrowPrev z k ((hcs x (by simp)).root hx) ht (hcs y (by simp))
    simp only [toks_two hA, inorder_append, inorder_sep, this]
  | @next l P Q k A B x y hA hprev hx hy =>
    obtain ⟨-, -, hcs⟩ := shape_inner.mp hs
    have := inorder_borrowNext z k (hcs x (by simp)) ((hcs y (by simp)).root hy) ht
    simp only [toks_two hA, inorder_append, inorder_sep, this]
  | @mergeNext l P k A x y hA =>
    obtain ⟨-, -, hcs⟩ := shape_inner.mp hs
    have := inorder_join z k (hcs x (by simp)) (hcs y (by simp))
    simp only [toks_end hA, toks_end_two hA, inorder_append, inorder_sep, this]
  | @mergePrev l P k A x y hA =>
    obtain ⟨-, -, hcs⟩ := shape_inner.mp hs
    have := inorder_join z k (hcs x (by simp)) (hcs y (by simp))
    simp only [toks_end hA, toks_end_two hA, inorder_append, inorder_sep, this]

theorem shape_joined {l : ι} {P : List κ} {k : κ} {A : List (BTree ι κ α h)} {x y : BTree ι κ α h}
    (hs : @Shape ι κ α r (t - 1) hi (h + 1) ⟨l, P ++ [k], A ++ [x, y]⟩) (hx : x.count < t) (hy : y.count < t)
    (ht : 1 ≤ t) (hhi : 2 * t - 1 ≤ hi) :
    @Shape ι κ α (r - 1) (t - 1) hi (h + 1) ⟨l, P, A ++ [join z x k y]⟩ := by
  obtain ⟨hks, hlen, hcs⟩ := shape_inner.mp hs
  obtain ⟨h1, -⟩ := (hcs x (by simp)).join z k (hcs y (by simp)) (by omega)
  have hle := h1.le_count
  have hx' := (hcs x (by simp)).le_count
  simp only [List.length_append, List.length_cons, List.length_nil] at hks hlen
  refine shape_inner.mpr ⟨by omega, by simp; omega, fun c hc => ?_⟩
  simp only [List.mem_append, List.mem_singleton] at hc
  rcases hc with hc | rfl
  · exact hcs c (by simp [hc])
  · exact h1.root (by omega)

/-- Every node keeps between `t - 1` and `hi` keys; only the root may be left with one less. -/
theorem Refill.shape (hf : Refill t z T n T') (hs : Shape r (t - 1) hi T) (ht : 1 ≤ t) (hhi : 2 * t - 1 ≤ hi) :
    Shape (r - 1) (t - 1) hi T' := by
  cases hf with
  | @prev l P Q k A B x y hA hx hy =>
    obtain ⟨hks, hlen, hcs⟩ := shape_inner.mp hs
    obtain ⟨h1, h2, -⟩ := (hcs x (by simp)).borrowPrev z k (hcs y (by simp)) (by omega) (by omega)
    have hle := h2.le_count
    have hy' := (hcs y (by simp)).le_count
    simp only [List.length_append, List.length_cons] at hks hlen
    refine shape_inner.mpr ⟨by simp; omega, by simp; omega, fun c hc => ?_⟩
    simp only [List.mem_append, List.mem_cons] at hc
    rcases hc with hc | rfl | rfl | hc
    · exact hcs c (by simp [hc])
    · exact h1
    · exact h2.root (by omega)
    · exact hcs c (by simp [hc])
  | @next l P Q k A B x y hA hprev hx hy =>
    obtain ⟨hks, hlen, hcs⟩ := shape_inner.mp hs
    obtain ⟨h1, h2, -⟩ := (hcs x (by simp)).borrowNext z k (hcs y (by simp)) (by omega) (by omega)
    have hle := h1.le_count
    have hx' := (hcs x (by simp)).le_count
    simp only [List.length_append, List.length_cons] at hks hlen
    refine shape_inner.mpr ⟨by simp; omega, by simp; omega, fun c hc => ?_⟩
    simp only [List.mem_append, List.mem_cons] at hc
    rcases hc with hc | rfl | rfl | hc
    · exact hcs c (by simp [hc])
    · exact h1.root (by omega)
    · exact h2
    · exact hcs c (by simp [hc])
  | @mergeNext l P k A x y hA hprev hx hy => exact shape_joined hs hx hy ht hhi
  | @mergePrev l P k A x y hA hx hy => exact shape_joined hs hx hy ht hhi

/-- Above the leaves the tokens are the same ones. -/
theorem Refill.toks {T T' : BTree ι κ α (h + 2)} (hf : Refill t z T n T') (hs : Shape r lo hi T) (ht : 1 ≤ t) :
    T'.toks = T.toks := by
  cases hf with
  | @prev l P Q k A B x y hA hx hy =>
    obtain ⟨-, -, hcs⟩ := shape_inner.mp hs
    obtain ⟨c, h1, h2⟩ := toks_borrowPrev z k ((hcs x (by simp)).root hx) ht (hcs y (by simp))
    simp only [toks_two hA, h1, h2, List.append_assoc, List.cons_append]
  | @next l P Q k A B x y hA hprev hx hy =>
    obtain ⟨-, -, hcs⟩ := shape_inner.mp hs
    obtain ⟨c, h1, h2⟩ := toks_borrowNext z k (hcs x (by simp)) ((hcs y (by simp)).root hy) ht
    simp only [toks_two hA, h1, h2, List.append_assoc, List.cons_append]
  | @mergeNext l P k A x y hA =>
    obtain ⟨-, -, hcs⟩ := shape_inner.mp hs
    rw [toks_end hA, toks_end_two hA, toks_join z k (hcs x (by simp)) (hcs y (by simp))]
  | @mergePrev l P k A x y hA =>
    obtain ⟨-, -, hcs⟩ := shape_inner.mp hs
    rw [toks_end hA, toks_end_two hA, toks_join z k (hcs x (by simp)) (hcs y (by simp))]

end Refill

/-! ### When the elements stay -/

/-- The child before child `n` has `t` keys. -/
def PrevSpares (t : ℕ) {h : ℕ} (T : BTree ι κ α (h + 1)) (n : ℕ) : Prop :=
  ∃ m x, n = m + 1 ∧ (Inner.children T)[m]? = some x ∧ t ≤ x.count

/-- The child behind child `n` has `t` keys. -/
def NextSpares (t : ℕ) {h : ℕ} (T : BTree ι κ α (h + 1)) (n : ℕ) : Prop :=
  ∃ y, (Inner.children T)[n + 1]? = some y ∧ t ≤ y.count

/-- Child `n` can be filled up without harm to the elements. Inner nodes borrow, or the last
two are joined; leaves borrow, and the element that is given away is the one that is made of
the separator. -/
def Harmless (t : ℕ) (z : α) : {h : ℕ} → BTree ι κ α (h + 1) → ℕ → Prop
  | 0, T, n =>
    (PrevSpares t T n ∧ ∃ m x k, n = m + 1 ∧ (Inner.children T)[m]? = some x ∧ (Inner.keys T)[m]? = some k ∧
      (Leaf.elems x).getLast? = some (k, z)) ∨
    (¬PrevSpares t T n ∧ NextSpares t T n ∧ ∃ y k, (Inner.children T)[n + 1]? = some y ∧
      (Inner.keys T)[n]? = some k ∧ (Leaf.elems y).head? = some (k, z))
  | _ + 1, T, n => PrevSpares t T n ∨ NextSpares t T n ∨ (Inner.keys T).length ≤ n + 1

section Harmless

variable {t r lo hi n : ℕ} {z : α} {h : ℕ} {l : ι} {P Q : List κ} {k : κ}

theorem prevSpares_iff {A B : List (BTree ι κ α h)} {x : BTree ι κ α h} {ks : List κ} :
    PrevSpares t (⟨l, ks, A ++ x :: B⟩ : Inner ι κ (BTree ι κ α h)) (A.length + 1) ↔ t ≤ x.count := by
  constructor
  · rintro ⟨m, w, hm, hw, ht⟩
    obtain rfl : A.length = m := by omega
    obtain rfl : x = w := by simpa using hw
    exact ht
  · intro ht
    exact ⟨A.length, x, rfl, by simp, ht⟩

theorem not_prevSpares {A B : List (BTree ι κ α h)} {ks : List κ} (hprev : ∀ w, A.getLast? = some w → w.count < t) :
    ¬PrevSpares t (⟨l, ks, A ++ B⟩ : Inner ι κ (BTree ι κ α h)) A.length := by
  rintro ⟨m, w, hm, hw, ht⟩
  have hlast : A.getLast? = some w := by
    rw [List.getLast?_eq_getElem?, hm, Nat.add_sub_cancel]
    simpa [List.getElem?_append_left (show m < A.length by omega)] using hw
  have := hprev w hlast
  omega

theorem nextSpares_iff {A B : List (BTree ι κ α h)} {x y : BTree ι κ α h} {ks : List κ} :
    NextSpares t (⟨l, ks, A ++ x :: y :: B⟩ : Inner ι κ (BTree ι κ α h)) A.length ↔ t ≤ y.count := by
  constructor
  · rintro ⟨w, hw, ht⟩
    obtain rfl : y = w := by simpa [List.getElem?_append_right] using hw
    exact ht
  · intro ht
    exact ⟨y, by simp, ht⟩

/-- Two leaves, and what is made of them, between the same neighbours. -/
theorem elems_two_iff {A B : List (BTree ι κ α 0)} {l' : ι} {k' : κ} {x y x' y' : BTree ι κ α 0}
    (hA : A.length = P.length) :
    elems (@toks ι κ α 1 ⟨l', P ++ k' :: Q, A ++ x' :: y' :: B⟩) = elems (@toks ι κ α 1 ⟨l, P ++ k :: Q, A ++ x :: y :: B⟩) ↔
      Leaf.elems x' ++ Leaf.elems y' = Leaf.elems x ++ Leaf.elems y := by
  rw [toks_two hA, toks_two hA]
  simp only [elems_append, elems_sep]
  rw [List.append_cancel_right_eq, List.append_cancel_left_eq]
  simp [toks]

/-- Two leaves that are joined have one element more. -/
theorem elems_joined_ne {A : List (BTree ι κ α 0)} {x y : BTree ι κ α 0} (hA : A.length = P.length) :
    elems (@toks ι κ α 1 ⟨l, P, A ++ [join z x k y]⟩) ≠ elems (@toks ι κ α 1 ⟨l, P ++ [k], A ++ [x, y]⟩) := by
  rw [toks_end hA, toks_end_two hA]
  intro he
  have := congrArg List.length he
  simp [toks, join] at this

theorem Wedged.not_harmless {T : BTree ι κ α (h + 1)} (hw : Wedged t T n) : ¬Harmless t z T n := by
  obtain @⟨l, P, Q, k, q, A, B, x, y, w, hA, hB, hprev, hx, hy⟩ := hw
  rw [← hA]
  have hp : ¬PrevSpares t (⟨l, P ++ k :: (Q ++ [q]), A ++ x :: y :: (B ++ [w])⟩ : Inner ι κ (BTree ι κ α h)) A.length :=
    not_prevSpares hprev
  have hn : NextSpares t (⟨l, P ++ k :: (Q ++ [q]), A ++ x :: y :: (B ++ [w])⟩ : Inner ι κ (BTree ι κ α h)) A.length ↔
      t ≤ y.count := nextSpares_iff
  cases h with
  | zero =>
    rintro (⟨h1, -⟩ | ⟨-, h1, -⟩)
    · exact hp h1
    · have := hn.mp h1
      omega
  | succ h =>
    rintro (h1 | h1 | h1)
    · exact hp h1
    · have := hn.mp h1
      omega
    · simp at h1
      omega

/-- The elements stay what they are exactly if the child is filled up without harm. -/
theorem Refill.elems_iff {T T' : BTree ι κ α (h + 1)} (hf : Refill t z T n T') (hs : Shape r lo hi T) (ht : 1 ≤ t) :
    BPlus.elems T'.toks = BPlus.elems T.toks ↔ Harmless t z T n := by
  cases h with
  | succ h =>
    rw [hf.toks hs ht]
    refine ⟨fun _ => ?_, fun _ => rfl⟩
    cases hf with
    | prev hA hx => exact .inl (hA ▸ prevSpares_iff.mpr hx)
    | next hA hprev hx hy => exact .inr (.inl (hA ▸ nextSpares_iff.mpr hy))
    | mergeNext => exact .inr (.inr (by simp))
    | mergePrev => exact .inr (.inr (by simp))
  | zero =>
    cases hf with
    | @prev l P Q k A B x y hA hx hy =>
      have hp : PrevSpares t (⟨l, P ++ k :: Q, A ++ x :: y :: B⟩ : Inner ι κ (BTree ι κ α 0)) (P.length + 1) :=
        hA ▸ prevSpares_iff.mpr hx
      obtain ⟨es, e, hes⟩ : ∃ es e, Leaf.elems x = es ++ [e] := by
        rcases List.eq_nil_or_concat (Leaf.elems x) with hnil | ⟨es, e, hes⟩
        · have hlen : t ≤ (Leaf.elems x).length := hx
          simp [hnil] at hlen
          omega
        · exact ⟨es, e, by simpa using hes⟩
      have hx' : (A ++ x :: y :: B)[P.length]? = some x := by simp [← hA]
      rw [elems_two_iff hA]
      change (Leaf.elems x).dropLast ++ (k, z) :: Leaf.elems y = _ ↔ _
      rw [hes]
      constructor
      · intro he
        have hke : (k, z) = e := by simpa using he
        exact .inl ⟨hp, P.length, x, k, rfl, hx', by simp, by simp [hes, hke]⟩
      · rintro (⟨-, m, w, k', hm, hw, hk, hl⟩ | ⟨hn, -⟩)
        · obtain rfl : P.length = m := by omega
          obtain rfl := Option.some_inj.mp (hx'.symm.trans hw)
          obtain rfl : k = k' := by simpa using hk
          obtain rfl : e = (k, z) := by simpa [hes] using hl
          simp
        · exact absurd hp hn
    | @next l P Q k A B x y hA hprev hx hy =>
      have hp : ¬PrevSpares t (⟨l, P ++ k :: Q, A ++ x :: y :: B⟩ : Inner ι κ (BTree ι κ α 0)) P.length :=
        hA ▸ not_prevSpares hprev
      have hn : NextSpares t (⟨l, P ++ k :: Q, A ++ x :: y :: B⟩ : Inner ι κ (BTree ι κ α 0)) P.length :=
        hA ▸ nextSpares_iff.mpr hy
      obtain ⟨f, fs, hfs⟩ : ∃ f fs, Leaf.elems y = f :: fs := List.exists_cons_of_length_pos (ht.trans hy)
      have hy' : (A ++ x :: y :: B)[P.length + 1]? = some y := by simp [← hA]
      rw [elems_two_iff hA]
      change Leaf.elems x ++ [(k, z)] ++ (Leaf.elems y).tail = _ ↔ _
      rw [hfs]
      constructor
      · intro he
        have hkf : (k, z) = f := by simpa using he
        exact .inr ⟨hp, hn, y, k, hy', by simp, by simp [hfs, hkf]⟩
      · rintro (⟨h1, -⟩ | ⟨-, -, w, k', hw, hk, hl⟩)
        · exact absurd h1 hp
        · obtain rfl := Option.some_inj.mp (hy'.symm.trans hw)
          obtain rfl : k = k' := by simpa using hk
          obtain rfl : f = (k, z) := by simpa [hfs] using hl
          simp
    | @mergeNext l P k A x y hA hprev hx hy =>
      refine iff_of_false (elems_joined_ne hA) ?_
      rintro (⟨h1, -⟩ | ⟨-, h1, -⟩)
      · exact absurd h1 (hA ▸ not_prevSpares hprev)
      · have := nextSpares_iff.mp (hA ▸ h1)
        omega
    | @mergePrev l P k A x y hA hx hy =>
      refine iff_of_false (elems_joined_ne hA) ?_
      rintro (⟨h1, -⟩ | ⟨-, ⟨w, hw, -⟩, -⟩)
      · have := prevSpares_iff.mp (hA ▸ h1)
        omega
      · simp [← hA] at hw

end Harmless

end BTree

end BPlus
