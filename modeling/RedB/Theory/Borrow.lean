import RedB.Theory.Insert
import RedB.Theory.Leaves

/-!
# Borrowing and joining in a B+tree

Two neighbours around a separator: the one gives the other an entry, or both become one
node. The rules are those of a plain B-tree: what a child receives is the separator. For
inner nodes that is right, and the tokens stay what they are. A leaf receives an element
made of the separator, with `z` for a value, so there the keys stay and the values do not.
-/

namespace BPlus

namespace BTree

variable {ι κ α : Type}

/-! ### Rebalancing two neighbours -/

/-- The left node gives its last entry up as separator and the old separator comes down in
front of the right node. -/
def borrowPrev (z : α) : {h : ℕ} → BTree ι κ α h → κ → BTree ι κ α h → BTree ι κ α h × κ × BTree ι κ α h
  | 0, x, k, y =>
    (⟨Leaf.lbl x, (Leaf.elems x).dropLast⟩, ((Leaf.elems x).map Prod.fst).getLast?.getD k,
      ⟨Leaf.lbl y, (k, z) :: Leaf.elems y⟩)
  | _ + 1, x, k, y =>
    (⟨Inner.lbl x, (Inner.keys x).dropLast, (Inner.children x).dropLast⟩, (Inner.keys x).getLast?.getD k,
      ⟨Inner.lbl y, k :: Inner.keys y, (Inner.children x).getLast?.toList ++ Inner.children y⟩)

/-- The right node gives its first entry up as separator and the old separator comes down
behind the left node. -/
def borrowNext (z : α) : {h : ℕ} → BTree ι κ α h → κ → BTree ι κ α h → BTree ι κ α h × κ × BTree ι κ α h
  | 0, x, k, y =>
    (⟨Leaf.lbl x, Leaf.elems x ++ [(k, z)]⟩, ((Leaf.elems y).map Prod.fst).head?.getD k,
      ⟨Leaf.lbl y, (Leaf.elems y).tail⟩)
  | _ + 1, x, k, y =>
    (⟨Inner.lbl x, Inner.keys x ++ [k], Inner.children x ++ (Inner.children y).head?.toList⟩,
      (Inner.keys y).head?.getD k, ⟨Inner.lbl y, (Inner.keys y).tail, (Inner.children y).tail⟩)

/-- The two nodes become one, with the separator between them. -/
def join (z : α) : {h : ℕ} → BTree ι κ α h → κ → BTree ι κ α h → BTree ι κ α h
  | 0, x, k, y => ⟨Leaf.lbl x, Leaf.elems x ++ (k, z) :: Leaf.elems y⟩
  | _ + 1, x, k, y => ⟨Inner.lbl x, Inner.keys x ++ k :: Inner.keys y, Inner.children x ++ Inner.children y⟩

/-- Two nodes around a separator are two parts of one node. -/
theorem weave_append {P Q : List κ} {A B : List (List (Tok κ α))} (hA : A.length = P.length + 1)
    (hB : B.length = Q.length + 1) (k : κ) : weave (P ++ k :: Q) (A ++ B) = weave P A ++ .sep k :: weave Q B := by
  obtain ⟨b, B, rfl⟩ := List.exists_cons_of_length_eq_add_one hB
  rw [← List.singleton_append, ← List.append_assoc, weave_hole (by simp [hA]), before_concat hA]
  simp [weave]

theorem weave_cons {Q : List κ} {B : List (List (Tok κ α))} (hB : B.length = Q.length + 1) (k : κ)
    (c : List (Tok κ α)) : weave (k :: Q) (c :: B) = c ++ .sep k :: weave Q B := by
  simpa [weave, after] using weave_append (P := []) (A := [c]) rfl hB k

theorem weave_concat {P : List κ} {A : List (List (Tok κ α))} (hA : A.length = P.length + 1) (k : κ)
    (c : List (Tok κ α)) : weave (P ++ [k]) (A ++ [c]) = weave P A ++ .sep k :: c := by
  simpa [weave, after] using weave_append (Q := []) (B := [c]) hA rfl k

theorem toks_join (z : α) {r r' lo hi h : ℕ} {x y : BTree ι κ α (h + 1)} (k : κ) (hx : Shape r lo hi x)
    (hy : Shape r' lo hi y) : toks (join z x k y) = toks x ++ .sep k :: toks y := by
  obtain ⟨lx, ks, cs⟩ := x
  obtain ⟨ly, ks', cs'⟩ := y
  rw [shape_inner] at hx hy
  simp only [join, toks_inner, List.map_append]
  exact weave_append (by simpa using hx.2.1) (by simpa using hy.2.1) k

/-- The last child of the left node comes in front of the right one. -/
theorem toks_borrowPrev (z : α) {r r' lo hi h : ℕ} {x y : BTree ι κ α (h + 1)} (k : κ) (hx : Shape r lo hi x)
    (hr : 1 ≤ r) (hy : Shape r' lo hi y) : ∃ c,
    toks x = toks (borrowPrev z x k y).1 ++ .sep (borrowPrev z x k y).2.1 :: c ∧
      toks (borrowPrev z x k y).2.2 = c ++ .sep k :: toks y := by
  obtain ⟨lx, ks, cs⟩ := x
  obtain ⟨ly, ks', cs'⟩ := y
  rw [shape_inner] at hx hy
  obtain ⟨ks, p, rfl⟩ : ∃ ks₀ p, ks = ks₀ ++ [p] := by
    rcases List.eq_nil_or_concat ks with rfl | ⟨ks₀, p, rfl⟩
    · exact absurd (hr.trans hx.1.1) (by simp)
    · exact ⟨ks₀, p, by simp⟩
  obtain ⟨cs, c, rfl⟩ : ∃ cs₀ c, cs = cs₀ ++ [c] := by
    rcases List.eq_nil_or_concat cs with rfl | ⟨cs₀, c, rfl⟩
    · exact absurd hx.2.1 (by simp)
    · exact ⟨cs₀, c, by simp⟩
  have hlen : cs.length = ks.length + 1 := by simpa using hx.2.1
  have hlen' : cs'.length = ks'.length + 1 := hy.2.1
  refine ⟨toks c, ?_, ?_⟩
  · simp only [borrowPrev, toks_inner, List.dropLast_concat, List.getLast?_concat, Option.getD_some, List.map_append,
      List.map_cons, List.map_nil]
    exact weave_concat (by simpa using hlen) p _
  · simp only [borrowPrev, toks_inner, List.getLast?_concat, Option.toList_some, List.map_cons, List.singleton_append]
    exact weave_cons (by simpa using hlen') k _

/-- The first child of the right node comes behind the left one. -/
theorem toks_borrowNext (z : α) {r r' lo hi h : ℕ} {x y : BTree ι κ α (h + 1)} (k : κ) (hx : Shape r lo hi x)
    (hy : Shape r' lo hi y) (hr : 1 ≤ r') : ∃ c,
    toks y = c ++ .sep (borrowNext z x k y).2.1 :: toks (borrowNext z x k y).2.2 ∧
      toks (borrowNext z x k y).1 = toks x ++ .sep k :: c := by
  obtain ⟨lx, ks, cs⟩ := x
  obtain ⟨ly, ks', cs'⟩ := y
  rw [shape_inner] at hx hy
  obtain ⟨p, ks', rfl⟩ : ∃ p ks₀, ks' = p :: ks₀ := List.exists_cons_of_length_pos (hr.trans hy.1.1)
  obtain ⟨c, cs', rfl⟩ := List.exists_cons_of_length_eq_add_one hy.2.1
  have hlen : cs.length = ks.length + 1 := hx.2.1
  have hlen' : cs'.length = ks'.length + 1 := by simpa using hy.2.1
  refine ⟨toks c, ?_, ?_⟩
  · simp only [borrowNext, toks_inner, List.tail_cons, List.head?_cons, Option.getD_some, List.map_cons]
    exact weave_cons (by simpa using hlen') p _
  · simp only [borrowNext, toks_inner, List.head?_cons, Option.toList_some, List.map_append, List.map_cons,
      List.map_nil]
    exact weave_concat (by simpa using hlen) k _

/-- Rebalancing does not move keys, whatever the height. -/
theorem inorder_join (z : α) {r r' lo hi : ℕ} : {h : ℕ} → {x y : BTree ι κ α h} → (k : κ) → Shape r lo hi x →
    Shape r' lo hi y → inorder (toks (join z x k y)) = inorder (toks x) ++ k :: inorder (toks y)
  | 0, ⟨_, _⟩, ⟨_, _⟩, k, _, _ => by simp [join]
  | _ + 1, _, _, k, hx, hy => by rw [toks_join z k hx hy, inorder_append, inorder_sep]

theorem inorder_borrowPrev (z : α) {r r' lo hi : ℕ} : {h : ℕ} → {x y : BTree ι κ α h} → (k : κ) → Shape r lo hi x →
    1 ≤ r → Shape r' lo hi y →
    inorder (toks (borrowPrev z x k y).1) ++ (borrowPrev z x k y).2.1 :: inorder (toks (borrowPrev z x k y).2.2) =
      inorder (toks x) ++ k :: inorder (toks y)
  | 0, ⟨_, es⟩, ⟨_, fs⟩, k, hx, hr, _ => by
    rw [shape_leaf] at hx
    obtain ⟨es, e, rfl⟩ : ∃ es₀ e, es = es₀ ++ [e] := by
      rcases List.eq_nil_or_concat es with rfl | ⟨es₀, e, rfl⟩
      · exact absurd (hr.trans hx.1) (by simp)
      · exact ⟨es₀, e, by simp⟩
    simp [borrowPrev]
  | _ + 1, _, _, k, hx, hr, hy => by
    obtain ⟨c, h1, h2⟩ := toks_borrowPrev z k hx hr hy
    rw [h1, h2]
    simp

theorem inorder_borrowNext (z : α) {r r' lo hi : ℕ} : {h : ℕ} → {x y : BTree ι κ α h} → (k : κ) → Shape r lo hi x →
    Shape r' lo hi y → 1 ≤ r' →
    inorder (toks (borrowNext z x k y).1) ++ (borrowNext z x k y).2.1 :: inorder (toks (borrowNext z x k y).2.2) =
      inorder (toks x) ++ k :: inorder (toks y)
  | 0, ⟨_, es⟩, ⟨_, fs⟩, k, _, hy, hr => by
    rw [shape_leaf] at hy
    obtain ⟨f, fs, rfl⟩ : ∃ f fs₀, fs = f :: fs₀ := List.exists_cons_of_length_pos (hr.trans hy.1)
    simp [borrowNext]
  | _ + 1, _, _, k, hx, hy, hr => by
    obtain ⟨c, h1, h2⟩ := toks_borrowNext z k hx hy hr
    rw [h1, h2]
    simp

/-! ### Names and shapes -/

@[simp] theorem label_join (z : α) : {h : ℕ} → (x : BTree ι κ α h) → (k : κ) → (y : BTree ι κ α h) →
    (join z x k y).label = x.label
  | 0, _, _, _ => rfl
  | _ + 1, _, _, _ => rfl

@[simp] theorem label_borrowPrev_left (z : α) : {h : ℕ} → (x : BTree ι κ α h) → (k : κ) → (y : BTree ι κ α h) →
    (borrowPrev z x k y).1.label = x.label
  | 0, _, _, _ => rfl
  | _ + 1, _, _, _ => rfl

@[simp] theorem label_borrowPrev_right (z : α) : {h : ℕ} → (x : BTree ι κ α h) → (k : κ) → (y : BTree ι κ α h) →
    (borrowPrev z x k y).2.2.label = y.label
  | 0, _, _, _ => rfl
  | _ + 1, _, _, _ => rfl

@[simp] theorem label_borrowNext_left (z : α) : {h : ℕ} → (x : BTree ι κ α h) → (k : κ) → (y : BTree ι κ α h) →
    (borrowNext z x k y).1.label = x.label
  | 0, _, _, _ => rfl
  | _ + 1, _, _, _ => rfl

@[simp] theorem label_borrowNext_right (z : α) : {h : ℕ} → (x : BTree ι κ α h) → (k : κ) → (y : BTree ι κ α h) →
    (borrowNext z x k y).2.2.label = y.label
  | 0, _, _, _ => rfl
  | _ + 1, _, _, _ => rfl

/-! ### A node around two neighbours -/

theorem toks_one {h : ℕ} {l : ι} {P Q : List κ} {A B : List (BTree ι κ α h)} (hA : A.length = P.length)
    (c : BTree ι κ α h) : @toks ι κ α (h + 1) ⟨l, P ++ Q, A ++ c :: B⟩ =
      before P (A.map toks) ++ toks c ++ after Q (B.map toks) := by
  rw [toks_inner, List.map_append, List.map_cons, weave_hole (by simpa using hA)]

theorem toks_two {h : ℕ} {l : ι} {P Q : List κ} {A B : List (BTree ι κ α h)} (hA : A.length = P.length) (k : κ)
    (x y : BTree ι κ α h) : @toks ι κ α (h + 1) ⟨l, P ++ k :: Q, A ++ x :: y :: B⟩ =
      before P (A.map toks) ++ (toks x ++ .sep k :: toks y) ++ after Q (B.map toks) := by
  rw [toks_one hA, List.map_cons, after]
  simp

theorem toks_end {h : ℕ} {l : ι} {P : List κ} {A : List (BTree ι κ α h)} (hA : A.length = P.length)
    (c : BTree ι κ α h) : @toks ι κ α (h + 1) ⟨l, P, A ++ [c]⟩ = before P (A.map toks) ++ toks c := by
  have := toks_one (l := l) (Q := []) (B := []) hA c
  rw [List.append_nil] at this
  simpa [after] using this

theorem toks_end_two {h : ℕ} {l : ι} {P : List κ} {A : List (BTree ι κ α h)} (hA : A.length = P.length) (k : κ)
    (x y : BTree ι κ α h) : @toks ι κ α (h + 1) ⟨l, P ++ [k], A ++ [x, y]⟩ =
      before P (A.map toks) ++ (toks x ++ .sep k :: toks y) := by
  rw [toks_two (Q := []) (B := []) hA]
  simp [after]

/-! ### The shape of two neighbours -/

section Shapes

variable {t lo hi : ℕ}

theorem Shape.join (z : α) (k : κ) : {h : ℕ} → {x y : BTree ι κ α h} → Shape lo lo hi x → Shape lo lo hi y →
    x.count + y.count + 1 ≤ hi → Shape (x.count + y.count + 1) lo hi (join z x k y) ∧
      (x.join z k y).count = x.count + y.count + 1
  | 0, ⟨_, es⟩, ⟨_, fs⟩, _, _, h => by
    simp only [count_leaf] at h ⊢
    simp only [BTree.join, shape_leaf, count_leaf, List.length_append, List.length_cons]
    omega
  | _ + 1, ⟨_, ks, cs⟩, ⟨_, ks', cs'⟩, hx, hy, h => by
    rw [shape_inner] at hx hy
    simp only [count_inner] at h ⊢
    simp only [BTree.join, shape_inner, count_inner, List.length_append, List.length_cons, List.mem_append]
    refine ⟨⟨by omega, by omega, ?_⟩, by omega⟩
    rintro c (hc | hc)
    · exact hx.2.2 c hc
    · exact hy.2.2 c hc

theorem Shape.borrowPrev (z : α) (k : κ) : {h : ℕ} → {x y : BTree ι κ α h} → Shape lo lo hi x → Shape lo lo hi y →
    lo < x.count → y.count < hi → Shape lo lo hi (borrowPrev z x k y).1 ∧
      Shape (y.count + 1) lo hi (borrowPrev z x k y).2.2 ∧ (x.borrowPrev z k y).2.2.count = y.count + 1
  | 0, ⟨_, es⟩, ⟨_, fs⟩, hx, hy, h, h' => by
    rw [shape_leaf] at hx hy
    simp only [count_leaf] at h h' ⊢
    simp only [BTree.borrowPrev, shape_leaf, count_leaf, List.length_dropLast, List.length_cons]
    exact ⟨by omega, by omega, trivial⟩
  | _ + 1, ⟨_, ks, cs⟩, ⟨_, ks', cs'⟩, hx, hy, h, h' => by
    rw [shape_inner] at hx hy
    simp only [count_inner] at h h' ⊢
    obtain ⟨cs, c, rfl⟩ : ∃ cs₀ c, cs = cs₀ ++ [c] := by
      rcases List.eq_nil_or_concat cs with rfl | ⟨cs₀, c, rfl⟩
      · exact absurd hx.2.1 (by simp)
      · exact ⟨cs₀, c, by simp⟩
    simp only [List.length_append, List.length_singleton] at hx
    simp only [BTree.borrowPrev, shape_inner, count_inner, List.length_dropLast, List.length_cons,
      List.dropLast_concat, List.getLast?_concat, Option.toList_some, List.singleton_append, List.mem_cons]
    refine ⟨⟨by omega, by omega, fun d hd => hx.2.2 d (by simp [hd])⟩, ⟨by omega, by omega, ?_⟩, trivial⟩
    rintro d (rfl | hd)
    · exact hx.2.2 d (by simp)
    · exact hy.2.2 d hd

theorem Shape.borrowNext (z : α) (k : κ) : {h : ℕ} → {x y : BTree ι κ α h} → Shape lo lo hi x → Shape lo lo hi y →
    lo < y.count → x.count < hi → Shape (x.count + 1) lo hi (borrowNext z x k y).1 ∧
      Shape lo lo hi (borrowNext z x k y).2.2 ∧ (x.borrowNext z k y).1.count = x.count + 1
  | 0, ⟨_, es⟩, ⟨_, fs⟩, hx, hy, h, h' => by
    rw [shape_leaf] at hx hy
    simp only [count_leaf] at h h' ⊢
    simp only [BTree.borrowNext, shape_leaf, count_leaf, List.length_append, List.length_tail, List.length_singleton]
    exact ⟨by omega, by omega, trivial⟩
  | _ + 1, ⟨_, ks, cs⟩, ⟨_, ks', cs'⟩, hx, hy, h, h' => by
    rw [shape_inner] at hx hy
    simp only [count_inner] at h h' ⊢
    obtain ⟨c, cs', rfl⟩ := List.exists_cons_of_length_eq_add_one hy.2.1
    simp only [List.length_cons] at hy
    simp only [BTree.borrowNext, shape_inner, count_inner, List.length_append, List.length_tail, List.length_singleton,
      List.tail_cons, List.head?_cons, Option.toList_some, List.mem_append, List.mem_singleton]
    refine ⟨⟨by omega, by omega, ?_⟩, ⟨by omega, by omega, fun d hd => hy.2.2 d (List.mem_cons_of_mem c hd)⟩, trivial⟩
    rintro d (hd | rfl)
    · exact hx.2.2 d hd
    · exact hy.2.2 d (List.mem_cons_self ..)

end Shapes

end BTree

end BPlus
