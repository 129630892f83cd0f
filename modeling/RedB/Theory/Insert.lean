import RedB.Theory.BPlusTree

/-!
# Insertion into a B+tree with splitting on the way down

The insertion never descends into a full node: a full child is split first, so that
there is always room for the separator that comes up. `t` is the minimum degree: a
full node has `2 * t - 1` keys. A split leaf keeps `t` elements and leaves `t - 1` to
its new neighbour, a split inner node keeps `t - 1` keys and gives one away. The names
of new nodes are taken from a stream `q`, in the order in which they are needed.

The tokens of the tree tell what happens (`insertNF_toks`): some leaves are split, and
then one leaf, with everything on its left at most the new key and everything on its
right at least the new key, receives the element.
-/

namespace BPlus

namespace BTree

variable {ι κ α : Type}

/-! ### Splitting a node -/

/-- The key that goes up when a node is split. -/
def splitKey (t : ℕ) : {h : ℕ} → BTree ι κ α h → Option κ
  | 0, c => (Leaf.elems c)[t - 1]?.map Prod.fst
  | _ + 1, c => (Inner.keys c)[t - 1]?

/-- The left half of a node. -/
def left (t : ℕ) : {h : ℕ} → BTree ι κ α h → BTree ι κ α h
  | 0, c => ⟨Leaf.lbl c, (Leaf.elems c).take t⟩
  | _ + 1, c => ⟨Inner.lbl c, (Inner.keys c).take (t - 1), (Inner.children c).take t⟩

/-- The right half of a node, which gets the name `f`. -/
def right (t : ℕ) (f : ι) : {h : ℕ} → BTree ι κ α h → BTree ι κ α h
  | 0, c => ⟨f, (Leaf.elems c).drop t⟩
  | _ + 1, c => ⟨f, (Inner.keys c).drop t, (Inner.children c).drop t⟩

@[simp] theorem label_left (t : ℕ) : {h : ℕ} → (c : BTree ι κ α h) → (left t c).label = c.label
  | 0, _ => rfl
  | _ + 1, _ => rfl

@[simp] theorem label_right (t : ℕ) (f : ι) : {h : ℕ} → (c : BTree ι κ α h) → (right t f c).label = f
  | 0, _ => rfl
  | _ + 1, _ => rfl

/-- The nodes below a split node are divided among the halves. -/
theorem subDescs_split (t : ℕ) (f : ι) : {h : ℕ} → (c : BTree ι κ α h) →
    subDescs c = subDescs (left t c) ++ subDescs (right t f c)
  | 0, _ => rfl
  | _ + 1, ⟨l, ks, cs⟩ => by
    simp only [subDescs, left, right]
    rw [← List.flatMap_append, List.take_append_drop]

/-- A full node has a key to give away. -/
theorem exists_splitKey {t : ℕ} (ht : 1 ≤ t) : {h : ℕ} → {c : BTree ι κ α h} → c.count = 2 * t - 1 →
    ∃ k, splitKey t c = some k
  | 0, ⟨l, es⟩, hc => by
    rw [count_leaf] at hc
    exact ⟨es[t - 1].1, by simp [splitKey, List.getElem?_eq_getElem (show t - 1 < es.length by omega)]⟩
  | _ + 1, ⟨l, ks, cs⟩, hc => by
    rw [count_inner] at hc
    exact ⟨ks[t - 1], by simp [splitKey, List.getElem?_eq_getElem (show t - 1 < ks.length by omega)]⟩

/-- The halves of a full node have the shape of a node that is not full. -/
theorem Shape.left {r lo hi t : ℕ} (ht : 2 ≤ t) (hlo : lo ≤ t - 1) : {h : ℕ} → {c : BTree ι κ α h} →
    Shape r lo hi c → c.count = 2 * t - 1 → Shape lo lo hi (left t c) ∧ (c.left t).count < 2 * t - 1
  | 0, ⟨l, es⟩, h, hc => by
    rw [count_leaf] at hc
    rw [shape_leaf] at h
    simp only [BTree.left, shape_leaf, count_leaf, List.length_take]
    omega
  | _ + 1, ⟨l, ks, cs⟩, h, hc => by
    rw [count_inner] at hc
    rw [shape_inner] at h
    simp only [BTree.left, shape_inner, count_inner, List.length_take]
    exact ⟨⟨by omega, by omega, fun c hc => h.2.2 c (List.mem_of_mem_take hc)⟩, by omega⟩

theorem Shape.right {r lo hi t : ℕ} (ht : 2 ≤ t) (hlo : lo ≤ t - 1) (f : ι) : {h : ℕ} → {c : BTree ι κ α h} →
    Shape r lo hi c → c.count = 2 * t - 1 → Shape lo lo hi (right t f c) ∧ (c.right t f).count < 2 * t - 1
  | 0, ⟨l, es⟩, h, hc => by
    rw [count_leaf] at hc
    rw [shape_leaf] at h
    simp only [BTree.right, shape_leaf, count_leaf, List.length_drop]
    omega
  | _ + 1, ⟨l, ks, cs⟩, h, hc => by
    rw [count_inner] at hc
    rw [shape_inner] at h
    simp only [BTree.right, shape_inner, count_inner, List.length_drop]
    exact ⟨⟨by omega, by omega, fun c hc => h.2.2 c (List.mem_of_mem_drop hc)⟩, by omega⟩

/-- Splitting an inner node leaves the tokens as they are, splitting a leaf puts in a
separator. -/
theorem splits_split {r lo hi t : ℕ} (ht : 2 ≤ t) {k : κ} (f : ι) : {h : ℕ} → {c : BTree ι κ α h} →
    Shape r lo hi c → c.count = 2 * t - 1 → splitKey t c = some k →
    Splits (toks c) (toks (left t c) ++ .sep k :: toks (right t f c))
  | 0, ⟨l, es⟩, _, hc, hk => by
    rw [count_leaf] at hc
    obtain ⟨e, he, rfl⟩ : ∃ e, es[t - 1]? = some e ∧ e.1 = k := by simpa [splitKey] using hk
    obtain ⟨A, B, rfl, hA, -⟩ := hole he
    have hB : B ≠ [] := by
      rintro rfl
      simp only [List.length_append, List.length_cons, List.length_nil] at hc
      omega
    have h1 : (A ++ e :: B).take t = A ++ [e] := by
      rw [List.take_append, List.take_of_length_le (by omega), show t - A.length = 1 by omega]
      rfl
    have h2 : (A ++ e :: B).drop t = B := by
      rw [List.drop_append, List.drop_of_length_le (by omega), show t - A.length = 1 by omega]
      rfl
    simp only [BTree.left, BTree.right, toks_leaf, h1, h2]
    exact Relation.ReflTransGen.single (SplitLeaf.mk [] [] A B e hB)
  | _ + 1, ⟨l, ks, cs⟩, h, hc, hk => by
    rw [count_inner] at hc
    rw [shape_inner] at h
    have hkt : ks[t - 1]? = some k := hk
    obtain ⟨P, Q, rfl, hP, -⟩ := hole hkt
    have hct : cs[t]? = some cs[t] := List.getElem?_eq_getElem (by omega)
    generalize cs[t] = c at hct
    obtain ⟨A, B, rfl, hA, -⟩ := hole hct
    have h1 : (P ++ k :: Q).take (t - 1) = P := by rw [← hP, List.take_left]
    have h2 : (P ++ k :: Q).drop t = Q := by
      rw [List.drop_append, List.drop_of_length_le (by omega), show t - P.length = 1 by omega]
      rfl
    have h3 : (A ++ c :: B).take t = A := by rw [← hA, List.take_left]
    have h4 : (A ++ c :: B).drop t = c :: B := by rw [← hA, List.drop_left]
    have hw : weave (P ++ k :: Q) ((A ++ c :: B).map toks) =
        weave P (A.map toks) ++ .sep k :: weave Q ((c :: B).map toks) := by
      rw [← List.singleton_append, ← List.append_assoc, List.map_append, List.map_cons,
        weave_hole (by simp [hP, hA]; omega), before_concat (by simp [hP, hA]; omega)]
      simp [weave]
    simp only [BTree.left, BTree.right, toks_inner, h1, h2, h3, h4, hw]
    exact Splits.refl _

/-! ### Insertion -/

section Insertion

variable [LinearOrder κ]

/-- Work on one child of a node. -/
def onChild {h : ℕ} (n : ℕ) (g : BTree ι κ α h → BTree ι κ α h × (ℕ → ι))
    (p : BTree ι κ α (h + 1) × (ℕ → ι)) : BTree ι κ α (h + 1) × (ℕ → ι) :=
  match (Inner.children p.1)[n]? with
  | some c => (⟨Inner.lbl p.1, Inner.keys p.1, (Inner.children p.1).set n (g c).1⟩, (g c).2)
  | none => p

/-- The node in which child `n` has been split, the key going up being `k`. -/
def splitAt (t n : ℕ) {h : ℕ} (l : ι) (ks : List κ) (cs : List (BTree ι κ α h)) (c : BTree ι κ α h) (k : κ)
    (f : ι) : BTree ι κ α (h + 1) :=
  ⟨l, ks.take n ++ k :: ks.drop n, cs.take n ++ c.left t :: c.right t f :: cs.drop (n + 1)⟩

/-- Make sure that the child to descend into is not full: the node, the position of the
child in it and the names left. -/
def prep (t : ℕ) (x : κ) {h : ℕ} (T : BTree ι κ α (h + 1)) (q : ℕ → ι) :
    BTree ι κ α (h + 1) × ℕ × (ℕ → ι) :=
  match (Inner.children T)[pos x (Inner.keys T)]? with
  | none => (T, pos x (Inner.keys T), q)
  | some c =>
    if c.count < 2 * t - 1 then (T, pos x (Inner.keys T), q)
    else
      match splitKey t c with
      | none => (T, pos x (Inner.keys T), q)
      | some k =>
        (splitAt t (pos x (Inner.keys T)) (Inner.lbl T) (Inner.keys T) (Inner.children T) c k (q 0),
          pos x (Inner.keys T) + (if k < x then 1 else 0), fun i => q (i + 1))

/-- Insert into a tree whose root is not full. -/
def insertNF (t : ℕ) (x : κ × α) : {h : ℕ} → BTree ι κ α h → (ℕ → ι) → BTree ι κ α h × (ℕ → ι)
  | 0, T, q => (⟨Leaf.lbl T, insertAt x (Leaf.elems T)⟩, q)
  | _ + 1, T, q =>
    let p := prep t x.1 T q
    onChild p.2.1 (fun c => insertNF t x c p.2.2) (p.1, p.2.2)

/-- Insert into a tree: a full root becomes the child of a new root and is split. -/
def insertRoot (t : ℕ) (x : κ × α) (T : (h : ℕ) × BTree ι κ α h) (q : ℕ → ι) :
    ((h : ℕ) × BTree ι κ α h) × (ℕ → ι) :=
  if T.2.count < 2 * t - 1 then
    let p := insertNF t x T.2 q
    (⟨T.1, p.1⟩, p.2)
  else
    match splitKey t T.2 with
    | none => (T, q)
    | some k =>
      let p := onChild (if k < x.1 then 1 else 0) (fun c => insertNF t x c fun i => q (i + 2))
        (⟨q 0, [k], [T.2.left t, T.2.right t (q 1)]⟩, fun i => q (i + 2))
      (⟨T.1 + 1, p.1⟩, p.2)

/-- Inserting into a tree with a full root. -/
theorem insertRoot_full {t : ℕ} {x : κ × α} {h n : ℕ} {T c : BTree ι κ α h} {q : ℕ → ι} {k : κ}
    (hfull : ¬T.count < 2 * t - 1) (hk : splitKey t T = some k) (hn : n = if k < x.1 then 1 else 0)
    (hc : [T.left t, T.right t (q 1)][n]? = some c) : insertRoot t x ⟨h, T⟩ q =
      (⟨h + 1, ⟨q 0, [k], [T.left t, T.right t (q 1)].set n (insertNF t x c fun i => q (i + 2)).1⟩⟩,
        (insertNF t x c fun i => q (i + 2)).2) := by
  subst hn
  simp only [insertRoot, if_neg hfull, hk, onChild, hc]

/-- The tree grows by one level at most. -/
theorem height_insertRoot (t : ℕ) (x : κ × α) (T : (h : ℕ) × BTree ι κ α h) (q : ℕ → ι) :
    (insertRoot t x T q).1.1 ≤ T.1 + 1 := by
  rw [insertRoot]
  split
  · exact Nat.le_succ _
  · split
    · exact Nat.le_succ _
    · exact Nat.le_refl _

/-- Insert into a tree that may be empty. -/
def insertTree (t : ℕ) (x : κ × α) (q : ℕ → ι) :
    Option ((h : ℕ) × BTree ι κ α h) → Option ((h : ℕ) × BTree ι κ α h) × (ℕ → ι)
  | none => (some ⟨0, ⟨q 0, [x]⟩⟩, fun i => q (i + 1))
  | some T => (some (insertRoot t x T q).1, (insertRoot t x T q).2)

/-- Insert one element after the other. -/
def insertMany (t : ℕ) : List (κ × α) → (ℕ → ι) → Option ((h : ℕ) × BTree ι κ α h) → Option ((h : ℕ) × BTree ι κ α h)
  | [], _, T => T
  | x :: xs, q, T => insertMany t xs (insertTree t x q T).2 (insertTree t x q T).1

omit [LinearOrder κ] in
theorem label_onChild {h n : ℕ} (g : BTree ι κ α h → BTree ι κ α h × (ℕ → ι)) (p : BTree ι κ α (h + 1) × (ℕ → ι)) :
    (onChild n g p).1.label = p.1.label := by
  rw [onChild]
  split <;> rfl

theorem label_prep (t : ℕ) (x : κ) {h : ℕ} (T : BTree ι κ α (h + 1)) (q : ℕ → ι) :
    (prep t x T q).1.label = T.label := by
  rw [prep]
  repeat' split
  all_goals rfl

/-- The root keeps its name. -/
theorem label_insertNF (t : ℕ) (x : κ × α) : {h : ℕ} → (T : BTree ι κ α h) → (q : ℕ → ι) →
    (insertNF t x T q).1.label = T.label
  | 0, _, _ => rfl
  | _ + 1, T, q => by rw [insertNF, label_onChild, label_prep]

/-- A node ready for the descent of `x`: it has the tokens `ts` but for split leaves, and
its child `n` is not full and is the right one for `x`. -/
structure Ready (t : ℕ) (x : κ) (r lo : ℕ) {h : ℕ} (ts : List (Tok κ α)) (T' : BTree ι κ α (h + 1)) (n : ℕ)
    (c : BTree ι κ α h) : Prop where
  /-- The child. -/
  child : (Inner.children T')[n]? = some c
  /-- It is not full. -/
  notFull : c.count < 2 * t - 1
  /-- The shape is kept. -/
  shape : Shape r lo (2 * t - 1) T'
  /-- Leaves may have been split. -/
  splits : Splits ts (toks T')
  /-- The separator on the left. -/
  left_le : ∀ m p, n = m + 1 → (Inner.keys T')[m]? = some p → p ≤ x
  /-- The separator on the right. -/
  le_right : ∀ p, (Inner.keys T')[n]? = some p → x ≤ p

omit [LinearOrder κ] in
/-- Splitting child `n` of a node that has room keeps the shape and splits leaves at most. -/
theorem splitAt_spec {t r lo : ℕ} (ht : 2 ≤ t) (hlo : lo ≤ t - 1) {h n : ℕ} {l : ι} {ks : List κ}
    {cs : List (BTree ι κ α h)} {c : BTree ι κ α h} {k : κ} (f : ι)
    (hT : @Shape ι κ α r lo (2 * t - 1) (h + 1) ⟨l, ks, cs⟩) (hroom : ks.length < 2 * t - 1)
    (hc : cs[n]? = some c) (hcount : c.count = 2 * t - 1) (hk : splitKey t c = some k) :
    Shape r lo (2 * t - 1) (splitAt t n l ks cs c k f) ∧
      Splits (@toks ι κ α (h + 1) ⟨l, ks, cs⟩) (toks (splitAt t n l ks cs c k f)) := by
  rw [shape_inner] at hT
  obtain ⟨hn, -⟩ := List.getElem?_eq_some_iff.mp hc
  have hcs := hT.2.2 c (List.mem_of_getElem? hc)
  obtain ⟨A, B, rfl, rfl, -⟩ := hole hc
  have hP : (ks.take A.length).length = A.length := by simp; omega
  have hA : (A ++ c :: B).take A.length = A := List.take_left
  have hB : (A ++ c :: B).drop (A.length + 1) = B := by simp
  constructor
  · rw [splitAt, shape_inner, hA, hB]
    refine ⟨by simp; omega, by simp at hT ⊢; omega, fun d hd => ?_⟩
    rw [List.mem_append, List.mem_cons, List.mem_cons] at hd
    rcases hd with hd | rfl | rfl | hd
    · exact hT.2.2 d (by simp [hd])
    · exact (hcs.left ht hlo hcount).1
    · exact (hcs.right ht hlo f hcount).1
    · exact hT.2.2 d (by simp [hd])
  · have h1 : @toks ι κ α (h + 1) ⟨l, ks, A ++ c :: B⟩ =
        before (ks.take A.length) (A.map toks) ++ toks c ++ after (ks.drop A.length) (B.map toks) := by
      rw [toks_inner, List.map_append, List.map_cons, ← weave_hole (by simp [hP]), List.take_append_drop]
    rw [h1, splitAt, toks_inner, hA, hB, List.map_append, List.map_cons, List.map_cons,
      weave_hole (by simp [hP]), after]
    have := (splits_split ht f hcs hcount hk).frame (before (ks.take A.length) (A.map toks))
      (after (ks.drop A.length) (B.map toks))
    simpa only [List.append_assoc, List.cons_append] using this

theorem prep_ready {t r lo : ℕ} (ht : 2 ≤ t) (hlo : lo ≤ t - 1) (x : κ) {h : ℕ} {T : BTree ι κ α (h + 1)}
    (q : ℕ → ι) (hT : Shape r lo (2 * t - 1) T) (hroom : T.count < 2 * t - 1) :
    ∃ c, Ready t x r lo (toks T) (prep t x T q).1 (prep t x T q).2.1 c := by
  obtain ⟨l, ks, cs⟩ := T
  have hT' := hT
  rw [shape_inner] at hT'
  rw [count_inner] at hroom
  have hpos := pos_le x ks
  have hc : cs[pos x ks]? = some cs[pos x ks] := List.getElem?_eq_getElem (by omega)
  generalize cs[pos x ks] = c at hc
  have hle : ∀ m p, pos x ks = m + 1 → ks[m]? = some p → p ≤ x := fun m p hm hp => le_of_pos_eq x hm hp
  have hgt : ∀ p, ks[pos x ks]? = some p → x < p := fun p hp => lt_of_pos_le x (Nat.le_refl _) hp
  unfold prep
  simp only [hc]
  split
  · rename_i hnf
    exact ⟨c, hc, hnf, hT, Splits.refl _, hle, fun p hp => (hgt p hp).le⟩
  · rename_i hfull
    have hcs := hT'.2.2 c (List.mem_of_getElem? hc)
    have hcount : c.count = 2 * t - 1 := by
      have := hcs.count_le
      omega
    obtain ⟨k, hk⟩ := exists_splitKey (by omega) hcount
    obtain ⟨hshape, hsplits⟩ := splitAt_spec ht hlo (q 0) hT hroom hc hcount hk
    have htake : (ks.take (pos x ks)).length = pos x ks := List.length_take_of_le hpos
    have hctake : (cs.take (pos x ks)).length = pos x ks := List.length_take_of_le (by omega)
    simp only [hk]
    split
    · rename_i hlt
      refine ⟨c.right t (q 0), ?_, (hcs.right ht hlo (q 0) hcount).2, hshape, hsplits, ?_, ?_⟩
      · simp [splitAt, hctake]
      · rintro m p hm hp
        obtain rfl : pos x ks = m := by omega
        simp [splitAt, htake] at hp
        exact hp ▸ hlt.le
      · intro p hp
        simp [splitAt, List.getElem?_append, htake] at hp
        exact (hgt p (by simpa using hp)).le
    · rename_i hge
      refine ⟨c.left t, ?_, (hcs.left ht hlo hcount).2, hshape, hsplits, ?_, ?_⟩
      · simp [splitAt, hctake]
      · rintro m p hm hp
        refine hle m p hm ?_
        have hlt : m < (ks.take (pos x ks)).length := by omega
        have : (ks.take (pos x ks))[m]? = some p := by
          rwa [splitAt, List.getElem?_append_left hlt] at hp
        rwa [List.getElem?_take_of_lt (by omega)] at this
      · intro p hp
        simp [splitAt, htake] at hp
        exact hp ▸ not_lt.mp hge

/-- The tokens of a prepared node around the child. -/
theorem Ready.toks {t r lo : ℕ} {x : κ} {h n : ℕ} {ts : List (Tok κ α)} {l : ι} {ks : List κ}
    {cs : List (BTree ι κ α h)} {c : BTree ι κ α h} (hr : Ready t x r lo ts ⟨l, ks, cs⟩ n c) :
    ∃ X Y, (∀ c', @toks ι κ α (h + 1) ⟨l, ks, cs.set n c'⟩ = X ++ BTree.toks c' ++ Y) ∧
      Splits ts (X ++ BTree.toks c ++ Y) ∧
      (X = [] ∨ ∃ p X', p ≤ x ∧ X = X' ++ [.sep p]) ∧ (Y = [] ∨ ∃ p Y', x ≤ p ∧ Y = .sep p :: Y') := by
  obtain ⟨X, Y, htoks, hX, hY⟩ := toks_hole (l := l) hr.child (shape_inner.mp hr.shape).2.1
  refine ⟨X, Y, htoks, ?_, ?_, ?_⟩
  · rw [← htoks c, set_self hr.child]
    exact hr.splits
  · rcases hX with rfl | ⟨m, p, X', hm, hp, rfl⟩
    · exact .inl rfl
    · exact .inr ⟨p, X', hr.left_le m p hm hp, rfl⟩
  · rcases hY with rfl | ⟨p, Y', hp, rfl⟩
    · exact .inl rfl
    · exact .inr ⟨p, Y', hr.le_right p hp, rfl⟩

/-- Where an element went: some leaves have been split, and then one leaf, with everything
on its left at most the new key and everything on its right at least the new key, has
received the element. -/
def Inserted (x : κ × α) (a b : List (Tok κ α)) : Prop :=
  ∃ X es Y, Splits a (X ++ .leaf es :: Y) ∧ b = X ++ .leaf (insertAt x es) :: Y ∧
    (∀ k ∈ inorder X, k ≤ x.1) ∧ ∀ k ∈ inorder Y, x.1 ≤ k

/-- The element goes into a part of the string. -/
theorem Inserted.frame {x : κ × α} {a b X Y : List (Tok κ α)} (hi : Inserted x a b) (hs : Sorted (X ++ a ++ Y))
    (hX : X = [] ∨ ∃ p X', p ≤ x.1 ∧ X = X' ++ [.sep p]) (hY : Y = [] ∨ ∃ p Y', x.1 ≤ p ∧ Y = .sep p :: Y') :
    Inserted x (X ++ a ++ Y) (X ++ b ++ Y) := by
  obtain ⟨X', es, Y', hsp, rfl, hX', hY'⟩ := hi
  refine ⟨X ++ X', es, Y' ++ Y, ?_, by simp, ?_, ?_⟩
  · simpa only [List.append_assoc, List.cons_append] using hsp.frame X Y
  · intro k hk
    rw [inorder_append, List.mem_append] at hk
    rcases hk with hk | hk
    · rcases hX with rfl | ⟨p, X', hp, rfl⟩
      · simp at hk
      · rw [inorder_append, List.mem_append] at hk
        rcases hk with hk | hk
        · exact (hs.left.left.le hk (by simp)).trans hp
        · obtain rfl : k = p := by simpa using hk
          exact hp
    · exact hX' k hk
  · intro k hk
    rw [inorder_append, List.mem_append] at hk
    rcases hk with hk | hk
    · exact hY' k hk
    · rcases hY with rfl | ⟨p, Y', hp, rfl⟩
      · simp at hk
      · rw [inorder_sep, List.mem_cons] at hk
        rcases hk with rfl | hk
        · exact hp
        · have : Sorted ([.sep p] ++ Y') := hs.right
          exact hp.trans (this.le (by simp) hk)

/-- Splitting leaves first makes no difference. -/
theorem Inserted.of_splits {x : κ × α} {a a' b : List (Tok κ α)} (h : Splits a a') (hi : Inserted x a' b) :
    Inserted x a b := by
  obtain ⟨X, es, Y, hsp, hb⟩ := hi
  exact ⟨X, es, Y, h.trans hsp, hb⟩

/-- A step of the descent: what inserting into the child does to the node. -/
theorem Ready.insert {t r lo : ℕ} {x : κ × α} {h n : ℕ} {ts : List (Tok κ α)} {T : BTree ι κ α (h + 1)}
    {c : BTree ι κ α h} {g : BTree ι κ α h → BTree ι κ α h × (ℕ → ι)} {q : ℕ → ι}
    (hr : Ready t x.1 r lo ts T n c) (hs : Sorted ts)
    (hg : Shape lo lo (2 * t - 1) c → Sorted (BTree.toks c) →
      Shape lo lo (2 * t - 1) (g c).1 ∧ Inserted x (BTree.toks c) (BTree.toks (g c).1)) :
    Shape r lo (2 * t - 1) (onChild n g (T, q)).1 ∧ Inserted x ts (BTree.toks (onChild n g (T, q)).1) := by
  obtain ⟨l, ks, cs⟩ := T
  obtain ⟨X, Y, htoks, hsp, hX, hY⟩ := hr.toks
  have hs' := hsp.sorted hs
  have hshape := shape_inner.mp hr.shape
  obtain ⟨ih1, ih2⟩ := hg (hshape.2.2 c (List.mem_of_getElem? hr.child)) hs'.left.right
  unfold onChild
  simp only [hr.child]
  constructor
  · rw [shape_inner, List.length_set]
    refine ⟨hshape.1, hshape.2.1, fun d hd => ?_⟩
    rcases List.mem_or_eq_of_mem_set hd with hd | rfl
    · exact hshape.2.2 d hd
    · exact ih1
  · rw [htoks]
    exact Inserted.of_splits hsp (ih2.frame hs' hX hY)

/-- Inserting into a tree whose root is not full puts the element where it belongs and
keeps the shape. -/
theorem insertNF_spec {t lo : ℕ} (ht : 2 ≤ t) (hlo : lo ≤ t - 1) (x : κ × α) :
    {r h : ℕ} → {T : BTree ι κ α h} → (q : ℕ → ι) → Shape r lo (2 * t - 1) T → T.count < 2 * t - 1 →
      Sorted (toks T) →
      Shape r lo (2 * t - 1) (insertNF t x T q).1 ∧ Inserted x (toks T) (toks (insertNF t x T q).1)
  | r, 0, ⟨l, es⟩, q, hT, hroom, _ => by
    rw [shape_leaf] at hT
    rw [count_leaf] at hroom
    refine ⟨?_, [], es, [], Splits.refl _, rfl, by simp, by simp⟩
    simp only [insertNF, shape_leaf, length_insertAt]
    omega
  | r, h + 1, T, q, hT, hroom, hs => by
    obtain ⟨c, hr⟩ := prep_ready ht hlo x.1 q hT hroom
    rw [insertNF]
    exact hr.insert hs fun hc hsc => insertNF_spec ht hlo x _ hc hr.notFull hsc

/-- A full root, split under a new root. -/
theorem newRoot_ready {t lo : ℕ} (ht : 2 ≤ t) (hlo : lo ≤ t - 1) (x : κ) {h : ℕ} {T : BTree ι κ α h}
    (f f' : ι) {k : κ} (hT : Shape 1 lo (2 * t - 1) T) (hcount : T.count = 2 * t - 1)
    (hk : splitKey t T = some k) :
    ∃ c, Ready t x 1 lo (toks T) ⟨f, [k], [T.left t, T.right t f']⟩ (if k < x then 1 else 0) c := by
  have hl := hT.left ht hlo hcount
  have hr := hT.right ht hlo f' hcount
  have hshape : @Shape ι κ α 1 lo (2 * t - 1) (h + 1) ⟨f, [k], [T.left t, T.right t f']⟩ := by
    rw [shape_inner]
    refine ⟨by simp; omega, rfl, fun c hc => ?_⟩
    rw [List.mem_cons, List.mem_singleton] at hc
    rcases hc with rfl | rfl
    · exact hl.1
    · exact hr.1
  have hsp : Splits (toks T) (@toks ι κ α (h + 1) ⟨f, [k], [T.left t, T.right t f']⟩) := by
    have := splits_split ht f' hT hcount hk
    rwa [toks_inner, List.map_cons, List.map_cons, List.map_nil, weave, after, after, List.append_nil]
    simp
  split
  · rename_i hlt
    exact ⟨_, rfl, hr.2, hshape, hsp, by rintro m p hm hp; obtain rfl : 0 = m := by omega
                                         exact (by simpa using hp : k = p) ▸ hlt.le, by simp⟩
  · rename_i hge
    exact ⟨_, rfl, hl.2, hshape, hsp, by omega, fun p hp => (by simpa using hp : k = p) ▸ not_lt.mp hge⟩

/-- Inserting into a tree puts the element where it belongs and keeps the shape. -/
theorem insertRoot_spec {t lo : ℕ} (ht : 2 ≤ t) (hlo : lo ≤ t - 1) (x : κ × α)
    {T : (h : ℕ) × BTree ι κ α h} (q : ℕ → ι) (hT : Shape 1 lo (2 * t - 1) T.2) (hs : Sorted (toks T.2)) :
    Shape 1 lo (2 * t - 1) (insertRoot t x T q).1.2 ∧
      Inserted x (toks T.2) (toks (insertRoot t x T q).1.2) := by
  by_cases hroom : T.2.count < 2 * t - 1
  · rw [insertRoot, if_pos hroom]
    exact insertNF_spec ht hlo x q hT hroom hs
  · have hcount : T.2.count = 2 * t - 1 := by
      have := hT.count_le
      omega
    obtain ⟨k, hk⟩ := exists_splitKey (by omega) hcount
    obtain ⟨c, hr⟩ := newRoot_ready ht hlo x.1 (q 0) (q 1) hT hcount hk
    rw [insertRoot, if_neg hroom, hk]
    exact hr.insert hs fun hc hsc => insertNF_spec ht hlo x _ hc hr.notFull hsc

/-! ### What insertion keeps -/

theorem Inserted.sorted {x : κ × α} {a b : List (Tok κ α)} (hi : Inserted x a b) (hs : Sorted a) : Sorted b := by
  obtain ⟨X, es, Y, hsp, rfl, hX, hY⟩ := hi
  have hs' := hsp.sorted hs
  have hes : (es.map Prod.fst).Pairwise (· ≤ ·) := by
    have : Sorted ([.leaf es] ++ Y) := hs'.right
    simpa [Sorted] using this.left
  obtain ⟨A, B, rfl, h, hA, hB⟩ := insertAt_eq x hes
  rw [h]
  simp only [Sorted, inorder_append, inorder_leaf, List.map_append, List.map_cons, List.pairwise_append,
    List.pairwise_cons, List.mem_append, List.mem_cons, List.mem_map] at hs' ⊢
  grind

/-- The elements afterwards are the elements before and the new one. -/
theorem Inserted.elems_perm {x : κ × α} {a b : List (Tok κ α)} (hi : Inserted x a b) :
    (elems b).Perm (x :: elems a) := by
  obtain ⟨X, es, Y, hsp, rfl, -, -⟩ := hi
  rw [← hsp.elems, elems_append, elems_append, elems_leaf, elems_leaf]
  refine (((insertAt_perm x es).append_right _).append_left _).trans ?_
  exact List.perm_middle

/-- A leaf that has a separator behind it keeps its last key. -/
theorem Inserted.sepLast {x : κ × α} {a b : List (Tok κ α)} (hi : Inserted x a b) (hs : Sorted a)
    (ha : SepLast a) : SepLast b := by
  obtain ⟨X, es, Y, hsp, rfl, -, hY⟩ := hi
  have hes : (es.map Prod.fst).Pairwise (· ≤ ·) := by
    have : Sorted ([.leaf es] ++ Y) := (hsp.sorted hs).right
    simpa [Sorted] using this.left
  obtain ⟨A, B, rfl, h, hA, hB⟩ := insertAt_eq x hes
  refine sepLast_replace (hsp.sepLast ha) fun k hk hlast => ?_
  rw [h]
  cases B with
  | nil =>
    -- the new element is the last one: its key is the separator
    have hxk : x.1 ≤ k := by
      obtain ⟨Y, rfl⟩ : ∃ Y', Y = .sep k :: Y' := List.head?_eq_some_iff.mp hk
      exact hY k (by simp)
    have hkx : k ≤ x.1 := by
      have hm : k ∈ A.map Prod.fst := by
        simpa using List.mem_of_getLast? hlast
      obtain ⟨a, ha, rfl⟩ := List.mem_map.mp hm
      exact hA a ha
    simp [le_antisymm hkx hxk]
  | cons b B => simpa [List.getLast?_append] using hlast

/-- The tokens of a tree that may be empty. -/
def treeToks : Option ((h : ℕ) × BTree ι κ α h) → List (Tok κ α)
  | none => []
  | some T => toks T.2

/-- The height of a tree that may be empty. -/
def treeHeight : Option ((h : ℕ) × BTree ι κ α h) → ℕ
  | none => 0
  | some T => T.1

/-- A B+tree of minimum degree `t` that may be empty: what insertion maintains. -/
structure Valid (t lo : ℕ) (T : Option ((h : ℕ) × BTree ι κ α h)) : Prop where
  /-- The shape. -/
  shape : ∀ T', T = some T' → Shape 1 lo (2 * t - 1) T'.2
  /-- The order. -/
  sorted : Sorted (treeToks T)
  /-- Separators are last keys. -/
  sepLast : SepLast (treeToks T)

theorem valid_none (t lo : ℕ) : Valid t lo (none : Option ((h : ℕ) × BTree ι κ α h)) :=
  ⟨by simp, List.Pairwise.nil, List.isChain_nil⟩

/-- Insertion keeps a B+tree one and adds the element. -/
theorem Valid.insert {t lo : ℕ} (ht : 2 ≤ t) (hlo : lo ≤ t - 1) (x : κ × α) (q : ℕ → ι)
    {T : Option ((h : ℕ) × BTree ι κ α h)} (hT : Valid t lo T) : Valid t lo (insertTree t x q T).1 ∧
      (elems (treeToks (insertTree t x q T).1)).Perm (x :: elems (treeToks T)) ∧
      treeHeight (insertTree t x q T).1 ≤ treeHeight T + 1 := by
  cases T with
  | none =>
    refine ⟨⟨?_, ?_, List.isChain_singleton _⟩, ?_, Nat.zero_le _⟩
    · rintro T' hT'
      obtain rfl := Option.some_inj.mp hT'
      rw [shape_leaf]
      simp
      omega
    · simp [insertTree, treeToks, Sorted]
    · simp [insertTree, treeToks]
  | some T =>
    obtain ⟨h1, h2⟩ := insertRoot_spec ht hlo x q (hT.shape T rfl) hT.sorted
    refine ⟨⟨?_, h2.sorted hT.sorted, h2.sepLast hT.sorted hT.sepLast⟩, h2.elems_perm, height_insertRoot t x T q⟩
    rintro T' hT'
    obtain rfl := Option.some_inj.mp hT'
    exact h1

/-- So does a run of insertions. -/
theorem Valid.insertMany {t lo : ℕ} (ht : 2 ≤ t) (hlo : lo ≤ t - 1) : (xs : List (κ × α)) → (q : ℕ → ι) →
    {T : Option ((h : ℕ) × BTree ι κ α h)} → Valid t lo T → Valid t lo (insertMany t xs q T) ∧
      (elems (treeToks (BTree.insertMany t xs q T))).Perm (xs ++ elems (treeToks T))
  | [], _, _, hT => ⟨hT, .refl _⟩
  | x :: xs, q, T, hT => by
    obtain ⟨h1, h2, -⟩ := hT.insert ht hlo x q
    obtain ⟨h3, h4⟩ := Valid.insertMany ht hlo xs (insertTree t x q T).2 h1
    exact ⟨h3, h4.trans ((h2.append_left xs).trans List.perm_middle)⟩

end Insertion

end BTree

end BPlus
