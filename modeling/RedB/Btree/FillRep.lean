import RedB.Btree.Loaded
import RedB.Btree.SplitRep
import RedB.Theory.Rebalance

/-!
# What filling up a child does to the tree

`node::fill` on a state that holds a B+tree, for every inner node and every child of too few
keys (`fillKeeps_iff`). What it does is what `Refill` does to the picture, with an element
without a row location for what comes down to a leaf; but if the child and its right
neighbour are merged and are not the last two children, the parent loses the last one.
-/

namespace RedB

open BPlus BPlus.BTree

/-! ### Reading the nodes -/

section Reading

variable {name : String} {X Y P : View} {r r' lo hi : ℕ}

theorem getElem?_of_dropLast {β : Type} {l : List β} {i : ℕ} {x : β} (h : l.dropLast[i]? = some x) : l[i]? = some x := by
  rw [List.dropLast_eq_take] at h
  exact getElem?_of_take h

theorem reads_loseLast (k : Key) : {h : ℕ} → {x : BlockTree h} → (y : BlockTree h) → X.Reads name (rootDesc x) →
    1 ≤ x.count → X.loseLast.Reads name (rootDesc (borrowPrev 0 x k y).1)
  | 0, ⟨l, es⟩, y, ⟨h1, h2, h3, h4⟩, hx => by
    rw [count_leaf] at hx
    refine ⟨h1, h2, ?_, fun i e he => h4 i e (getElem?_of_dropLast he)⟩
    simp only [View.loseLast, h3, borrowPrev, List.length_dropLast]
    omega
  | h + 1, ⟨l, ks, cs⟩, y, ⟨h1, h2, h3, h4, h5⟩, hx => by
    rw [count_inner] at hx
    refine ⟨h1, h2, ?_, fun i k hk => h4 i k (getElem?_of_dropLast hk), fun i c hc => h5 i c ?_⟩
    · simp only [View.loseLast, h3, borrowPrev, List.length_dropLast]
      omega
    · simp only [borrowPrev, List.map_dropLast] at hc
      exact getElem?_of_dropLast hc

theorem reads_gainFirst (k : Key) : {h : ℕ} → {x y : BlockTree h} → X.Reads name (rootDesc x) →
    Y.Reads name (rootDesc y) → Shape r lo hi x → Shape r' lo hi y →
    (Y.gainFirst k (X.slots x.count).ref).Reads name (rootDesc (borrowPrev 0 x k y).2.2)
  | 0, ⟨l, es⟩, ⟨l', fs⟩, _, ⟨h1, h2, h3, h4⟩, _, _ => by
    refine ⟨h1, h2, ?_, fun i e he => ?_⟩
    · simp [View.gainFirst, h3, borrowPrev]
    · simp only [borrowPrev] at he
      cases i with
      | zero =>
        obtain rfl : (k, (0 : ℤ)) = e := by simpa using he
        simp [View.gainFirst, h1]
      | succ i =>
        rw [List.getElem?_cons_succ] at he
        have hi := (List.getElem?_eq_some_iff.mp he).1
        have hcast : ((i + 1 : ℕ) : ℤ) ≤ (fs.length : ℤ) := by omega
        simp only [View.gainFirst, h1, h3, if_true, hcast]
        simp [h4 i e he]
  | h + 1, ⟨l, ks, cs⟩, ⟨l', ks', cs'⟩, ⟨_, _, _, _, g5⟩, ⟨h1, h2, h3, h4, h5⟩, hx, hy => by
    rw [shape_inner] at hx hy
    obtain ⟨cs, c, rfl⟩ : ∃ cs₀ c, cs = cs₀ ++ [c] := by
      rcases List.eq_nil_or_concat cs with rfl | ⟨cs₀, c, rfl⟩
      · exact absurd hx.2.1 (by simp)
      · exact ⟨cs₀, c, by simp⟩
    have hlen : cs.length = ks.length := by simpa using hx.2.1
    refine ⟨h1, h2, ?_, fun i x hxk => ?_, fun i x hxc => ?_⟩
    · simp [View.gainFirst, h3, borrowPrev]
    · simp only [borrowPrev] at hxk
      cases i with
      | zero =>
        obtain rfl : k = x := by simpa using hxk
        simp [View.gainFirst]
      | succ i =>
        rw [List.getElem?_cons_succ] at hxk
        have hi := (List.getElem?_eq_some_iff.mp hxk).1
        have hcast : ((i + 1 : ℕ) : ℤ) ≤ (ks'.length : ℤ) := by omega
        simp only [View.gainFirst, h3, hcast, if_true]
        simpa using h4 i x hxk
    · simp only [borrowPrev, List.getLast?_concat, Option.toList_some, List.singleton_append, List.map_cons] at hxc
      cases i with
      | zero =>
        obtain rfl : c.label = x := by simpa using hxc
        simp only [View.gainFirst, h1, if_true, Bool.false_eq_true, if_false]
        exact g5 ks.length c.label (by simp [← hlen])
      | succ i =>
        rw [List.getElem?_cons_succ] at hxc
        have hi := (List.getElem?_eq_some_iff.mp hxc).1
        rw [List.length_map] at hi
        have hcast : ((i + 1 : ℕ) : ℤ) ≤ (ks'.length : ℤ) + 2 := by omega
        simp only [View.gainFirst, h1, h3, Bool.false_eq_true, if_false, hcast, if_true]
        simpa using h5 i x hxc

theorem reads_gainLast (k : Key) : {h : ℕ} → {x y : BlockTree h} → X.Reads name (rootDesc x) →
    Y.Reads name (rootDesc y) → Shape r lo hi x → Shape r' lo hi y →
    (X.gainLast k (Y.slots 0).ref).Reads name (rootDesc (borrowNext 0 x k y).1)
  | 0, ⟨l, es⟩, ⟨l', fs⟩, ⟨h1, h2, h3, h4⟩, _, _, _ => by
    refine ⟨h1, h2, ?_, fun i e he => ?_⟩
    · simp [View.gainLast, h3, borrowNext]
    · simp only [borrowNext] at he
      simp only [View.gainLast, h1, h3, if_true, Nat.cast_inj]
      by_cases hi : i < es.length
      · rw [List.getElem?_append_left hi] at he
        simp [Nat.ne_of_lt hi, h4 i e he]
      · have hi' := (List.getElem?_eq_some_iff.mp he).1
        obtain rfl : i = es.length := by simp at hi'; omega
        obtain rfl : (k, (0 : ℤ)) = e := by simpa using he
        simp
  | h + 1, ⟨l, ks, cs⟩, ⟨l', ks', cs'⟩, ⟨h1, h2, h3, h4, h5⟩, ⟨_, _, _, _, g5⟩, hx, hy => by
    rw [shape_inner] at hx hy
    obtain ⟨c, cs', rfl⟩ := List.exists_cons_of_length_eq_add_one hy.2.1
    have hlen : cs.length = ks.length + 1 := hx.2.1
    refine ⟨h1, h2, ?_, fun i x hxk => ?_, fun i x hxc => ?_⟩
    · simp [View.gainLast, h3, borrowNext]
    · simp only [borrowNext] at hxk
      simp only [View.gainLast, h3, Nat.cast_inj]
      by_cases hi : i < ks.length
      · rw [List.getElem?_append_left hi] at hxk
        rw [if_neg (Nat.ne_of_lt hi)]
        exact h4 i x hxk
      · have hi' := (List.getElem?_eq_some_iff.mp hxk).1
        obtain rfl : i = ks.length := by simp at hi'; omega
        simpa using hxk
    · simp only [borrowNext, List.head?_cons, Option.toList_some, List.map_append, List.map_cons, List.map_nil] at hxc
      have hcast : (i : ℤ) = (ks.length : ℤ) + 1 ↔ i = cs.length := by omega
      simp only [View.gainLast, h1, h3, Bool.false_eq_true, if_false, hcast]
      by_cases hi : i < cs.length
      · rw [List.getElem?_append_left (by simpa using hi)] at hxc
        rw [if_neg (Nat.ne_of_lt hi)]
        exact h5 i x hxc
      · have hi' := (List.getElem?_eq_some_iff.mp hxc).1
        obtain rfl : i = cs.length := by simp at hi'; omega
        rw [if_pos rfl, g5 0 c.label (by simp)]
        simpa using hxc

theorem reads_loseFirst (k : Key) : {h : ℕ} → {y : BlockTree h} → (x : BlockTree h) → Y.Reads name (rootDesc y) →
    Shape r lo hi y → 1 ≤ y.count → Y.loseFirst.Reads name (rootDesc (borrowNext 0 x k y).2.2)
  | 0, ⟨l, fs⟩, x, ⟨h1, h2, h3, h4⟩, _, hy => by
    rw [count_leaf] at hy
    refine ⟨h1, h2, ?_, fun i e he => ?_⟩
    · simp only [View.loseFirst, h3, borrowNext, List.length_tail]
      omega
    · simp only [borrowNext, List.getElem?_tail] at he
      have hi := (List.getElem?_eq_some_iff.mp he).1
      have hcast : (i : ℤ) < (fs.length : ℤ) - 1 := by omega
      simp [View.loseFirst, h1, h3, hcast, h4 _ e he]
  | h + 1, ⟨l, ks, cs⟩, x, ⟨h1, h2, h3, h4, h5⟩, hs, hy => by
    rw [count_inner] at hy
    rw [shape_inner] at hs
    refine ⟨h1, h2, ?_, fun i x hxk => ?_, fun i x hxc => ?_⟩
    · simp only [View.loseFirst, h3, borrowNext, List.length_tail]
      omega
    · simp only [borrowNext, List.getElem?_tail] at hxk
      have hi := (List.getElem?_eq_some_iff.mp hxk).1
      have hcast : (i : ℤ) < (ks.length : ℤ) - 1 := by omega
      simp only [View.loseFirst, h3, if_pos hcast]
      exact h4 _ x hxk
    · simp only [borrowNext, List.map_tail, List.getElem?_tail] at hxc
      have hi := (List.getElem?_eq_some_iff.mp hxc).1
      rw [List.length_map] at hi
      have hcast : (i : ℤ) < (ks.length : ℤ) := by omega
      simp only [View.loseFirst, h1, h3, Bool.false_eq_true, if_false, if_pos hcast]
      exact h5 _ x hxc

/-- The key that goes up is that of the last element. -/
theorem reads_lastKey (k : Key) : {h : ℕ} → {x : BlockTree h} → (y : BlockTree h) → X.Reads name (rootDesc x) →
    1 ≤ x.count → (X.slots (x.count - 1)).key = (borrowPrev 0 x k y).2.1
  | 0, ⟨l, es⟩, y, ⟨_, _, _, h4⟩, hx => by
    obtain ⟨es, e, rfl⟩ : ∃ es₀ e, es = es₀ ++ [e] := by
      rcases List.eq_nil_or_concat es with rfl | ⟨es₀, e, rfl⟩
      · simp at hx
      · exact ⟨es₀, e, by simp⟩
    simp [borrowPrev, h4 es.length e (by simp)]
  | h + 1, ⟨l, ks, cs⟩, y, ⟨_, _, _, h4, _⟩, hx => by
    obtain ⟨ks, p, rfl⟩ : ∃ ks₀ p, ks = ks₀ ++ [p] := by
      rcases List.eq_nil_or_concat ks with rfl | ⟨ks₀, p, rfl⟩
      · simp at hx
      · exact ⟨ks₀, p, by simp⟩
    simp [borrowPrev, h4 ks.length p (by simp)]

/-- The key that goes up is that of the first element. -/
theorem reads_firstKey (k : Key) : {h : ℕ} → {y : BlockTree h} → (x : BlockTree h) → Y.Reads name (rootDesc y) →
    1 ≤ y.count → (Y.slots 0).key = (borrowNext 0 x k y).2.1
  | 0, ⟨l, fs⟩, x, ⟨_, _, _, h4⟩, hy => by
    obtain ⟨f, fs, rfl⟩ : ∃ f fs₀, fs = f :: fs₀ := List.exists_cons_of_length_pos hy
    simp [borrowNext, h4 0 f rfl]
  | h + 1, ⟨l, ks, cs⟩, x, ⟨_, _, _, h4, _⟩, hy => by
    obtain ⟨p, ks, rfl⟩ : ∃ p ks₀, ks = p :: ks₀ := List.exists_cons_of_length_pos hy
    simp [borrowNext, h4 0 p rfl]

/-- Where an entry of two lists around another comes from. -/
theorem getElem?_around {β : Type} {l r : List β} {a b : β} {i : ℕ} (h : (l ++ a :: r)[i]? = some b) :
    (i < l.length ∧ l[i]? = some b) ∨ (i = l.length ∧ a = b) ∨
      ∃ j, i = l.length + 1 + j ∧ j < r.length ∧ r[j]? = some b := by
  rcases Nat.lt_trichotomy i l.length with hi | rfl | hi
  · exact .inl ⟨hi, by rwa [List.getElem?_append_left hi] at h⟩
  · exact .inr (.inl ⟨rfl, by simpa using h⟩)
  · obtain ⟨j, rfl⟩ : ∃ j, i = l.length + 1 + j := ⟨i - l.length - 1, by omega⟩
    rw [List.getElem?_append_right (by omega), show l.length + 1 + j - l.length = j + 1 by omega,
      List.getElem?_cons_succ] at h
    exact .inr (.inr ⟨j, rfl, (List.getElem?_eq_some_iff.mp h).1, h⟩)

theorem reads_absorb (k : Key) {t : ℕ} : {h : ℕ} → {x y : BlockTree h} → X.Reads name (rootDesc x) →
    Y.Reads name (rootDesc y) → Shape r lo hi x → Shape r' lo hi y → x.count + 1 = t →
    (X.absorb t k Y).Reads name (rootDesc (join 0 x k y))
  | 0, ⟨l, es⟩, ⟨l', fs⟩, ⟨h1, h2, h3, h4⟩, ⟨_, _, g3, g4⟩, _, _, hx => by
    rw [count_leaf] at hx
    refine ⟨h1, h2, ?_, fun i e he => ?_⟩
    · simp [View.absorb, h3, g3, join]
    · change (es ++ (k, 0) :: fs)[i]? = some e at he
      simp only [View.absorb, h1, g3, if_true, and_true]
      rcases getElem?_around he with ⟨hi, he⟩ | ⟨rfl, rfl⟩ | ⟨j, rfl, hj, he⟩
      · rw [if_neg (by omega), if_neg (by omega), if_neg (by omega), if_neg (by omega)]
        exact h4 i e he
      · rw [if_neg (by omega), if_pos (by omega), if_neg (by omega), if_pos (by omega)]
      · rw [if_pos (by omega), if_pos (by omega), show es.length + 1 + j - t = j by omega]
        exact g4 j e he
  | h + 1, ⟨l, ks, cs⟩, ⟨l', ks', cs'⟩, ⟨h1, h2, h3, h4, h5⟩, ⟨_, _, g3, g4, g5⟩, hsx, hsy, hx => by
    rw [count_inner] at hx
    rw [shape_inner] at hsx hsy
    refine ⟨h1, h2, ?_, fun i x hxk => ?_, fun i x hxc => ?_⟩
    · simp [View.absorb, h3, g3, join]
    · change (ks ++ k :: ks')[i]? = some x at hxk
      simp only [View.absorb, g3]
      rcases getElem?_around hxk with ⟨hi, hxk⟩ | ⟨rfl, rfl⟩ | ⟨j, rfl, hj, hxk⟩
      · rw [if_neg (by omega), if_neg (by omega)]
        exact h4 i x hxk
      · rw [if_neg (by omega), if_pos (by omega)]
      · rw [if_pos (by omega), show ks.length + 1 + j - t = j by omega]
        exact g4 j x hxk
    · simp only [join, List.map_append] at hxc
      simp only [View.absorb, h1, g3, Bool.false_eq_true, and_false, if_false]
      by_cases hi : i < cs.length
      · rw [List.getElem?_append_left (by simpa using hi)] at hxc
        rw [if_neg (by omega)]
        exact h5 i x hxc
      · rw [List.getElem?_append_right (by simpa using hi), List.length_map] at hxc
        have hj := (List.getElem?_eq_some_iff.mp hxc).1
        rw [List.length_map] at hj
        rw [if_pos (by omega), show i - t = i - cs.length by omega]
        exact g5 _ x hxc

theorem reads_setKey {l : ℤ} {h : ℕ} {A B : List Key} {k : Key} {cs : List ℤ}
    (hr : P.Reads name (.inner l h (A ++ k :: B) cs)) (k' : Key) :
    (P.setKey A.length k').Reads name (.inner l h (A ++ k' :: B) cs) := by
  obtain ⟨h1, h2, h3, h4, h5⟩ := hr
  refine ⟨h1, h2, by simpa [View.setKey] using h3, fun i x hx => ?_, fun i c hc => ?_⟩
  · simp only [View.setKey, View.vec_slots, Function.update_apply, apply_ite Slot.key]
    split
    · rename_i hi
      subst hi
      simpa using hx
    · rename_i hi
      refine h4 i x ?_
      rcases Nat.lt_or_gt_of_ne hi with hi | hi
      · rwa [List.getElem?_append_left hi] at hx ⊢
      · obtain ⟨j, rfl⟩ : ∃ j, i = A.length + (j + 1) := ⟨i - A.length - 1, by omega⟩
        simpa [List.getElem?_append_right] using hx
  · simp only [View.setKey, View.vec_slots, Function.update_apply, apply_ite Slot.ref]
    split
    · rename_i hi
      subst hi
      exact h5 _ c hc
    · exact h5 i c hc

theorem reads_dropChild {l : ℤ} {h : ℕ} {A : List Key} {k : Key} {cs : List ℤ} {c : ℤ}
    (hr : P.Reads name (.inner l h (A ++ [k]) (cs ++ [c]))) (hlen : cs.length = A.length + 1) :
    (P.dropChild A.length).Reads name (.inner l h A cs) := by
  obtain ⟨h1, h2, h3, h4, h5⟩ := hr
  refine ⟨h1, h2, ?_, fun i x hx => ?_, fun i x hx => ?_⟩
  · simp [View.dropChild, h3]
  · have hi := (List.getElem?_eq_some_iff.mp hx).1
    simp only [View.dropChild]
    rw [if_neg (by omega)]
    exact h4 i x (by rwa [List.getElem?_append_left hi])
  · have hi := (List.getElem?_eq_some_iff.mp hx).1
    simp only [View.dropChild, h3, List.length_append, List.length_singleton]
    rw [if_neg (by omega)]
    exact h5 i x (by rwa [List.getElem?_append_left hi])

end Reading

/-! ### Pictures -/

/-- The state holds the tree `T`; nothing is said about sibling fields. -/
structure Picture (s : Tree) (name : String) (ndx : Index) {h : ℕ} (T : BlockTree h) : Prop where
  /-- The index. -/
  index : s.schema.getIndex name = some ndx
  /-- As many elements as the order fit in a block. -/
  fits : ndx.Fits
  /-- Every node is there. -/
  holds : ∀ d ∈ T.descs, Holds s name ndx.keySize d
  /-- No two nodes are in one block. -/
  nodup : (T.descs.map Desc.label).Nodup

/-- The keys of a tree are those of its nodes. -/
theorem mem_inorder_toks {k : Key} {r lo hi h : ℕ} {T : BlockTree h} (hs : Shape r lo hi T) :
    k ∈ inorder T.toks ↔ ∃ d ∈ T.descs, k ∈ descKeys d := by
  rw [mem_inorder, mem_seps_toks hs, elems_toks hs]
  constructor
  · rintro (⟨d, hd, hk⟩ | hk)
    · cases d with
      | leaf l es => simp [Desc.seps] at hk
      | inner l g ks cs => exact ⟨_, hd, hk⟩
    · obtain ⟨e, he, rfl⟩ := List.mem_map.mp hk
      obtain ⟨⟨l, es⟩, hl, he⟩ := List.mem_flatMap.mp he
      exact ⟨_, mem_leaves.mp hl, List.mem_map_of_mem he⟩
  · rintro ⟨d, hd, hk⟩
    cases d with
    | leaf l es =>
      obtain ⟨e, he, rfl⟩ := List.mem_map.mp hk
      exact .inr (List.mem_map_of_mem (List.mem_flatMap.mpr ⟨_, mem_leaves.mpr hd, he⟩))
    | inner l g ks cs => exact .inl ⟨_, hd, hk⟩

/-- Two pictures of one state with one root are one. -/
theorem eq_of_holds {s : Tree} {name : String} {k r r' lo hi : ℕ} : {h : ℕ} → {T T' : BlockTree h} →
    (∀ d ∈ T.descs, Holds s name k d) → (∀ d ∈ T'.descs, Holds s name k d) → Shape r lo hi T → Shape r' lo hi T' →
    T.label = T'.label → T = T'
  | 0, ⟨l, es⟩, ⟨l', es'⟩, h, h', _, _, hl => by
    obtain rfl : l = l' := hl
    obtain ⟨v, hv, -, -, h3, h4⟩ := (h _ (List.mem_singleton_self _)).reads
    obtain ⟨v', hv', -, -, g3, g4⟩ := (h' _ (List.mem_singleton_self _)).reads
    obtain rfl := Option.some_inj.mp (hv.symm.trans hv')
    have hlen : es.length = es'.length := by exact_mod_cast h3.symm.trans g3
    have : es = es' := by
      refine List.ext_getElem hlen fun i hi hi' => ?_
      have h1 := h4 i _ (List.getElem?_eq_getElem hi)
      have h2 := g4 i _ (List.getElem?_eq_getElem hi')
      have h3 := h1.symm.trans h2
      exact Prod.ext (Slot.mk.inj h3).2 (Slot.mk.inj h3).1
    rw [this]
  | h + 1, ⟨l, ks, cs⟩, ⟨l', ks', cs'⟩, hT, hT', hs, hs', hl => by
    obtain rfl : l = l' := hl
    obtain ⟨-, hlen, hcs⟩ := shape_inner.mp hs
    obtain ⟨-, hlen', hcs'⟩ := shape_inner.mp hs'
    obtain ⟨v, hv, -, -, h3, h4, h5⟩ := (hT _ (List.mem_cons_self ..)).reads
    obtain ⟨v', hv', -, -, g3, g4, g5⟩ := (hT' _ (List.mem_cons_self ..)).reads
    obtain rfl := Option.some_inj.mp (hv.symm.trans hv')
    have hk : ks.length = ks'.length := by exact_mod_cast h3.symm.trans g3
    have hks : ks = ks' := List.ext_getElem hk fun i hi hi' =>
      (h4 i _ (List.getElem?_eq_getElem hi)).symm.trans (g4 i _ (List.getElem?_eq_getElem hi'))
    have hcs0 : cs = cs' := by
      refine List.ext_getElem (by omega) fun i hi hi' => ?_
      have h1 := h5 i _ (by rw [List.getElem?_map, List.getElem?_eq_getElem hi]; rfl)
      have h2 := g5 i _ (by rw [List.getElem?_map, List.getElem?_eq_getElem hi']; rfl)
      refine eq_of_holds (fun d hd => hT d ?_) (fun d hd => hT' d ?_) (hcs _ (List.getElem_mem hi))
        (hcs' _ (List.getElem_mem hi')) (h1.symm.trans h2)
      · exact List.mem_cons_of_mem _ (List.mem_flatMap.mpr ⟨_, List.getElem_mem hi, hd⟩)
      · exact List.mem_cons_of_mem _ (List.mem_flatMap.mpr ⟨_, List.getElem_mem hi', hd⟩)
    rw [hks, hcs0]

section Children

variable {s : Tree} {name : String} {ndx : Index} {h : ℕ} {l : ℤ} {ks : List Key} {cs : List (BlockTree h)}

/-- The root of a picture. -/
theorem Picture.root (hp : @Picture s name ndx (h + 1) ⟨l, ks, cs⟩) :
    ∃ P, Open s ndx l P ∧ P.Reads name (.inner l (h + 1) ks (cs.map label)) :=
  (hp.holds _ (List.mem_cons_self ..)).open hp.index hp.fits

/-- A child of the root. -/
theorem Picture.child (hp : @Picture s name ndx (h + 1) ⟨l, ks, cs⟩) {c : BlockTree h} (hc : c ∈ cs) :
    Aligned c.label ∧ ∃ C, Open s ndx c.label C ∧ C.Reads name (rootDesc c) := by
  have hd : rootDesc c ∈ @descs ℤ Key ℤ (h + 1) ⟨l, ks, cs⟩ := by
    rw [descs_inner]
    exact List.mem_cons_of_mem _ (List.mem_flatMap.mpr ⟨c, hc, by rw [descs_eq]; exact List.mem_cons_self ..⟩)
  have hh := hp.holds _ hd
  obtain ⟨C, hC, hr⟩ := hh.open hp.index hp.fits
  rw [label_rootDesc] at hC
  exact ⟨by simpa using hh.aligned, C, hC, hr⟩

theorem Picture.child_at (hp : @Picture s name ndx (h + 1) ⟨l, ks, cs⟩) (hord : cs.length ≤ ndx.order + 1) {i : ℕ}
    {c : BlockTree h} (hc : cs[i]? = some c) : childAt l i s = .ok c.label s := by
  have hi := (List.getElem?_eq_some_iff.mp hc).1
  obtain ⟨P, hP, -, -, -, -, href⟩ := hp.root
  obtain ⟨ha, C, hC, -⟩ := hp.child (List.mem_of_getElem? hc)
  exact childAt_eq hP (by omega) (href i _ (by simp [hc])) ha hC.view

theorem Picture.child_min (hp : @Picture s name ndx (h + 1) ⟨l, ks, cs⟩) (hord : cs.length ≤ ndx.order + 1)
    {i t : ℕ} {c : BlockTree h} (hc : cs[i]? = some c) :
    childHasMin l i t s = .ok (decide (t ≤ c.count)) s := by
  obtain ⟨-, C, hC, hr⟩ := hp.child (List.mem_of_getElem? hc)
  obtain ⟨nd, hnd, -, -, hk, -⟩ := nodeAt_eq hC.view
  rw [childHasMin, run_bind (hp.child_at hord hc), run_bind hnd, run_pure, hk, reads_numKey hr,
    length_descKeys_rootDesc]
  simp

end Children

section Two

variable {s s' : Tree} {name : String} {ndx : Index} {h : ℕ} {l : ℤ} {P Q : List Key} {k : Key}
  {A B : List (BlockTree h)} {x y : BlockTree h}

/-- Two neighbours of a picture. -/
theorem Picture.neighbours (hp : @Picture s name ndx (h + 1) ⟨l, P ++ k :: Q, A ++ x :: y :: B⟩)
    (hA : A.length = P.length) (hord : (P ++ k :: Q).length < ndx.order) :
    ∃ Pv X Y, Neighbours s ndx l x.label y.label P.length Pv X Y ∧
      Pv.Reads name (.inner l (h + 1) (P ++ k :: Q) ((A ++ x :: y :: B).map label)) ∧ X.Reads name (rootDesc x) ∧
      Y.Reads name (rootDesc y) := by
  obtain ⟨Pv, hP, hPr⟩ := hp.root
  obtain ⟨hax, X, hX, hXr⟩ := hp.child (c := x) (by simp)
  obtain ⟨hay, Y, hY, hYr⟩ := hp.child (c := y) (by simp)
  have hsize := (hp.holds _ (List.mem_cons_self ..)).size k (by simp [descKeys])
  have hreads := hPr
  obtain ⟨hleaf, -, -, hkey, href⟩ := hreads
  have hnd := (((descs_two l (P ++ k :: Q) A B x y).map Desc.label).nodup_iff).mp hp.nodup
  simp only [List.map_cons, Desc.label_inner, label_rootDesc, List.nodup_cons, List.mem_cons, not_or] at hnd
  refine ⟨Pv, X, Y, ⟨hP, hX, hY, hleaf, ?_, href _ _ (by simp [← hA]), ?_, hax, hay, ?_, ?_, hnd.2.1.1, ?_, ?_⟩,
    hPr, hXr, hYr⟩
  · rw [reads_isLeaf hXr, reads_isLeaf hYr, isLeaf_rootDesc x y]
  · exact href _ _ (by simp [← hA])
  · exact fun e => hnd.1.1 e.symm
  · exact fun e => hnd.1.2.1 e.symm
  · simp only [List.length_append, List.length_cons] at hord
    omega
  · rw [hkey P.length k (by simp)]
    exact hsize

/-- What lies below two neighbours, and below the other children, is left alone. -/
theorem Picture.rest (hp : @Picture s name ndx (h + 1) ⟨l, P ++ k :: Q, A ++ x :: y :: B⟩)
    (fr : Frame [l, x.label, y.label] s s') :
    ∀ d ∈ A.flatMap descs ++ (subDescs x ++ subDescs y) ++ B.flatMap descs, Holds s' name ndx.keySize d := by
  intro d hd
  have hperm := descs_two l (P ++ k :: Q) A B x y
  have hmem := hperm.mem_iff.mpr (List.mem_cons_of_mem _ (List.mem_cons_of_mem _ (List.mem_cons_of_mem _ hd)))
  have hnd := ((hperm.map Desc.label).nodup_iff).mp hp.nodup
  simp only [List.map_cons, Desc.label_inner, label_rootDesc, List.nodup_cons, List.mem_cons, not_or] at hnd
  have hm := List.mem_map_of_mem (f := Desc.label) hd
  refine (hp.holds d hmem).congr (fr.view ?_)
  simp only [List.mem_cons, List.not_mem_nil, or_false, not_or]
  refine ⟨fun e => hnd.1.2.2 (e ▸ hm), fun e => hnd.2.1.2 (e ▸ hm), fun e => hnd.2.2.1 (e ▸ hm)⟩

/-- The picture after two neighbours and the separator between them have been rewritten. -/
theorem Picture.rewrite {x' y' : BlockTree h} {k' : Key} {Pv X Y : View}
    (hp : @Picture s name ndx (h + 1) ⟨l, P ++ k :: Q, A ++ x :: y :: B⟩) (fr : Frame [l, x.label, y.label] s s')
    (hP : s'.view l = some Pv) (hX : s'.view x.label = some X) (hY : s'.view y.label = some Y)
    (hPr : Pv.Reads name (.inner l (h + 1) (P ++ k' :: Q) ((A ++ x :: y :: B).map label)))
    (hXr : X.Reads name (rootDesc x')) (hYr : Y.Reads name (rootDesc y')) (hx : x'.label = x.label)
    (hy : y'.label = y.label) (hsub : subDescs x' ++ subDescs y' = subDescs x ++ subDescs y)
    (hsize : ∀ d ∈ @descs ℤ Key ℤ (h + 1) ⟨l, P ++ k' :: Q, A ++ x' :: y' :: B⟩, ∀ w ∈ descKeys d,
      w.length = ndx.keySize) :
    ∀ d ∈ @descs ℤ Key ℤ (h + 1) ⟨l, P ++ k' :: Q, A ++ x' :: y' :: B⟩, Holds s' name ndx.keySize d := by
  intro d hd
  have hs := hsize d hd
  have hrest := hp.rest fr
  rw [(descs_two l (P ++ k' :: Q) A B x' y').mem_iff] at hd
  rw [← hsub] at hrest
  simp only [List.mem_cons] at hd
  rcases hd with rfl | rfl | rfl | hd
  · refine ⟨(hp.holds _ (List.mem_cons_self ..)).aligned, ⟨Pv, hP, ?_⟩, hs⟩
    simpa [hx, hy] using hPr
  · refine ⟨?_, ⟨X, ?_, hXr⟩, hs⟩
    · rw [label_rootDesc, hx]
      exact (hp.child (by simp)).1
    · rwa [label_rootDesc, hx]
  · refine ⟨?_, ⟨Y, ?_, hYr⟩, hs⟩
    · rw [label_rootDesc, hy]
      exact (hp.child (by simp)).1
    · rwa [label_rootDesc, hy]
  · exact hrest d hd

/-- The picture after the last two children have been made one. -/
theorem Picture.merged {x' : BlockTree h} {Pv X : View}
    (hp : @Picture s name ndx (h + 1) ⟨l, P ++ [k], A ++ [x, y]⟩) (fr : Frame [l, x.label, y.label] s s')
    (hP : s'.view l = some Pv) (hX : s'.view x.label = some X)
    (hPr : Pv.Reads name (.inner l (h + 1) P ((A ++ [x]).map label))) (hXr : X.Reads name (rootDesc x'))
    (hx : x'.label = x.label) (hsub : subDescs x' = subDescs x ++ subDescs y)
    (hsize : ∀ d ∈ @descs ℤ Key ℤ (h + 1) ⟨l, P, A ++ [x']⟩, ∀ w ∈ descKeys d, w.length = ndx.keySize) :
    ∀ d ∈ @descs ℤ Key ℤ (h + 1) ⟨l, P, A ++ [x']⟩, Holds s' name ndx.keySize d := by
  intro d hd
  have hs := hsize d hd
  have hrest := hp.rest fr
  rw [(descs_last l P A x').mem_iff] at hd
  rw [← hsub, List.flatMap_nil, List.append_nil] at hrest
  simp only [List.mem_cons] at hd
  rcases hd with rfl | rfl | hd
  · refine ⟨(hp.holds _ (List.mem_cons_self ..)).aligned, ⟨Pv, hP, ?_⟩, hs⟩
    simpa [hx] using hPr
  · refine ⟨?_, ⟨X, ?_, hXr⟩, hs⟩
    · rw [label_rootDesc, hx]
      exact (hp.child (by simp)).1
    · rwa [label_rootDesc, hx]
  · exact hrest d hd

end Two

/-! ### The branches of `fill` -/

section Branches

variable {s : Tree} {ndx : Index} {off : ℤ} {P : View} {t n : ℕ}

/-- A choice in front of other statements. -/
theorem ite_bind {β γ : Type} {c : Prop} [Decidable c] (x y : M β) (f : β → M γ) :
    (if c then x >>= f else y >>= f) = (if c then x else y) >>= f := by
  split
  · rfl
  · rfl

/-- `fill` asks the neighbours and then does one of four things. -/
theorem fill_eq (hP : Open s ndx off P) (ht : ndx.order / 2 = t) {b c : Bool}
    (hb : (if (n : ℤ) ≠ 0 then childHasMin off ((n : ℤ) - 1) t else pure false) s = .ok b s)
    (hb' : b = false → (if (n : ℤ) ≠ P.numKey then childHasMin off ((n : ℤ) + 1) t else pure false) s = .ok c s) :
    fill off n s = (if b then borrowFromPrev off n else if c then borrowFromNext off n
      else if (n : ℤ) ≠ P.numKey then merge off n else merge off ((n : ℤ) - 1)) s := by
  obtain ⟨nd, hnd, -, -, hk, -⟩ := nodeAt_eq hP.view
  rw [fill, run_bind (minDegree_eq hP), ht, run_bind hnd, hk, ite_bind, run_bind hb]
  cases b with
  | true => rfl
  | false =>
    simp only [Bool.false_eq_true, if_false]
    rw [ite_bind, run_bind (hb' rfl)]

end Branches

section Refill

variable {s : Tree} {name : String} {ndx : Index} {t h n : ℕ} {l : ℤ} {P Q : List Key} {k : Key}
  {A B : List (BlockTree h)} {x y : BlockTree h}

/-- The keys of a child of a picture have the key size. -/
theorem Picture.child_size {ks : List Key} {cs : List (BlockTree h)} (hp : @Picture s name ndx (h + 1) ⟨l, ks, cs⟩)
    {c : BlockTree h} (hc : c ∈ cs) {C : View} (hC : C.Reads name (rootDesc c)) {i : ℕ} (hi : i < c.count) :
    (C.slots i).key.length = ndx.keySize := by
  have hd : rootDesc c ∈ @descs ℤ Key ℤ (h + 1) ⟨l, ks, cs⟩ := by
    rw [descs_inner]
    exact List.mem_cons_of_mem _ (List.mem_flatMap.mpr ⟨c, hc, by rw [descs_eq]; exact List.mem_cons_self ..⟩)
  exact reads_size hC (hp.holds _ hd).size (by rwa [length_descKeys_rootDesc])

/-- The child borrows from its left neighbour. -/
theorem Picture.fill_prev (hp : @Picture s name ndx (h + 1) ⟨l, P ++ k :: Q, A ++ x :: y :: B⟩)
    (hs : @Shape ℤ Key ℤ 1 (t - 1) (ndx.order - 1) (h + 1) ⟨l, P ++ k :: Q, A ++ x :: y :: B⟩)
    (ht : ndx.order / 2 = t) (h1t : 1 ≤ t) (hA : A.length = P.length) (hx : t ≤ x.count) (hy : y.count < t)
    (hsize : ∀ d ∈ @descs ℤ Key ℤ (h + 1) ⟨l, P ++ (x.borrowPrev 0 k y).2.1 :: Q,
      A ++ (x.borrowPrev 0 k y).1 :: (x.borrowPrev 0 k y).2.2 :: B⟩, ∀ w ∈ descKeys d, w.length = ndx.keySize) :
    ∃ s', fill l (P.length + 1 : ℕ) s = .ok () s' ∧ (∀ o, s.Alive o → s'.Alive o) ∧
      ∀ d ∈ @descs ℤ Key ℤ (h + 1) ⟨l, P ++ (x.borrowPrev 0 k y).2.1 :: Q,
        A ++ (x.borrowPrev 0 k y).1 :: (x.borrowPrev 0 k y).2.2 :: B⟩, Holds s' name ndx.keySize d := by
  obtain ⟨hks, hlen, hcs⟩ := shape_inner.mp hs
  have hsx := hcs x (by simp)
  have hsy := hcs y (by simp)
  have hcx := hsx.count_le
  obtain ⟨Pv, X, Y, hN, hPr, hXr, hYr⟩ := hp.neighbours hA (by omega)
  have hXk : X.numKey = x.count := by rw [reads_numKey hXr, length_descKeys_rootDesc]
  have hYk : Y.numKey = y.count := by rw [reads_numKey hYr, length_descKeys_rootDesc]
  obtain ⟨s', hrun, fr, hP', hX', hY'⟩ := borrowFromPrev_spec hN hXk (by omega) (by omega) hYk (by omega)
    (hp.child_size (by simp) hXr (by omega)) fun i hi => hp.child_size (by simp) hYr hi
  have hb : (if ((P.length + 1 : ℕ) : ℤ) ≠ 0 then childHasMin l (((P.length + 1 : ℕ) : ℤ) - 1) t else pure false) s =
      .ok true s := by
    rw [if_pos (by omega), show ((P.length + 1 : ℕ) : ℤ) - 1 = (P.length : ℕ) by omega,
      hp.child_min (by omega) (c := x) (by simp [← hA]), decide_eq_true hx]
  have hfill := fill_eq (c := false) hN.parent ht hb fun h => absurd h (by decide)
  rw [if_pos rfl, Nat.cast_add, Nat.cast_one] at hfill
  refine ⟨s', by exact_mod_cast hfill.trans hrun, borrowFromPrev_alive hN hrun, ?_⟩
  refine hp.rewrite fr hP' hX' hY' ?_ (reads_loseLast k y hXr (by omega)) ?_ (label_borrowPrev_left ..)
    (label_borrowPrev_right ..) (subDescs_borrowPrev 0 k hsx hsy) hsize
  · rw [reads_lastKey k y hXr (by omega)]
    exact reads_setKey hPr _
  · have hk := hPr.2.2.2.1 P.length k (by simp)
    rw [hk]
    exact reads_gainFirst k hXr hYr hsx hsy

/-- No neighbour on the left has keys to spare. -/
theorem Picture.not_prev {ks : List Key} {R : List (BlockTree h)}
    (hp : @Picture s name ndx (h + 1) ⟨l, ks, A ++ R⟩) (hord : (A ++ R).length ≤ ndx.order + 1)
    (hprev : ∀ w, A.getLast? = some w → w.count < t) :
    (if (A.length : ℤ) ≠ 0 then childHasMin l ((A.length : ℤ) - 1) t else pure false) s = .ok false s := by
  rcases List.eq_nil_or_concat A with rfl | ⟨A, w, rfl⟩
  · rfl
  · rw [List.concat_eq_append] at hp hord hprev ⊢
    have hw := hprev w (by simp)
    rw [List.length_append, List.length_singleton, if_pos (by omega), show ((A.length + 1 : ℕ) : ℤ) - 1 = A.length by omega,
      hp.child_min hord (c := w) (by simp), decide_eq_false (by omega)]

/-- The child borrows from its right neighbour. -/
theorem Picture.fill_next (hp : @Picture s name ndx (h + 1) ⟨l, P ++ k :: Q, A ++ x :: y :: B⟩)
    (hs : @Shape ℤ Key ℤ 1 (t - 1) (ndx.order - 1) (h + 1) ⟨l, P ++ k :: Q, A ++ x :: y :: B⟩)
    (ht : ndx.order / 2 = t) (h1t : 1 ≤ t) (hA : A.length = P.length)
    (hprev : ∀ w, A.getLast? = some w → w.count < t) (hx : x.count < t) (hy : t ≤ y.count)
    (hsize : ∀ d ∈ @descs ℤ Key ℤ (h + 1) ⟨l, P ++ (x.borrowNext 0 k y).2.1 :: Q,
      A ++ (x.borrowNext 0 k y).1 :: (x.borrowNext 0 k y).2.2 :: B⟩, ∀ w ∈ descKeys d, w.length = ndx.keySize) :
    ∃ s', fill l P.length s = .ok () s' ∧ (∀ o, s.Alive o → s'.Alive o) ∧
      ∀ d ∈ @descs ℤ Key ℤ (h + 1) ⟨l, P ++ (x.borrowNext 0 k y).2.1 :: Q,
        A ++ (x.borrowNext 0 k y).1 :: (x.borrowNext 0 k y).2.2 :: B⟩, Holds s' name ndx.keySize d := by
  obtain ⟨hks, hlen, hcs⟩ := shape_inner.mp hs
  have hsx := hcs x (by simp)
  have hsy := hcs y (by simp)
  have hcy := hsy.count_le
  obtain ⟨Pv, X, Y, hN, hPr, hXr, hYr⟩ := hp.neighbours hA (by omega)
  have hXk : X.numKey = x.count := by rw [reads_numKey hXr, length_descKeys_rootDesc]
  have hYk : Y.numKey = y.count := by rw [reads_numKey hYr, length_descKeys_rootDesc]
  have hPk : Pv.numKey = (P ++ k :: Q).length := hPr.2.2.1
  obtain ⟨s', hrun, fr, hP', hX', hY'⟩ := borrowFromNext_spec hN hXk (by omega) hYk (by omega) (by omega)
    fun i hi => hp.child_size (by simp) hYr hi
  have hb := hp.not_prev (by omega) hprev
  rw [hA] at hb
  have hb' : (if (P.length : ℤ) ≠ Pv.numKey then childHasMin l ((P.length : ℤ) + 1) t else pure false) s =
      .ok true s := by
    rw [if_pos (by simp [hPk]; omega), show (P.length : ℤ) + 1 = (P.length + 1 : ℕ) by omega,
      hp.child_min (by omega) (c := y) (by simp [← hA]), decide_eq_true hy]
  have hfill := fill_eq hN.parent ht hb fun _ => hb'
  rw [if_neg (by decide), if_pos rfl] at hfill
  refine ⟨s', hfill.trans hrun, borrowFromNext_alive hN hrun, ?_⟩
  have hk := hPr.2.2.2.1 P.length k (by simp)
  refine hp.rewrite fr hP' hX' hY' ?_ ?_ (reads_loseFirst k x hYr hsy (by omega)) (label_borrowNext_left ..)
    (label_borrowNext_right ..) (subDescs_borrowNext 0 k hsx hsy) hsize
  · rw [reads_firstKey k x hYr (by omega)]
    exact reads_setKey hPr _
  · rw [hk]
    exact reads_gainLast k hXr hYr hsx hsy

/-- What `merge` does when it is called by `fill` at child `n`. -/
theorem Picture.fill_merge (hp : @Picture s name ndx (h + 1) ⟨l, P ++ k :: Q, A ++ x :: y :: B⟩)
    (hs : @Shape ℤ Key ℤ 1 (t - 1) (ndx.order - 1) (h + 1) ⟨l, P ++ k :: Q, A ++ x :: y :: B⟩)
    (ht : ndx.order / 2 = t) (h1t : 1 ≤ t) (hA : A.length = P.length) (hx : x.count < t) (hy : y.count < t)
    (hn : n = P.length ∧ (∀ w, A.getLast? = some w → w.count < t) ∨ n = P.length + 1 ∧ Q = []) :
    ∃ (s' : Tree) (Pv X Y : View) (nd : Node), fill l n s = .ok () s' ∧ Frame [l, x.label, y.label] s s' ∧
      Pv.Reads name (.inner l (h + 1) (P ++ k :: Q) ((A ++ x :: y :: B).map label)) ∧ X.Reads name (rootDesc x) ∧
      Y.Reads name (rootDesc y) ∧ s'.view l = some (Pv.dropChild P.length) ∧
      s'.view x.label = some (X.absorb t k Y) ∧ s'.node y.label = some nd ∧ nd.dead = true ∧
      ∀ o, o ≠ y.label → s.Alive o → s'.Alive o := by
  obtain ⟨hks, hlen, hcs⟩ := shape_inner.mp hs
  obtain ⟨Pv, X, Y, hN, hPr, hXr, hYr⟩ := hp.neighbours hA (by omega)
  have hYk : Y.numKey = y.count := by rw [reads_numKey hYr, length_descKeys_rootDesc]
  have hPk : Pv.numKey = (P ++ k :: Q).length := hPr.2.2.1
  have hPs := (hp.holds _ (List.mem_cons_self ..)).size
  obtain ⟨s', nd, hrun, fr, hP', hX', hnd, hdead⟩ := merge_spec hN ht h1t hPk (by simp) (by omega) hYk hy
    (fun i hi => reads_size hPr hPs hi) fun i hi => hp.child_size (by simp) hYr hi
  rw [hPr.2.2.2.1 P.length k (by simp)] at hX'
  refine ⟨s', Pv, X, Y, nd, ?_, fr, hPr, hXr, hYr, hP', hX', hnd, hdead, merge_alive hN hrun⟩
  rcases hn with ⟨rfl, hprev⟩ | ⟨rfl, rfl⟩
  · have hne : (P.length : ℤ) ≠ Pv.numKey := by
      rw [hPk]
      simp
      omega
    have hb := hp.not_prev (by omega) hprev
    rw [hA] at hb
    have hb' : (if (P.length : ℤ) ≠ Pv.numKey then childHasMin l ((P.length : ℤ) + 1) t else pure false) s =
        .ok false s := by
      rw [if_pos hne, show (P.length : ℤ) + 1 = (P.length + 1 : ℕ) by omega,
        hp.child_min (by omega) (c := y) (by simp [← hA]), decide_eq_false (by omega)]
    have hfill := fill_eq hN.parent ht hb fun _ => hb'
    rw [if_neg (by decide), if_neg (by decide), if_pos hne] at hfill
    exact hfill.trans hrun
  · have hb : (if ((P.length + 1 : ℕ) : ℤ) ≠ 0 then childHasMin l (((P.length + 1 : ℕ) : ℤ) - 1) t else pure false) s =
        .ok false s := by
      rw [if_pos (by omega), show ((P.length + 1 : ℕ) : ℤ) - 1 = (P.length : ℕ) by omega,
        hp.child_min (by omega) (c := x) (by simp [← hA]), decide_eq_false (by omega)]
    have heq : ((P.length + 1 : ℕ) : ℤ) = Pv.numKey := by
      rw [hPk]
      simp
    have hfill := fill_eq (c := false) hN.parent ht hb fun _ => by
      rw [if_neg (by simpa using heq)]
      rfl
    rw [if_neg (by decide), if_neg (by decide), if_neg (by simpa using heq),
      show ((P.length + 1 : ℕ) : ℤ) - 1 = (P.length : ℕ) by omega] at hfill
    exact hfill.trans hrun

end Refill

/-! ### What `fill` is for -/

/-- `Fillable`, where all nodes have been read. -/
structure FillableRead (s : Tree) (name : String) (ndx : Index) (t : ℕ) {h : ℕ} (T : BlockTree (h + 1)) (n : ℕ) : Prop
    where
  /-- The nodes. -/
  picture : Picture s name ndx T
  /-- The minimum degree. -/
  half : ndx.order / 2 = t
  /-- No node is flagged dead. -/
  alive : ∀ d ∈ T.descs, s.Alive d.label
  /-- Every node has at most `order - 1` keys. -/
  shape : Shape 1 (t - 1) (ndx.order - 1) T
  /-- Separators bound the children, and keys are in order. -/
  sorted : Sorted T.toks
  /-- The child. -/
  child : ∃ c, (Inner.children T)[n]? = some c ∧ c.count < t

/-- What has become of the tree `T` below a node after its child `n` has been filled up. -/
structure Kept (s' : Tree) (name : String) (k t hi : ℕ) {h : ℕ} (T : BlockTree (h + 1)) (n : ℕ)
    (T' : BlockTree (h + 1)) : Prop where
  /-- The root is the same node. -/
  label : T'.label = T.label
  /-- The tree is there. -/
  holds : ∀ d ∈ T'.descs, Holds s' name k d
  /-- Every node has at most `hi` keys, the root possibly none. -/
  shape : Shape 0 (t - 1) hi T'
  /-- The elements of the leaves are the same ones, in the same order. -/
  elems : elems T'.toks = elems T.toks
  /-- The nodes below the children are the same ones, in the same order. -/
  below : T'.below = T.below
  /-- The root refers to no child twice. -/
  nodup : ((Inner.children T').map BTree.label).Nodup
  /-- It refers to those of its children that are not dead. -/
  refs : ∀ c ∈ (Inner.children T).map BTree.label, c ∈ (Inner.children T').map BTree.label ↔ s'.Alive c
  /-- Separators bound the children, and keys are in order. -/
  sorted : Sorted T'.toks
  /-- Child `n` has `t` keys, or if it is dead the one before it. -/
  filled : ∃ c c', c' ∈ Inner.children T' ∧ t ≤ c'.count ∧ c'.label = c.label ∧
    ((Inner.children T)[n]? = some c ∨
      ∃ m d, n = m + 1 ∧ (Inner.children T)[m]? = some c ∧ (Inner.children T)[n]? = some d ∧ ¬s'.Alive d.label)

/-- `FillKeeps`, where all nodes have been read. -/
def FillKeepsRead (s : Tree) (name : String) (k t hi : ℕ) {h : ℕ} (T : BlockTree (h + 1)) (n : ℕ) : Prop :=
  ∃ s' T', fill T.label n s = .ok () s' ∧ Kept s' name k t hi T n T'

section Fill

variable {s : Tree} {name : String} {ndx : Index} {t h n : ℕ} {T T' : BlockTree (h + 1)}

/-- A child of too few keys is one of at least one minimum degree. -/
theorem FillableRead.one_le (hf : FillableRead s name ndx t T n) : 1 ≤ t := by
  obtain ⟨c, -, hc⟩ := hf.child
  omega

/-- The keys of the new picture have the key size. -/
theorem FillableRead.size (hf : FillableRead s name ndx t T n) (hr : Refill t 0 T n T') :
    ∀ d ∈ T'.descs, ∀ w ∈ descKeys d, w.length = ndx.keySize := by
  intro d hd w hw
  have h1t := hf.one_le
  have hhalf := hf.half
  have hmem := (mem_inorder_toks (hr.shape hf.shape h1t (by omega))).mpr ⟨d, hd, hw⟩
  rw [hr.inorder hf.shape h1t, mem_inorder_toks hf.shape] at hmem
  obtain ⟨d', hd', hw'⟩ := hmem
  exact (hf.picture.holds d' hd').size w hw'

theorem FillableRead.alive_child {l : ℤ} {ks : List Key} {cs : List (BlockTree h)}
    (hf : @FillableRead s name ndx t h ⟨l, ks, cs⟩ n) : ∀ o ∈ cs.map BTree.label, s.Alive o := by
  intro o ho
  obtain ⟨c, hc, rfl⟩ := List.mem_map.mp ho
  have hd : rootDesc c ∈ @descs ℤ Key ℤ (h + 1) ⟨l, ks, cs⟩ := by
    rw [descs_inner]
    exact List.mem_cons_of_mem _ (List.mem_flatMap.mpr ⟨c, hc, by rw [descs_eq]; exact List.mem_cons_self ..⟩)
  simpa using hf.alive _ hd

/-- No two children of a picture are in one block. -/
theorem Picture.nodup_children {l : ℤ} {ks : List Key} {cs : List (BlockTree h)}
    (hp : @Picture s name ndx (h + 1) ⟨l, ks, cs⟩) : (cs.map BTree.label).Nodup := by
  have hnd := hp.nodup
  rw [descs_inner, List.map_cons, List.nodup_cons] at hnd
  refine List.Sublist.nodup ?_ hnd.2
  clear hnd hp
  induction cs with
  | nil => exact List.Sublist.refl _
  | cons c cs ih =>
    rw [List.map_cons, List.flatMap_cons, descs_eq, List.map_append, List.map_cons, label_rootDesc, List.cons_append]
    exact (ih.trans (List.sublist_append_right _ _)).cons_cons _

/-- The last two children are merged. -/
theorem FillableRead.joined {l : ℤ} {P : List Key} {k : Key} {A : List (BlockTree h)} {x y : BlockTree h}
    (hf : @FillableRead s name ndx t h ⟨l, P ++ [k], A ++ [x, y]⟩ n) (hA : A.length = P.length) (hx : x.count < t)
    (hy : y.count < t) (hn : n = P.length ∧ (∀ w, A.getLast? = some w → w.count < t) ∨ n = P.length + 1)
    (hsize : ∀ d ∈ @descs ℤ Key ℤ (h + 1) ⟨l, P, A ++ [join 0 x k y]⟩, ∀ w ∈ descKeys d, w.length = ndx.keySize) :
    ∃ s', fill l n s = .ok () s' ∧
      (∀ d ∈ @descs ℤ Key ℤ (h + 1) ⟨l, P, A ++ [join 0 x k y]⟩, Holds s' name ndx.keySize d) ∧
      ¬s'.Alive y.label ∧ ∀ o, o ≠ y.label → s.Alive o → s'.Alive o := by
  have hcs := (shape_inner.mp hf.shape).2.2
  have hsx := hcs x (by simp)
  have hsy := hcs y (by simp)
  have hle := hsx.le_count
  obtain ⟨s', Pv, X, Y, nd, hrun, fr, hPr, hXr, hYr, hP', hX', hnd, hdead, halive⟩ :=
    hf.picture.fill_merge hf.shape hf.half hf.one_le hA hx hy (by simpa using hn)
  refine ⟨s', hrun, ?_, fun h => ?_, halive⟩
  · refine hf.picture.merged fr hP' hX' ?_ (reads_absorb k hXr hYr hsx hsy (by omega)) (label_join ..)
      (subDescs_join ..) hsize
    have he : (A ++ [x, y]).map BTree.label = (A ++ [x]).map BTree.label ++ [y.label] := by simp
    rw [he] at hPr
    exact reads_dropChild hPr (by simp [hA])
  · have := h nd hnd
    rw [hdead] at this
    cases this

theorem kept_joined {s' : Tree} {l : ℤ} {P : List Key} {k : Key} {A : List (BlockTree h)} {x y : BlockTree h}
    (hs : @Shape ℤ Key ℤ 1 (t - 1) (ndx.order - 1) (h + 1) ⟨l, P ++ [k], A ++ [x, y]⟩) (h1t : 1 ≤ t)
    (hhalf : ndx.order / 2 = t) (hx : x.count < t) (hy : y.count < t)
    (hnd : ((A ++ [x, y]).map BTree.label).Nodup) (hal : ∀ o ∈ (A ++ [x, y]).map BTree.label, s.Alive o)
    (hholds : ∀ d ∈ @descs ℤ Key ℤ (h + 1) ⟨l, P, A ++ [join 0 x k y]⟩, Holds s' name ndx.keySize d)
    (hdead : ¬s'.Alive y.label) (halive : ∀ o, o ≠ y.label → s.Alive o → s'.Alive o)
    (he : elems (@toks ℤ Key ℤ (h + 1) ⟨l, P, A ++ [join 0 x k y]⟩) =
      elems (@toks ℤ Key ℤ (h + 1) ⟨l, P ++ [k], A ++ [x, y]⟩))
    (hbelow : @below ℤ Key ℤ h ⟨l, P, A ++ [join 0 x k y]⟩ = @below ℤ Key ℤ h ⟨l, P ++ [k], A ++ [x, y]⟩)
    (hsorted : Sorted (@toks ℤ Key ℤ (h + 1) ⟨l, P, A ++ [join 0 x k y]⟩))
    (hn : (A ++ [x, y])[n]? = some x ∨
      ∃ m d, n = m + 1 ∧ (A ++ [x, y])[m]? = some x ∧ (A ++ [x, y])[n]? = some d ∧ ¬s'.Alive d.label) :
    @Kept s' name ndx.keySize t (ndx.order - 1) h ⟨l, P ++ [k], A ++ [x, y]⟩ n ⟨l, P, A ++ [join 0 x k y]⟩ := by
  have hcs := (shape_inner.mp hs).2.2
  have hle := (hcs x (by simp)).le_count
  obtain ⟨-, hcount⟩ := (hcs x (by simp)).join 0 k (hcs y (by simp)) (by omega)
  have hlab : (A ++ [x, y]).map BTree.label = (A ++ [join 0 x k y]).map BTree.label ++ [y.label] := by simp
  rw [hlab, List.nodup_append] at hnd
  rw [hlab] at hal
  refine ⟨rfl, hholds, ?_, he, hbelow, hnd.1, fun c hc => ?_, hsorted, ⟨x, join 0 x k y, by simp, by omega,
    label_join .., hn⟩⟩
  · exact shape_joined hs hx hy h1t (by omega)
  · rw [hlab, List.mem_append, List.mem_singleton] at hc
    by_cases hcy : c = y.label
    · subst hcy
      exact iff_of_false (fun h => hnd.2.2 _ h _ (List.mem_singleton_self _) rfl) hdead
    · exact iff_of_true (hc.resolve_right hcy) (halive c hcy (hal c (List.mem_append.mpr (hc.imp_right List.mem_singleton.mpr))))

/-- Filling up gives the picture that `Refill` says, but for the elements. -/
theorem FillableRead.refill (hf : FillableRead s name ndx t T n) (hr : Refill t 0 T n T') :
    ∃ s', fill T.label n s = .ok () s' ∧
      (elems T'.toks = elems T.toks → Kept s' name ndx.keySize t (ndx.order - 1) T n T') ∧
      ∀ d ∈ T'.descs, Holds s' name ndx.keySize d := by
  have h1t := hf.one_le
  have hhalf := hf.half
  have hsize := hf.size hr
  have hshape := (hr.shape hf.shape h1t (by omega))
  have hsorted : Sorted T'.toks := by
    rw [Sorted, hr.inorder hf.shape h1t]
    exact hf.sorted
  have hbelow := hr.below hf.shape
  have hlabel := hr.label
  have hnd := hf.picture.nodup_children
  cases hr with
  | @prev l P Q k A B x y hA hx hy =>
    have hcs := (shape_inner.mp hf.shape).2.2
    have hle := (hcs y (by simp)).le_count
    obtain ⟨-, -, hcount⟩ := (hcs x (by simp)).borrowPrev 0 k (hcs y (by simp)) (by omega) (by omega)
    obtain ⟨s', hrun, halive, hholds⟩ := hf.picture.fill_prev hf.shape hhalf h1t hA hx hy hsize
    refine ⟨s', hrun, fun he => ⟨hlabel, hholds, hshape, he, hbelow, ?_, fun c hc => ?_, hsorted, ?_⟩, hholds⟩
    · simpa using hnd
    · refine iff_of_true ?_ (halive c (hf.alive_child c hc))
      simpa using hc
    · exact ⟨y, (x.borrowPrev 0 k y).2.2, by simp, by omega, label_borrowPrev_right .., .inl (by simp [← hA])⟩
  | @next l P Q k A B x y hA hprev hx hy =>
    have hcs := (shape_inner.mp hf.shape).2.2
    have hle := (hcs x (by simp)).le_count
    obtain ⟨-, -, hcount⟩ := (hcs x (by simp)).borrowNext 0 k (hcs y (by simp)) (by omega) (by omega)
    obtain ⟨s', hrun, halive, hholds⟩ := hf.picture.fill_next hf.shape hhalf h1t hA hprev hx hy hsize
    refine ⟨s', hrun, fun he => ⟨hlabel, hholds, hshape, he, hbelow, ?_, fun c hc => ?_, hsorted, ?_⟩, hholds⟩
    · simpa using hnd
    · refine iff_of_true ?_ (halive c (hf.alive_child c hc))
      simpa using hc
    · exact ⟨x, (x.borrowNext 0 k y).1, by simp, by omega, label_borrowNext_left .., .inl (by simp [← hA])⟩
  | @mergeNext l P k A x y hA hprev hx hy =>
    obtain ⟨s', hrun, hholds, hdead, halive⟩ := hf.joined hA hx hy (.inl ⟨rfl, hprev⟩) hsize
    refine ⟨s', hrun, fun he => ?_, hholds⟩
    exact kept_joined hf.shape h1t hhalf hx hy hnd hf.alive_child hholds hdead halive he hbelow hsorted
      (.inl (by simp [← hA]))
  | @mergePrev l P k A x y hA hx hy =>
    obtain ⟨s', hrun, hholds, hdead, halive⟩ := hf.joined hA hx hy (.inr rfl) hsize
    refine ⟨s', hrun, fun he => ?_, hholds⟩
    exact kept_joined hf.shape h1t hhalf hx hy hnd hf.alive_child hholds hdead halive he hbelow hsorted
      (.inr ⟨P.length, y, rfl, by simp [← hA], by simp [← hA], hdead⟩)

/-- The parent that has merged two children refers to none of its children but the last
at the places that it counts. -/
theorem dropChild_ref {Pv : View} {l : ℤ} {g : ℕ} {ks : List Key} {cs : List ℤ} {p i : ℕ}
    (hr : Pv.Reads name (.inner l g ks cs)) (hlen : cs.length = ks.length + 1) (hi : i < ks.length) :
    ∃ j, j < ks.length ∧ cs[j]? = some ((Pv.dropChild p).slots i).ref := by
  obtain ⟨-, -, h3, -, h5⟩ := hr
  simp only [View.dropChild, h3]
  have hget : ∀ j, j < ks.length → cs[j]? = some (Pv.slots j).ref := fun j hj => by
    have hc := List.getElem?_eq_getElem (show j < cs.length by omega)
    rw [hc, h5 j _ hc]
  split
  · rename_i h
    exact ⟨i + 1, by omega, hget (i + 1) (by omega)⟩
  · exact ⟨i, hi, hget i hi⟩

/-- The last child is lost. -/
theorem FillableRead.wedged (hf : FillableRead s name ndx t T n) (hw : Wedged t T n) :
    ¬FillKeepsRead s name ndx.keySize t (ndx.order - 1) T n := by
  obtain @⟨l, P, Q, k, q, A, B, x, y, w, hA, hB, hprev, hx, hy⟩ := hw
  rintro ⟨s', ⟨l', ks', cs'⟩, hrun, hk⟩
  obtain ⟨s1, Pv, X, Y, nd, hrun1, fr, hPr, hXr, hYr, hP', hX', hnd, hdead, halive⟩ :=
    hf.picture.fill_merge hf.shape hf.half hf.one_le hA hx hy (.inl ⟨rfl, hprev⟩)
  obtain ⟨-, rfl⟩ := EStateM.Result.ok.inj (hrun.symm.trans hrun1)
  obtain rfl : l' = l := hk.label
  have hlen := (shape_inner.mp hf.shape).2.1
  have hlen' := (shape_inner.mp hk.shape).2.1
  have hnodup := hf.picture.nodup_children
  have hwm : w.label ∈ (A ++ x :: y :: (B ++ [w])).map BTree.label := by simp
  have hwy : w.label ≠ y.label := by
    intro e
    simp only [List.map_append, List.map_cons, List.map_nil, List.nodup_append, List.nodup_cons] at hnodup
    simp [e] at hnodup
  -- the parent has to refer to the last child, which is alive
  have hmem := (hk.refs _ hwm).mpr (halive _ hwy (hf.alive_child _ hwm))
  obtain ⟨c, hc, hcw⟩ := List.mem_map.mp hmem
  obtain ⟨i, hi, rfl⟩ := List.getElem_of_mem hc
  obtain ⟨v, hv, -, -, h3, -, h5⟩ := (hk.holds _ (List.mem_cons_self ..)).reads
  obtain rfl := Option.some_inj.mp (hP'.symm.trans hv)
  have hks : ((P ++ k :: (Q ++ [q])).length : ℤ) - 1 = ks'.length := by
    rw [← hPr.2.2.1]
    exact h3
  -- but what it counts are other children
  obtain ⟨j, hj, hcj⟩ := @dropChild_ref name Pv l' (h + 1) _ _ P.length i hPr (by simpa using hlen) (by
    dsimp only at hi hlen'
    omega)
  rw [h5 i _ (by rw [List.getElem?_map, List.getElem?_eq_getElem hi]; rfl), hcw] at hcj
  have hlast : ((A ++ x :: y :: (B ++ [w])).map BTree.label)[(P ++ k :: (Q ++ [q])).length]? = some w.label := by
    have he : (P ++ k :: (Q ++ [q])).length = ((A ++ x :: y :: B).map BTree.label).length := by
      simp [hA, hB]
    rw [he, show A ++ x :: y :: (B ++ [w]) = (A ++ x :: y :: B) ++ [w] by simp, List.map_append,
      List.getElem?_append_right (Nat.le_refl _)]
    simp
  have hjl : j < ((A ++ x :: y :: (B ++ [w])).map BTree.label).length := by
    rw [List.length_map, hlen]
    omega
  have := (List.getElem?_inj hjl hnodup).mp (hcj.trans hlast.symm)
  omega

theorem fillKeepsRead_iff (hf : FillableRead s name ndx t T n) :
    FillKeepsRead s name ndx.keySize t (ndx.order - 1) T n ↔ Harmless t 0 T n := by
  obtain ⟨c, hc, hct⟩ := hf.child
  have h1t := hf.one_le
  have hhalf := hf.half
  rcases refill_or_wedged 0 hf.shape (Nat.le_refl 1) hc hct with ⟨T', hr⟩ | hw
  · obtain ⟨s', hrun, hkept, hholds⟩ := hf.refill hr
    rw [← hr.elems_iff hf.shape h1t]
    constructor
    · rintro ⟨s2, T2, hrun2, hk⟩
      obtain ⟨-, rfl⟩ := EStateM.Result.ok.inj (hrun.symm.trans hrun2)
      have hT := eq_of_holds hk.holds hholds hk.shape (hr.shape hf.shape h1t (by omega)) (hk.label.trans hr.label.symm)
      rw [← hT]
      exact hk.elems
    · intro he
      exact ⟨s', T', hrun, hkept he⟩
  · exact iff_of_false (hf.wedged hw) hw.not_harmless

end Fill

/-! ### Nodes that have not been read -/

/-- The table holds the B+tree `T`, whose root is an inner node with its node object; the others are
there or can be read. None is flagged dead, and child `n` has fewer than `t` keys, `t` being the minimum
degree. Every node but the root has at least `t - 1` keys, and all keys are in order. -/
structure Fillable (s : Tree) (name : String) (ndx : Index) (t : ℕ) {h : ℕ} (T : BlockTree (h + 1)) (n : ℕ) : Prop
    where
  /-- The node object of the root. -/
  there : (s.node T.label).isSome
  /-- The nodes, each read if it has not been. -/
  picture : Picture (s.loaded name) name ndx T
  /-- The minimum degree. -/
  half : ndx.order / 2 = t
  /-- No node is flagged dead. -/
  alive : ∀ d ∈ T.descs, s.Alive d.label
  /-- Every node has at most `order - 1` keys. -/
  shape : Shape 1 (t - 1) (ndx.order - 1) T
  /-- Separators bound the children, and keys are in order. -/
  sorted : Sorted T.toks
  /-- The child. -/
  child : ∃ c, (Inner.children T)[n]? = some c ∧ c.count < t

/-- `fill` returns and the content is kept. -/
def FillKeeps (s : Tree) (name : String) (k t hi : ℕ) {h : ℕ} (T : BlockTree (h + 1)) (n : ℕ) : Prop :=
  ∃ s' T', fill T.label n s = .ok () s' ∧ Kept (s'.loaded name) name k t hi T n T'

section OnDemand

variable {s : Tree} {name : String} {ndx : Index} {t h n : ℕ} {T : BlockTree (h + 1)}

/-- The members of a root whose node object is there read the other nodes on demand. -/
theorem Picture.there (hp : Picture (s.loaded name) name ndx T) (hn : (s.node T.label).isSome) : There name T.label [] s := by
  obtain ⟨l, ks, cs⟩ := T
  obtain ⟨P, hP, hr⟩ := hp.root
  obtain ⟨nd, b, hnd, -, rfl⟩ := Tree.view_eq_some.mp (Tree.view_of_loaded hP.view hn)
  exact ⟨⟨nd, hnd, hr.2.1⟩, nofun⟩

theorem Fillable.read (hf : Fillable s name ndx t T n) : FillableRead (s.loaded name) name ndx t T n :=
  ⟨hf.picture, hf.half, fun d hd => Tree.loaded_alive.mpr (hf.alive d hd), hf.shape, hf.sorted, hf.child⟩

/-- Reading the nodes first makes no difference. -/
theorem Fillable.keeps_iff_read (hf : Fillable s name ndx t T n) {k hi : ℕ} :
    FillKeeps s name k t hi T n ↔ FillKeepsRead (s.loaded name) name k t hi T n := by
  have hrun : fill T.label n (s.loaded name) = Runs.onFinal (fun s => s.loaded name) (fill T.label n s) :=
    (onDemand_fill _).run s (hf.picture.there hf.there)
  constructor
  · rintro ⟨s', T', h, hk⟩
    exact ⟨s'.loaded name, T', by rw [hrun, h]; rfl, hk⟩
  · rintro ⟨s1, T', h, hk⟩
    obtain ⟨s', hs', rfl⟩ := Runs.onFinal_eq_ok (hrun.symm.trans h)
    exact ⟨s', T', hs', hk⟩

/-- `fill` keeps the content exactly if it does no harm. -/
theorem fillKeeps_iff (hf : Fillable s name ndx t T n) :
    FillKeeps s name ndx.keySize t (ndx.order - 1) T n ↔ Harmless t 0 T n :=
  hf.keeps_iff_read.trans (fillKeepsRead_iff hf.read)

end OnDemand

/-! ### Two tables -/

/-- The node object and the block of a described node. -/
def descNode (name : String) : BlockDesc → Node × Block
  | .leaf _ es => (⟨true, false, es.length, name⟩,
      { Block.zero with slots := fun i => (es[i]?).elim ⟨0, []⟩ fun e => ⟨e.2, e.1⟩ })
  | .inner _ _ ks cs => (⟨false, false, ks.length, name⟩,
      { Block.zero with slots := fun i => ⟨(cs[i]?).getD 0, (ks[i]?).getD []⟩ })

/-- A table of one index whose nodes are as described; `links` gives their siblings. -/
def tableOf (ndx : Index) (links : ℤ → ℤ × ℤ) (ds : List BlockDesc) : Tree where
  schema := ⟨⟨1, 1, 0, 0, 32768 * (ds.length + 1), -1, -1, -1, -1⟩, [], [ndx]⟩
  cache o := (ds.find? fun d => d.label = o).map fun d =>
    { (descNode ndx.name d).2 with prev := (links o).1, next := (links o).2 }
  flushList := []
  disk := fun _ => none
  node o := (ds.find? fun d => d.label = o).map fun d => (descNode ndx.name d).1
  data := fun _ => false

theorem find_label {ds : List BlockDesc} (hnd : (ds.map Desc.label).Nodup) {d : BlockDesc} (hd : d ∈ ds) :
    (ds.find? fun d' => d'.label = d.label) = some d := by
  induction ds with
  | nil => simp at hd
  | cons e ds ih =>
    rw [List.map_cons, List.nodup_cons] at hnd
    rcases List.mem_cons.mp hd with rfl | hd
    · simp
    · have hne : ¬e.label = d.label := fun he => hnd.1 (he ▸ List.mem_map_of_mem hd)
      rw [List.find?_cons_of_neg (by simpa using hne)]
      exact ih hnd.2 hd

/-- The table holds what it is made of. -/
theorem tableOf_picture {ndx : Index} (links : ℤ → ℤ × ℤ) {h : ℕ} {T : BlockTree h} (hfit : ndx.Fits)
    (hnd : (T.descs.map Desc.label).Nodup)
    (hd : ∀ d ∈ T.descs, Aligned d.label ∧ ∀ w ∈ descKeys d, w.length = ndx.keySize) :
    Picture (tableOf ndx links T.descs) ndx.name ndx T := by
  refine ⟨?_, hfit, fun d hm => ⟨(hd d hm).1, ?_, (hd d hm).2⟩, hnd⟩
  · simp [tableOf, Schema.getIndex]
  · have hfind := find_label hnd hm
    have hview : (tableOf ndx links T.descs).view d.label = some ⟨(descNode ndx.name d).1.isLeaf,
        (descNode ndx.name d).1.numKey, (descNode ndx.name d).1.ndxName, (descNode ndx.name d).2.slots,
        (links d.label).1, (links d.label).2⟩ := by
      simp only [Tree.view, tableOf, hfind, Option.map_some]
    refine ⟨_, hview, ?_⟩
    cases d with
    | leaf l es =>
      refine ⟨rfl, rfl, rfl, fun i e he => ?_⟩
      simp [descNode, he]
    | inner l g ks cs =>
      refine ⟨rfl, rfl, rfl, fun i k hk => ?_, fun i c hc => ?_⟩
      · simp [descNode, hk]
      · simp [descNode, hc]

/-- The table before any node but the one at `root` has been read. -/
def Tree.unread (s : Tree) (root : ℤ) : Tree :=
  { s with
    cache := fun o => if o = root then s.cache o else none
    node := fun o => if o = root then s.node o else none
    disk := fun o => match s.node o, s.cache o with
      | some nd, some b => some { b with head := .node nd.isLeaf nd.numKey }
      | _, _ => none }

/-- The nodes are read from their blocks as they were. -/
theorem Tree.unread_view {s : Tree} {name : String} {o : ℤ} {v : View} (root : ℤ) (h : s.view o = some v) (hname : v.ndxName = name)
    (hlim : o < s.schema.header.nextOffset) : ((s.unread root).loaded name).view o = some v := by
  obtain ⟨nd, b, hn, hb, rfl⟩ := Tree.view_eq_some.mp h
  by_cases ho : o = root
  · exact Tree.loaded_view (Tree.view_eq_some.mpr ⟨nd, b, by rw [Tree.unread, ← hn]; exact if_pos ho, by rw [Tree.unread, ← hb]; exact if_pos ho, rfl⟩) name
  · have hnone : (s.unread root).node o = none := if_neg ho
    have hblock : (s.unread root).blockAt (s.unread root).schema.header.nextOffset o =
        some { b with head := .node nd.isLeaf nd.numKey } := by
      simp [Tree.blockAt, Tree.unread, ho, hn, hb, hlim]
    refine Tree.view_eq_some.mpr ⟨_, _, by rw [Tree.loaded_node_none hnone, hblock]; rfl, by rw [Tree.loaded_cache_none hnone, hblock], ?_⟩
    rw [← hname]
    rfl

theorem Picture.unread {s : Tree} {name : String} {ndx : Index} {h : ℕ} {T : BlockTree h} (hp : Picture s name ndx T) (root : ℤ)
    (hlim : ∀ d ∈ T.descs, d.label < s.schema.header.nextOffset) : Picture ((s.unread root).loaded name) name ndx T where
  index := hp.index
  fits := hp.fits
  nodup := hp.nodup
  holds d hd := by
    obtain ⟨v, hv, hr⟩ := (hp.holds d hd).reads
    refine (hp.holds d hd).congr ?_
    rw [hv, Tree.unread_view root hv (reads_ndxName hr) (hlim d hd)]

theorem Tree.unread_alive {s : Tree} {root o : ℤ} (h : s.Alive o) : (s.unread root).Alive o := by
  intro nd hn
  by_cases ho : o = root
  · exact h nd ((if_pos ho).symm.trans hn)
  · cases (if_neg ho).symm.trans hn

theorem tableOf_alive {ndx : Index} (links : ℤ → ℤ × ℤ) (ds : List BlockDesc) (o : ℤ) :
    (tableOf ndx links ds).Alive o := by
  intro nd hnd
  simp only [tableOf, Option.map_eq_some_iff] at hnd
  obtain ⟨d, -, rfl⟩ := hnd
  cases d <;> rfl

/-- A primary key of 8000 bytes: the order is four and the minimum degree two. -/
def wideKey : Index := ⟨pkNdx, 4, 8000, 65536, ["name"]⟩

/-- A key of one byte repeated. -/
def wide (b : Byte) : Key := List.replicate 8000 b

/-- A root with two leaves, as it is after keys 1 to 4 have been inserted in this order and
key 1 has been removed. -/
def twoLeaves : BlockTree 1 :=
  ⟨65536, [wide 2], [⟨32768, [(wide 2, 48)]⟩, ⟨98304, [(wide 3, 72), (wide 4, 96)]⟩]⟩

/-- A root with two inner nodes, the first of which has one key. -/
def twoNodes : BlockTree 2 :=
  ⟨65536, [wide 4],
    [⟨131072, [wide 2], [⟨32768, [(wide 2, 48)]⟩, ⟨98304, [(wide 3, 72), (wide 4, 96)]⟩]⟩,
      ⟨163840, [wide 5, wide 6], [⟨196608, [(wide 5, 120)]⟩, ⟨229376, [(wide 6, 144)]⟩, ⟨262144, [(wide 7, 168)]⟩]⟩]⟩

theorem length_wide (b : Byte) : (wide b).length = 8000 := List.length_replicate

theorem wide_le {a b : Byte} (h : a ≤ b) : wide a ≤ wide b := by
  rcases h.lt_or_eq with h | rfl
  · exact le_of_lt (List.cons_lt_cons_iff.mpr (.inl h))
  · exact le_refl _

/-- How the leaves 32768 and 98304 are linked. -/
def twoLinks (o : ℤ) : ℤ × ℤ :=
  if o = 32768 then (invalidSiblingRef, 98304) else if o = 98304 then (32768, invalidSiblingRef)
  else (invalidSiblingRef, invalidSiblingRef)

/-- How the nodes of `twoNodes` are linked. -/
def nodeLinks (o : ℤ) : ℤ × ℤ :=
  if o = 32768 then (invalidSiblingRef, 98304) else if o = 98304 then (32768, 196608)
  else if o = 196608 then (98304, 229376) else if o = 229376 then (196608, 262144)
  else if o = 262144 then (229376, invalidSiblingRef) else if o = 131072 then (invalidSiblingRef, 163840)
  else if o = 163840 then (131072, invalidSiblingRef) else (invalidSiblingRef, invalidSiblingRef)

theorem twoLeaves_fillable : Fillable ((tableOf wideKey twoLinks twoLeaves.descs).unread 65536) pkNdx wideKey 2 twoLeaves 0 where
  there := by decide
  picture := by
    refine (tableOf_picture _ (by decide) (by decide) fun d hd => ?_).unread _ (by decide)
    change d ∈ [.inner 65536 1 [wide 2] [32768, 98304], .leaf 32768 [(wide 2, 48)],
      .leaf 98304 [(wide 3, 72), (wide 4, 96)]] at hd
    simp only [List.mem_cons, List.not_mem_nil, or_false] at hd
    rcases hd with rfl | rfl | rfl
    · exact ⟨by decide, List.forall_mem_singleton.mpr (length_wide 2)⟩
    · exact ⟨by decide, List.forall_mem_singleton.mpr (length_wide 2)⟩
    · exact ⟨by decide, List.forall_mem_cons.mpr ⟨length_wide 3, List.forall_mem_singleton.mpr (length_wide 4)⟩⟩
  half := rfl
  alive _ _ := Tree.unread_alive (tableOf_alive _ _ _)
  shape := by
    refine shape_inner.mpr ⟨by decide, rfl, List.forall_mem_cons.mpr ⟨?_, List.forall_mem_singleton.mpr ?_⟩⟩
    · exact shape_leaf.mpr (by decide)
    · exact shape_leaf.mpr (by decide)
  sorted := by
    show ([2, 2, 3, 4].map wide).Pairwise (· ≤ ·)
    exact List.pairwise_map.mpr ((show [2, 2, 3, 4].Pairwise (fun a b : Byte => a ≤ b) by decide).imp wide_le)
  child := ⟨_, rfl, by decide⟩

/-- The leaf borrows key 3, and what comes down is the separator 2 without a row location. -/
theorem twoLeaves_lost : Fillable ((tableOf wideKey twoLinks twoLeaves.descs).unread 65536) pkNdx wideKey 2 twoLeaves 0 ∧
    ¬FillKeeps ((tableOf wideKey twoLinks twoLeaves.descs).unread 65536) pkNdx 8000 2 3 twoLeaves 0 := by
  refine ⟨twoLeaves_fillable, fun hk => ?_⟩
  rcases (fillKeeps_iff twoLeaves_fillable).mp hk with ⟨⟨m, x, hm, -⟩, -⟩ | ⟨-, -, y, k, hy, -, hh⟩
  · omega
  · obtain rfl := Option.some_inj.mp hy
    have h72 : (72 : ℤ) = 0 := congrArg Prod.snd (Option.some_inj.mp hh)
    exact absurd h72 (by decide)

theorem twoNodes_fillable : Fillable ((tableOf wideKey nodeLinks twoNodes.descs).unread 65536) pkNdx wideKey 2 twoNodes 0 where
  there := by decide
  picture := by
    refine (tableOf_picture _ (by decide) (by decide) fun d hd => ?_).unread _ (by decide)
    change d ∈ [.inner 65536 2 [wide 4] [131072, 163840], .inner 131072 1 [wide 2] [32768, 98304],
      .leaf 32768 [(wide 2, 48)], .leaf 98304 [(wide 3, 72), (wide 4, 96)],
      .inner 163840 1 [wide 5, wide 6] [196608, 229376, 262144], .leaf 196608 [(wide 5, 120)],
      .leaf 229376 [(wide 6, 144)], .leaf 262144 [(wide 7, 168)]] at hd
    simp only [List.mem_cons, List.not_mem_nil, or_false] at hd
    rcases hd with rfl | rfl | rfl | rfl | rfl | rfl | rfl | rfl
    · exact ⟨by decide, List.forall_mem_singleton.mpr (length_wide 4)⟩
    · exact ⟨by decide, List.forall_mem_singleton.mpr (length_wide 2)⟩
    · exact ⟨by decide, List.forall_mem_singleton.mpr (length_wide 2)⟩
    · exact ⟨by decide, List.forall_mem_cons.mpr ⟨length_wide 3, List.forall_mem_singleton.mpr (length_wide 4)⟩⟩
    · exact ⟨by decide, List.forall_mem_cons.mpr ⟨length_wide 5, List.forall_mem_singleton.mpr (length_wide 6)⟩⟩
    · exact ⟨by decide, List.forall_mem_singleton.mpr (length_wide 5)⟩
    · exact ⟨by decide, List.forall_mem_singleton.mpr (length_wide 6)⟩
    · exact ⟨by decide, List.forall_mem_singleton.mpr (length_wide 7)⟩
  half := rfl
  alive _ _ := Tree.unread_alive (tableOf_alive _ _ _)
  shape := by
    refine shape_inner.mpr ⟨by decide, rfl, List.forall_mem_cons.mpr ⟨?_, List.forall_mem_singleton.mpr ?_⟩⟩
    · refine shape_inner.mpr ⟨by decide, rfl, List.forall_mem_cons.mpr ⟨?_, List.forall_mem_singleton.mpr ?_⟩⟩
      · exact shape_leaf.mpr (by decide)
      · exact shape_leaf.mpr (by decide)
    · refine shape_inner.mpr ⟨by decide, rfl, List.forall_mem_cons.mpr ⟨?_, List.forall_mem_cons.mpr ⟨?_,
        List.forall_mem_singleton.mpr ?_⟩⟩⟩
      · exact shape_leaf.mpr (by decide)
      · exact shape_leaf.mpr (by decide)
      · exact shape_leaf.mpr (by decide)
  sorted := by
    show ([2, 2, 3, 4, 4, 5, 5, 6, 6, 7].map wide).Pairwise (· ≤ ·)
    exact List.pairwise_map.mpr
      ((show [2, 2, 3, 4, 4, 5, 5, 6, 6, 7].Pairwise (fun a b : Byte => a ≤ b) by decide).imp wide_le)
  child := ⟨_, rfl, by decide⟩

/-- The inner node borrows, and nothing is lost. -/
theorem twoNodes_kept : FillKeeps ((tableOf wideKey nodeLinks twoNodes.descs).unread 65536) pkNdx 8000 2 3 twoNodes 0 :=
  (fillKeeps_iff twoNodes_fillable).mpr (.inr (.inl ⟨_, rfl, by decide⟩))

end RedB
