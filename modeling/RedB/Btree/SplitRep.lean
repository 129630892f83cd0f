import RedB.Btree.Rep

/-!
# Splitting keeps the picture

`node::split_child` on a state that holds a tree: the state holds the tree in which the
child has been split (`splitChild_rep`).
-/

namespace RedB

open BPlus BPlus.BTree Links

/-! ### Lists with one more entry -/

theorem getElem?_put {β : Type} {l : List β} {n : ℕ} (hn : n ≤ l.length) (x : β) (i : ℕ) :
    (l.take n ++ x :: l.drop n)[i]? = if i < n then l[i]? else if i = n then some x else l[i - 1]? := by
  have hlen : (l.take n).length = n := List.length_take_of_le hn
  by_cases h : i < n
  · rw [if_pos h, List.getElem?_append_left (by omega), List.getElem?_take_of_lt h]
  · rw [if_neg h, List.getElem?_append_right (by omega), hlen]
    by_cases h' : i = n
    · simp [h']
    · rw [if_neg h', show i - n = (i - n - 1) + 1 by omega, List.getElem?_cons_succ, List.getElem?_drop,
        show n + (i - n - 1) = i - 1 by omega]

theorem getElem?_of_take {β : Type} {l : List β} {n i : ℕ} {x : β} (h : (l.take n)[i]? = some x) :
    l[i]? = some x := by
  rw [List.getElem?_take] at h
  split at h
  · exact h
  · simp at h

/-! ### Reading the halves of a split node -/

section Reading

variable {name : String} {C : View} {t : ℕ}

theorem reads_splitLeft (ht : 1 ≤ t) (f : ℤ) : {h : ℕ} → {c : BlockTree h} → C.Reads name (rootDesc c) →
    c.count = 2 * t - 1 → (C.splitLeft t f).Reads name (rootDesc (left t c))
  | 0, ⟨l, es⟩, ⟨h1, h2, h3, h4⟩, hc => by
    rw [count_leaf] at hc
    refine ⟨h1, h2, ?_, fun i e he => h4 i e ?_⟩
    · simp only [View.splitLeft, h1, if_true, left, List.length_take]
      omega
    · exact getElem?_of_take he
  | h + 1, ⟨l, ks, cs⟩, ⟨h1, h2, h3, h4, h5⟩, hc => by
    rw [count_inner] at hc
    refine ⟨h1, h2, ?_, fun i k hk => h4 i k ?_, fun i c hc => h5 i c ?_⟩
    · simp only [View.splitLeft, h1, left, List.length_take]
      rw [if_neg (by simp)]
      omega
    · exact getElem?_of_take hk
    · simp only [left, List.map_take] at hc
      exact getElem?_of_take hc

theorem reads_splitRight (ht : 1 ≤ t) (f prev : ℤ) : {h : ℕ} → {c : BlockTree h} → {r lo hi : ℕ} →
    C.Reads name (rootDesc c) → Shape r lo hi c → c.count = 2 * t - 1 →
    (C.splitRight t name prev).Reads name (rootDesc (right t f c))
  | 0, ⟨l, es⟩, r, lo, hi, ⟨h1, h2, h3, h4⟩, _, hc => by
    rw [count_leaf] at hc
    refine ⟨h1, rfl, ?_, fun i e he => ?_⟩
    · simp only [View.splitRight, right, List.length_drop]
      omega
    · simp only [right, List.getElem?_drop] at he
      have hlt : t + i < es.length := (List.getElem?_eq_some_iff.mp he).1
      have := h4 (t + i) e he
      simp only [View.splitRight, h1, if_true]
      rw [if_pos (by omega), if_pos (by omega), this]
  | h + 1, ⟨l, ks, cs⟩, r, lo, hi, ⟨h1, h2, h3, h4, h5⟩, hs, hc => by
    rw [count_inner] at hc
    rw [shape_inner] at hs
    refine ⟨h1, rfl, ?_, fun i k hk => ?_, fun i c hc' => ?_⟩
    · simp only [View.splitRight, right, List.length_drop]
      omega
    · simp only [right, List.getElem?_drop] at hk
      have hlt : t + i < ks.length := (List.getElem?_eq_some_iff.mp hk).1
      simp only [View.splitRight]
      rw [if_pos (by omega), h4 _ _ hk]
    · simp only [right, List.map_drop, List.getElem?_drop] at hc'
      have hlt : t + i < (cs.map label).length := (List.getElem?_eq_some_iff.mp hc').1
      rw [List.length_map] at hlt
      simp only [View.splitRight, h1, Bool.false_eq_true, if_false]
      rw [if_pos (by omega), h5 _ _ hc']

/-- The key that goes up is the one in slot `t - 1`. -/
theorem reads_splitKey : {h : ℕ} → {c : BlockTree h} → {k : Key} → C.Reads name (rootDesc c) →
    splitKey t c = some k → (C.slots (t - 1)).key = k
  | 0, ⟨l, es⟩, k, ⟨_, _, _, h4⟩, hk => by
    obtain ⟨e, he, rfl⟩ : ∃ e, es[t - 1]? = some e ∧ e.1 = k := by simpa [splitKey] using hk
    rw [h4 _ _ he]
  | h + 1, ⟨l, ks, cs⟩, k, ⟨_, _, _, h4, _⟩, hk => h4 _ _ hk

/-- All keys that a node counts have the key size. -/
theorem reads_size {d : BlockDesc} {m : ℕ} (hr : C.Reads name d) (hs : ∀ x ∈ descKeys d, x.length = m) {i : ℕ}
    (hi : i < (descKeys d).length) : (C.slots i).key.length = m := by
  cases d with
  | leaf l es =>
    simp only [descKeys, List.length_map] at hi
    rw [hr.2.2.2 i es[i] (List.getElem?_eq_getElem hi)]
    exact hs _ (List.mem_map_of_mem (List.getElem_mem hi))
  | inner l h ks cs =>
    simp only [descKeys] at hi
    rw [hr.2.2.2.1 i ks[i] (List.getElem?_eq_getElem hi)]
    exact hs _ (List.getElem_mem hi)

theorem length_descKeys_rootDesc : {h : ℕ} → (c : BlockTree h) → (descKeys (rootDesc c)).length = c.count
  | 0, ⟨l, es⟩ => by simp [rootDesc, descKeys]
  | _ + 1, _ => rfl

theorem reads_numKey {d : BlockDesc} (hr : C.Reads name d) : C.numKey = (descKeys d).length := by
  cases d with
  | leaf l es => simpa [descKeys] using hr.2.2.1
  | inner l h ks cs => exact hr.2.2.1

theorem reads_ndxName {d : BlockDesc} (hr : C.Reads name d) : C.ndxName = name := by
  cases d with
  | leaf l es => exact hr.2.1
  | inner l h ks cs => exact hr.2.1

theorem mem_descKeys_left : {h : ℕ} → {c : BlockTree h} → {x : Key} → x ∈ descKeys (rootDesc (left t c)) →
    x ∈ descKeys (rootDesc c)
  | 0, ⟨l, es⟩, x, hx => by
    simp only [rootDesc, left, descKeys, List.map_take] at hx
    exact List.mem_of_mem_take hx
  | _ + 1, _, _, hx => List.mem_of_mem_take hx

theorem mem_descKeys_right {f : ℤ} : {h : ℕ} → {c : BlockTree h} → {x : Key} →
    x ∈ descKeys (rootDesc (right t f c)) → x ∈ descKeys (rootDesc c)
  | 0, ⟨l, es⟩, x, hx => by
    simp only [rootDesc, right, descKeys, List.map_drop] at hx
    exact List.mem_of_mem_drop hx
  | _ + 1, _, _, hx => List.mem_of_mem_drop hx

/-- The parent after a split. -/
theorem reads_splitParent {P : View} {l : ℤ} {h n : ℕ} {ks : List Key} {cs : List ℤ}
    (hr : P.Reads name (.inner l h ks cs)) (hlen : cs.length = ks.length + 1) (hn : n ≤ ks.length) (k : Key) (f : ℤ) :
    (P.splitParent n k f).Reads name
      (.inner l h (ks.take n ++ k :: ks.drop n) (cs.take (n + 1) ++ f :: cs.drop (n + 1))) := by
  obtain ⟨h1, h2, h3, h4, h5⟩ := hr
  refine ⟨h1, h2, ?_, fun i x hx => ?_, fun i c hc => ?_⟩
  · simp [View.splitParent, h3]
    omega
  · rw [getElem?_put hn] at hx
    simp only [View.splitParent, h3]
    by_cases hi : i < n
    · rw [if_pos hi] at hx ⊢
      exact h4 i x hx
    · rw [if_neg hi] at hx ⊢
      by_cases hi' : i = n
      · rw [if_pos hi'] at hx ⊢
        exact Option.some_inj.mp hx
      · rw [if_neg hi'] at hx ⊢
        have hlt := (List.getElem?_eq_some_iff.mp hx).1
        rw [if_pos (by omega)]
        exact h4 _ x hx
  · rw [getElem?_put (by omega)] at hc
    simp only [View.splitParent, h3]
    by_cases hi : i < n + 1
    · rw [if_pos hi] at hc
      rw [if_pos (by omega)]
      exact h5 i c hc
    · rw [if_neg hi] at hc
      rw [if_neg (by omega)]
      by_cases hi' : i = n + 1
      · rw [if_pos hi'] at hc ⊢
        exact Option.some_inj.mp hc
      · rw [if_neg hi'] at hc ⊢
        have hlt := (List.getElem?_eq_some_iff.mp hc).1
        rw [if_pos (by omega)]
        exact h5 _ c hc

end Reading

/-! ### Splitting a child -/

/-- The contract stated at `node::is_full`: the order is even and at least four. -/
structure Index.Regular (ndx : Index) (t : ℕ) : Prop where
  /-- As many elements as the order fit in a block. -/
  fits : ndx.Fits
  /-- The order is even. -/
  order : ndx.order = 2 * t
  /-- The order is at least four. -/
  two_le : 2 ≤ t

theorem Index.Regular.half {ndx : Index} {t : ℕ} (h : ndx.Regular t) : ndx.order / 2 = t := by
  rw [h.order]
  omega

/-- A node of the picture can be worked on. -/
theorem Holds.open {s : Tree} {name : String} {ndx : Index} {d : BlockDesc} (h : Holds s name ndx.keySize d)
    (hx : s.schema.getIndex name = some ndx) (hf : ndx.Fits) :
    ∃ v, Open s ndx d.label v ∧ v.Reads name d := by
  obtain ⟨v, hv, hr⟩ := h.reads
  exact ⟨v, ⟨hv, by rw [reads_ndxName hr]; exact hx, hf⟩, hr⟩

/-- What a split does to a node that was there before. -/
theorem linked_of_split {s s' : Tree} {off prev f : ℤ} {C P P' C' : View} {U : List ℤ}
    (hne : prev ≠ off) (hC : s.view prev = some C) (hP : s.view off = some P)
    (hfr : Frame (f :: prev :: off :: sibling C.next) s s') (hP' : s'.view off = some P')
    (hPn : P'.next = P.next ∧ P'.prev = P.prev) (hC' : s'.view prev = some C') (hCp : C'.prev = C.prev)
    (hY' : ∀ Y, C.next ≠ invalidSiblingRef → s.view C.next = some Y → s'.view C.next = some { Y with prev := f })
    (hY : C.next ≠ invalidSiblingRef → C.next ≠ prev ∧ C.next ≠ off ∧ ∃ Y, s.view C.next = some Y)
    (hfi : f ≠ invalidSiblingRef) (hfU : f ∉ U) {o : ℤ} (ho : o ∈ U) : Linked s s' off prev f o := by
  have hof : o ≠ f := fun e => hfU (e ▸ ho)
  have hnextC := Tree.nextOf_eq hC
  by_cases hsib : C.next ≠ invalidSiblingRef ∧ C.next = o
  · obtain ⟨hi, rfl⟩ := hsib
    obtain ⟨hnp, hno, Y, hYv⟩ := hY hi
    have hw := hY' Y hi hYv
    refine ⟨fun _ _ v hv => ⟨_, hw, ?_⟩, fun _ => ?_, ?_⟩
    · obtain rfl : Y = v := by simpa [hYv] using hv
      exact ⟨rfl, rfl, rfl, rfl⟩
    · rw [Tree.nextOf_eq hw, Tree.nextOf_eq hYv]
    · rw [hnextC, if_neg hi, if_pos rfl, Tree.prevOf_eq hw]
      exact if_neg hfi
  · have hnot : s.nextOf prev ≠ some o := by
      rw [hnextC]
      split
      · simp
      · rename_i hi
        exact fun e => hsib ⟨hi, Option.some_inj.mp e⟩
    by_cases hoo : o = off
    · subst hoo
      refine ⟨fun h => absurd rfl h, fun _ => ?_, ?_⟩
      · rw [Tree.nextOf_eq hP', Tree.nextOf_eq hP, hPn.1]
      · rw [if_neg hnot, Tree.prevOf_eq hP', Tree.prevOf_eq hP, hPn.2]
    · by_cases hop : o = prev
      · subst hop
        refine ⟨fun _ h => absurd rfl h, fun h => absurd rfl h, ?_⟩
        rw [if_neg hnot, Tree.prevOf_eq hC', Tree.prevOf_eq hC, hCp]
      · have hv : s'.view o = s.view o := by
          refine hfr.view ?_
          rw [sibling]
          split
          · simp [hof, hop, hoo]
          · rename_i hi
            simp only [List.mem_cons, List.not_mem_nil, or_false, not_or]
            exact ⟨hof, hop, hoo, fun e => hsib ⟨hi, e.symm⟩⟩
        refine ⟨fun _ _ v hvo => ⟨v, hv.trans hvo, rfl, rfl, rfl, rfl⟩, fun _ => ?_, ?_⟩
        · rw [Tree.nextOf, Tree.nextOf, hv]
        · rw [if_neg hnot, Tree.prevOf, Tree.prevOf, hv]

/-- The keys that leaves and inner nodes count are ones that `S` allows there. -/
def KeysIn (S : Bool → Key → Prop) (ds : List BlockDesc) : Prop := ∀ d ∈ ds, ∀ k ∈ descKeys d, S d.isLeaf k

/-- Every slot of the nodes at `os`, the unused ones included, holds no key yet or one that
`S` allows in such a node. -/
def Tree.Tidy (s : Tree) (S : Bool → Key → Prop) (os : List ℤ) : Prop :=
  ∀ o ∈ os, ∀ v, s.view o = some v → ∀ i, (v.slots i).key = [] ∨ S v.isLeaf (v.slots i).key

/-- A split divides the keys of the node among the halves, but for the key that goes up. -/
theorem mem_descKeys_split {t : ℕ} (f : ℤ) {k : Key} : {h : ℕ} → {c : BlockTree h} → splitKey t c = some k → 1 ≤ t →
    ∀ x ∈ descKeys (rootDesc c), x ∈ descKeys (rootDesc (left t c)) ∨ x ∈ descKeys (rootDesc (right t f c)) ∨
      (rootDesc c).isLeaf = false ∧ x = k
  | 0, ⟨l, es⟩, _, _, x, hx => by
    simp only [rootDesc, left, right, descKeys] at hx ⊢
    rw [← List.take_append_drop t es, List.map_append, List.mem_append] at hx
    exact hx.imp_right .inl
  | h + 1, ⟨l, ks, cs⟩, hk, ht, x, hx => by
    simp only [rootDesc, left, right, descKeys, Desc.isLeaf] at hx ⊢
    obtain ⟨A, B, rfl, hA, -⟩ := hole (show ks[t - 1]? = some k from hk)
    rw [List.take_left' hA, show A ++ k :: B = (A ++ [k]) ++ B by simp, List.drop_left' (by simp [hA]; omega)]
    rcases List.mem_append.mp hx with hx | hx
    · exact .inl hx
    · rcases List.mem_cons.mp hx with rfl | hx
      · exact .inr (.inr ⟨trivial, rfl⟩)
      · exact .inr (.inl hx)

theorem isLeaf_rootDesc : {h : ℕ} → (c c' : BlockTree h) → (rootDesc c).isLeaf = (rootDesc c').isLeaf
  | 0, _, _ => rfl
  | _ + 1, _, _ => rfl

theorem reads_isLeaf {C : View} {name : String} {d : BlockDesc} (hr : C.Reads name d) : C.isLeaf = d.isLeaf := by
  cases d with
  | leaf l es => exact hr.1
  | inner l h ks cs => exact hr.1

/-- A tree that has grown from `ds` to `ds'` while blocks were handed out: only its own
blocks have been written, and the new ones are neither among the other used blocks `W`
nor handed out again. -/
structure Grown (W : List ℤ) (s : Tree) (ds : List BlockDesc) (s' : Tree) (ds' : List BlockDesc) (fs : List ℤ)
    (lim : ℤ) : Prop where
  /-- Only blocks of the tree have been written. -/
  frame : Frame (ds'.map Desc.label) s s'
  /-- No block of the tree is given up. -/
  sub : ∀ o ∈ ds.map Desc.label, o ∈ ds'.map Desc.label
  /-- New blocks are unused ones. -/
  new : ∀ o ∈ ds'.map Desc.label, o ∈ ds.map Desc.label ∨ o ∉ W
  /-- The blocks that can still be handed out. -/
  pool : Pool s' fs lim
  /-- No used block is handed out. -/
  out : Outside (ds'.map Desc.label ++ W) fs lim
  /-- No key is given up. -/
  keys : ∀ S, KeysIn S ds' → KeysIn S ds
  /-- Keys that are left behind in unused slots are still in the tree. -/
  tidy : ∀ S, KeysIn S ds' → s.Tidy S (ds.map Desc.label) → s'.Tidy S (ds'.map Desc.label)

theorem Grown.trans {W : List ℤ} {s s1 s2 : Tree} {ds ds1 ds2 : List BlockDesc} {fs fs' : List ℤ} {lim lim' : ℤ}
    (h : Grown W s ds s1 ds1 fs lim) (h' : Grown W s1 ds1 s2 ds2 fs' lim') : Grown W s ds s2 ds2 fs' lim' where
  frame := (h.frame.trans h'.frame).mono fun o ho => by
    rcases List.mem_append.mp ho with ho | ho
    · exact h'.sub o ho
    · exact ho
  sub o ho := h'.sub o (h.sub o ho)
  new o ho := by
    rcases h'.new o ho with ho | ho
    · exact h.new o ho
    · exact .inr ho
  pool := h'.pool
  out := h'.out
  keys S hk := h.keys S (h'.keys S hk)
  tidy S hk ht := h'.tidy S hk (h.tidy S (h'.keys S hk) ht)

/-! ### The nodes before and after -/

section Halves

variable {h n t : ℕ} {f l : ℤ} {ks : List Key} {cs : List (BlockTree h)} {c : BlockTree h} {k : Key} {L X Y R : List BlockDesc}
  {P P' : BlockDesc}

/-- The nodes of a tree, among them `P` and its child `c`. -/
def wholeDescs (t : ℕ) (f : ℤ) (c : BlockTree h) (L X Y : List BlockDesc) (P : BlockDesc) : List BlockDesc :=
  L ++ P :: (X ++ rootDesc c :: (subDescs (left t c) ++ (subDescs (right t f c) ++ Y)))

/-- The same nodes with `c` in two halves. -/
def halvedDescs (t : ℕ) (f : ℤ) (c : BlockTree h) (L X Y : List BlockDesc) (P : BlockDesc) : List BlockDesc :=
  L ++ P :: (X ++ rootDesc (left t c) :: (subDescs (left t c) ++ rootDesc (right t f c) :: (subDescs (right t f c) ++ Y)))

theorem descs_whole (t : ℕ) (f : ℤ) (hc : cs[n]? = some c) : L ++ @descs ℤ Key ℤ (h + 1) ⟨l, ks, cs⟩ ++ R =
    wholeDescs t f c L ((cs.take n).flatMap descs) ((cs.drop (n + 1)).flatMap descs ++ R) (.inner l (h + 1) ks (cs.map label)) := by
  obtain ⟨A, B, rfl, rfl, -⟩ := hole hc
  simp only [wholeDescs, descs_inner, List.flatMap_append, List.flatMap_cons, List.take_left, descs_eq c, subDescs_split t f c]
  simp

theorem descs_halved (hc : cs[n]? = some c) : L ++ descs (splitAt t n l ks cs c k f) ++ R =
    halvedDescs t f c L ((cs.take n).flatMap descs) ((cs.drop (n + 1)).flatMap descs ++ R)
      (.inner l (h + 1) (ks.take n ++ k :: ks.drop n) ((cs.map label).take (n + 1) ++ f :: (cs.map label).drop (n + 1))) := by
  obtain ⟨A, B, rfl, rfl, -⟩ := hole hc
  have htake : ((A ++ c :: B).map label).take (A.length + 1) = A.map label ++ [c.label] := by
    rw [List.map_append, List.map_cons, List.take_append, List.take_of_length_le (by simp), List.length_map,
      Nat.add_sub_cancel_left]
    rfl
  have hdrop : ((A ++ c :: B).map label).drop (A.length + 1) = B.map label := by
    rw [List.map_append, List.map_cons, List.drop_append, List.drop_of_length_le (by simp), List.length_map,
      Nat.add_sub_cancel_left]
    rfl
  rw [htake, hdrop]
  simp [halvedDescs, splitAt, descs_eq (left t c), descs_eq (right t f c)]

theorem rootDesc_mem_whole : rootDesc c ∈ wholeDescs t f c L X Y P := by
  simp [wholeDescs]

theorem parent_mem_whole : P ∈ wholeDescs t f c L X Y P := by
  simp [wholeDescs]

/-- The new block is the only one that comes in. -/
theorem labels_halved (hP : P'.label = P.label) :
    ((halvedDescs t f c L X Y P').map Desc.label).Perm (f :: (wholeDescs t f c L X Y P).map Desc.label) := by
  have hperm := @labels_split L X (subDescs (left t c)) (subDescs (right t f c)) Y P P' (rootDesc c) (rootDesc (left t c))
    (rootDesc (right t f c)) hP (by simp)
  rwa [label_rootDesc, label_right] at hperm

/-- The keys are still there: what goes up is a key of the parent. -/
theorem keysIn_whole {S : Bool → Key → Prop} {g : ℕ} {rs rs' : List ℤ} (hk : splitKey t c = some k) (ht : 1 ≤ t)
    (hS : KeysIn S (halvedDescs t f c L X Y (.inner l g (ks.take n ++ k :: ks.drop n) rs'))) :
    KeysIn S (wholeDescs t f c L X Y (.inner l g ks rs)) := by
  intro d hd x hx
  simp only [wholeDescs, List.mem_append, List.mem_cons] at hd
  rcases hd with hd | rfl | hd | rfl | hd
  · exact hS d (by simp [halvedDescs, hd]) x hx
  · refine hS (.inner l g (ks.take n ++ k :: ks.drop n) rs') (by simp [halvedDescs]) x ?_
    simp only [descKeys] at hx ⊢
    rw [← List.take_append_drop n ks, List.mem_append] at hx
    exact List.mem_append.mpr (hx.imp_right (List.mem_cons_of_mem k))
  · exact hS d (by simp [halvedDescs, hd]) x hx
  · rcases mem_descKeys_split f hk ht x hx with hx | hx | ⟨hl, rfl⟩
    · rw [isLeaf_rootDesc c (left t c)]
      exact hS _ (by simp [halvedDescs]) x hx
    · rw [isLeaf_rootDesc c (right t f c)]
      exact hS _ (by simp [halvedDescs]) x hx
    · rw [hl]
      exact hS (.inner l g (ks.take n ++ x :: ks.drop n) rs') (by simp [halvedDescs]) x (by simp [descKeys])
  · rcases hd with hd | hd | hd <;> exact hS d (by simp [halvedDescs, hd]) x hx

end Halves

/-- Slots that are not used any more hold keys that the tree still has. -/
theorem tidy_split {s s' : Tree} {S : Bool → Key → Prop} {U : List ℤ} {t n : ℕ} {k : Key} {f l o' : ℤ} {C P : View} {name : String}
    (ht : s.Tidy S U) (hl : l ∈ U) (ho' : o' ∈ U) (hP : s.view l = some P) (hC : s.view o' = some C) (hinner : P.isLeaf = false)
    (hk : S false k) (hvl : s'.view l = some (P.splitParent n k f)) (hvc : s'.view o' = some (C.splitLeft t f))
    (hvf : s'.view f = some (C.splitRight t name o'))
    (hsame : ∀ o ∈ U, o ≠ l → o ≠ o' → ∃ v w, s.view o = some v ∧ s'.view o = some w ∧ w.Same v) : s'.Tidy S (f :: U) := by
  intro o ho w hw i
  rcases List.mem_cons.mp ho with rfl | ho
  · obtain rfl := Option.some_inj.mp (hvf.symm.trans hw)
    simp only [View.splitRight]
    split
    · exact ht _ ho' C hC _
    · exact .inl rfl
  · by_cases hol : o = l
    · subst hol
      obtain rfl := Option.some_inj.mp (hvl.symm.trans hw)
      have htP := ht o hl P hP
      simp only [View.splitParent]
      by_cases hin : i = n
      · rw [if_neg (by omega), if_pos hin, hinner]
        exact .inr hk
      · rw [if_neg hin]
        split
        · exact htP i
        · split
          · exact htP (i - 1)
          · exact htP i
    · by_cases hoc : o = o'
      · subst hoc
        obtain rfl := Option.some_inj.mp (hvc.symm.trans hw)
        exact ht _ ho' C hC i
      · obtain ⟨v, w', hv, hw', hs1, -, -, hs4⟩ := hsame o ho hol hoc
        obtain rfl := Option.some_inj.mp (hw'.symm.trans hw)
        rw [hs1, hs4]
        exact ht _ ho v hv i

section Splitting

variable {s : Tree} {name : String} {ndx : Index} {t : ℕ} {back : ℕ → Prop} {W fs : List ℤ} {lim : ℤ}

/-- `split_child` does to the state what `splitAt` does to the picture. -/
theorem splitChild_rep {h n r lo hi : ℕ} {l : ℤ} {ks : List Key} {cs : List (BlockTree h)} {c : BlockTree h} {k : Key}
    {L R : List BlockDesc} (hx : s.schema.getIndex name = some ndx) (hreg : ndx.Regular t)
    (hrep : Rep s name ndx.keySize back (L ++ @descs ℤ Key ℤ (h + 1) ⟨l, ks, cs⟩ ++ R))
    (hlen : cs.length = ks.length + 1) (hroom : ks.length < 2 * t - 1) (hc : cs[n]? = some c)
    (hs : Shape r lo hi c) (hcount : c.count = 2 * t - 1) (hk : splitKey t c = some k) (hpool : Pool s fs lim)
    (hout : Outside ((L ++ @descs ℤ Key ℤ (h + 1) ⟨l, ks, cs⟩ ++ R).map Desc.label ++ W) fs lim) :
    ∃ s', splitChild l n c.label s = .ok () s' ∧
      Rep s' name ndx.keySize back (L ++ descs (splitAt t n l ks cs c k (stream fs lim 0)) ++ R) ∧
      Grown W s (L ++ @descs ℤ Key ℤ (h + 1) ⟨l, ks, cs⟩ ++ R) s'
        (L ++ descs (splitAt t n l ks cs c k (stream fs lim 0)) ++ R) (restFree fs) (restLim fs lim) := by
  obtain ⟨hn, -⟩ := List.getElem?_eq_some_iff.mp hc
  have ht2 := hreg.two_le
  -- the picture with the child in the open
  rw [descs_whole t (stream fs lim 0) hc] at hrep hout ⊢
  rw [descs_halved hc]
  have hpz := hpool.aligned_zero
  have hfU := hout.stream_zero
  have hout' := hout.cons hpool
  generalize (cs.take n).flatMap descs = X at *
  generalize (cs.drop (n + 1)).flatMap descs ++ R = Y at *
  generalize hfe : stream fs lim 0 = f at *
  generalize hWe : wholeDescs t f c L X Y (.inner l (h + 1) ks (cs.map label)) = whole at *
  have hmC : rootDesc c ∈ whole := hWe ▸ rootDesc_mem_whole
  have hmP : Desc.inner l (h + 1) ks (cs.map label) ∈ whole := hWe ▸ parent_mem_whole
  have hU : ∀ d ∈ whole, d.label ∈ whole.map Desc.label := fun d hd => List.mem_map_of_mem hd
  have hfU' : f ∉ whole.map Desc.label := fun e => hfU (List.mem_append_left _ e)
  obtain ⟨P, hP, hPr⟩ := (hrep.holds _ hmP).open hx hreg.fits
  obtain ⟨C, hC, hCr⟩ := (hrep.holds _ hmC).open hx hreg.fits
  have hPs := (hrep.holds _ hmP).size
  have hCs := (hrep.holds _ hmC).size
  rw [Desc.label_inner] at hP
  rw [label_rootDesc] at hC
  have hlU : l ∈ whole.map Desc.label := hU _ hmP
  have hcU : c.label ∈ whole.map Desc.label := by
    rw [← label_rootDesc c]
    exact hU _ hmC
  have hcA : Aligned c.label := by simpa using (hrep.holds _ hmC).aligned
  have hne : c.label ≠ l := by
    intro e
    have hh := congrArg Desc.height (hrep.eq_of_label hmC hmP (by simpa using e))
    simp at hh
  have hnext : C.next ≠ invalidSiblingRef → Aligned C.next ∧ C.next ≠ c.label ∧ C.next ≠ l ∧ C.next ≠ f ∧
      C.next ∉ restFree fs ∧ ∃ Y, s.view C.next = some Y := by
    intro hi
    obtain ⟨d, hd, hdh, hdl, hdc⟩ := hrep.next_mem hmC (by simpa using hC.view) hi
    rw [label_rootDesc] at hdc
    have hdU := hU d hd
    obtain ⟨v, hv, -⟩ := (hrep.holds d hd).reads
    rw [← hdl]
    refine ⟨(hrep.holds d hd).aligned, hdc, fun e => ?_, fun e => hfU' (e ▸ hdU), fun e => ?_, v, hv⟩
    · have := hrep.eq_of_label hd hmP e
      rw [this, height_rootDesc] at hdh
      simp at hdh
    · exact hout.notMem _ (List.mem_append_left _ hdU) (List.mem_of_mem_tail e)
  have hord := hreg.order
  obtain ⟨s', hrun, hfr, hp', hvf, hvc, hvl, hvY⟩ := splitChild_spec (n := n) (m := ks.length) hP hC hne hPr.1
    (by omega) hPr.2.2.1 (by omega) (by omega) (fun i hi => reads_size hPr hPs hi)
    (fun i hi => reads_size hCr hCs (by rw [length_descKeys_rootDesc, hcount]; omega)) hpool
    (hout.mono fun u hu => List.mem_append_left _ (by simp at hu; rcases hu with rfl | rfl <;> assumption))
    fun hi => by
      obtain ⟨ha, hnp, hno, hnf, hnr, Y, hYv⟩ := hnext hi
      rw [hfe]
      exact ⟨ha, hnp, hno, hnf, hnr, Y, Tree.loaded_view (s := s.withEnd (f + bufferSz)) hYv C.ndxName⟩
  replace hvY := fun Y hi (hYv : s.view C.next = some Y) =>
    hvY Y hi (Tree.loaded_view (s := s.withEnd (stream fs lim 0 + bufferSz)) hYv C.ndxName)
  rw [hfe] at hfr hvf hvc hvl hvY
  rw [hreg.half, reads_splitKey hCr hk] at hvl
  rw [hreg.half] at hvf hvc
  rw [reads_ndxName hPr] at hvf
  have hPr' := reads_splitParent hPr (by simpa using hlen) (by omega : n ≤ ks.length) k f
  have hLr' := reads_splitLeft (by omega : 1 ≤ t) f hCr hcount
  have hRr' := reads_splitRight (by omega : 1 ≤ t) f c.label hCr hs hcount
  have hlinked : ∀ o ∈ whole.map Desc.label, Linked s s' l c.label f o := fun o ho =>
    linked_of_split hne hC.view hP.view hfr hvl ⟨rfl, rfl⟩ hvc rfl hvY
      (fun hi => ⟨(hnext hi).2.1, (hnext hi).2.2.1, (hnext hi).2.2.2.2.2⟩) hpz.ne_invalid hfU' ho
  have hperm : ((halvedDescs t f c L X Y (.inner l (h + 1) (ks.take n ++ k :: ks.drop n)
      ((cs.map label).take (n + 1) ++ f :: (cs.map label).drop (n + 1)))).map Desc.label).Perm (f :: whole.map Desc.label) :=
    hWe ▸ labels_halved rfl
  refine ⟨s', hrun, ?_, hfr.mono fun o ho => hperm.mem_iff.mpr ?_, fun o ho => hperm.mem_iff.mpr (.tail _ ho),
    fun o ho => ?_, hp', hout'.mono fun o ho => ?_, fun S hS => hWe ▸ keysIn_whole hk (by omega) hS, fun S hS ht o ho => ?_⟩
  · subst hWe
    refine hrep.split rfl rfl (by simp) (by simp) (by simp) (fun d hd => ?_) ?_ (fun d hd => ?_) ?_ ?_ ?_ ?_ ?_ ?_
    · rw [height_rootDesc]
      rcases List.mem_append.mp hd with hd | hd
      · exact height_lt _ d hd
      · exact height_lt _ d hd
    · rw [label_rootDesc, label_right, List.mem_map]
      rintro ⟨d, hd, rfl⟩
      exact hfU' (hU d hd)
    · simp only [Desc.label_inner, label_rootDesc, label_right]
      exact hlinked _ (hU d hd)
    · rw [label_rootDesc, label_rootDesc, label_right, Tree.nextOf_eq hvc]
      exact if_neg hpz.ne_invalid
    · rw [label_rootDesc, label_rootDesc, label_right, Tree.nextOf_eq hvf, Tree.nextOf_eq hC.view]
      rfl
    · rw [label_rootDesc, label_rootDesc, label_right, Tree.prevOf_eq hvf]
      exact if_neg hcA.ne_invalid
    · refine ⟨(hrep.holds _ hmP).aligned, ⟨_, hvl, hPr'⟩, fun x hx => ?_⟩
      simp only [descKeys, List.mem_append, List.mem_cons] at hx
      rcases hx with hx | rfl | hx
      · exact hPs x (List.mem_of_mem_take hx)
      · rw [← reads_splitKey hCr hk]
        exact reads_size hCr hCs (by rw [length_descKeys_rootDesc, hcount]; omega)
      · exact hPs x (List.mem_of_mem_drop hx)
    · refine ⟨by simpa using hcA, ⟨_, by simpa using hvc, hLr'⟩, fun x hx => hCs x (mem_descKeys_left hx)⟩
    · refine ⟨by simpa using hpz, ⟨_, by simpa using hvf, hRr'⟩, fun x hx => hCs x (mem_descKeys_right hx)⟩
  · simp only [List.mem_cons] at ho ⊢
    rcases ho with ho | rfl | rfl | ho
    · exact .inl ho
    · exact .inr hcU
    · exact .inr hlU
    · rw [sibling] at ho
      split at ho
      · simp at ho
      · rename_i hi
        obtain ⟨d, hd, -, hdl, -⟩ := hrep.next_mem hmC (by simpa using hC.view) hi
        obtain rfl : o = C.next := by simpa using ho
        exact .inr (hdl ▸ hU d hd)
  · rcases List.mem_cons.mp (hperm.mem_iff.mp ho) with rfl | ho
    · exact .inr fun e => hfU (List.mem_append_right _ e)
    · exact .inl ho
  · rcases List.mem_append.mp ho with ho | ho
    · rcases List.mem_cons.mp (hperm.mem_iff.mp ho) with rfl | ho
      · simp
      · simp [ho]
    · simp [ho]
  · have hkS : S false k := hS (.inner l (h + 1) (ks.take n ++ k :: ks.drop n)
      ((cs.map label).take (n + 1) ++ f :: (cs.map label).drop (n + 1))) (by simp [halvedDescs]) k (by simp [descKeys])
    refine tidy_split ht hlU hcU hP.view hC.view hPr.1 hkS hvl hvc hvf (fun o ho hol hoc => ?_) o (hperm.mem_iff.mp ho)
    obtain ⟨d, hd, rfl⟩ := List.mem_map.mp ho
    obtain ⟨v, hv, -⟩ := (hrep.holds d hd).reads
    obtain ⟨w, hw, hsame⟩ := (hlinked _ ho).same hol hoc v hv
    exact ⟨v, w, hv, hw, hsame⟩

end Splitting

end RedB
