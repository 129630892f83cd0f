import RedB.Btree.Loops
import RedB.Btree.Read

/-!
# Splitting a node

`node::split_child` takes a block, moves the upper part of the child's vector to it,
makes room for one child-offset and one element in the parent and links the new node
behind the child. `splitChild_spec` says what the three nodes and the child's old
neighbour say afterwards. It holds for every order of at least two and for any child,
full or not; what is lost when the order is odd is a matter of which slots the two
halves count.
-/

namespace RedB

/-! ### What is left as it was -/

/-- Nothing has changed but at the offsets `os`, and in the schema nothing but the free
list and the end of the file. -/
structure Frame (os : List ℤ) (s s' : Tree) : Prop where
  /-- The schema. -/
  schema : ∃ n fh ft, s'.schema =
    { s.schema with header := { s.schema.header with nextOffset := n, freeHead := fh, freeTail := ft } }
  /-- The node objects. -/
  node : ∀ o, o ∉ os → s'.node o = s.node o
  /-- The cached blocks. -/
  cache : ∀ o, o ∉ os → s'.cache o = s.cache o
  /-- The file. -/
  disk : ∀ o, o ∉ os → s'.disk o = s.disk o
  /-- The data objects. -/
  data : s'.data = s.data

theorem Frame.refl (os : List ℤ) (s : Tree) : Frame os s s :=
  ⟨⟨_, _, _, rfl⟩, fun _ _ => rfl, fun _ _ => rfl, fun _ _ => rfl, rfl⟩

theorem Frame.trans {os os' : List ℤ} {s s1 s2 : Tree} (h : Frame os s s1) (h' : Frame os' s1 s2) :
    Frame (os ++ os') s s2 where
  schema := by
    obtain ⟨n, fh, ft, e⟩ := h.schema
    obtain ⟨n', fh', ft', e'⟩ := h'.schema
    exact ⟨n', fh', ft', by rw [e', e]⟩
  node o ho := by
    rw [List.mem_append, not_or] at ho
    rw [h'.node o ho.2, h.node o ho.1]
  cache o ho := by
    rw [List.mem_append, not_or] at ho
    rw [h'.cache o ho.2, h.cache o ho.1]
  disk o ho := by
    rw [List.mem_append, not_or] at ho
    rw [h'.disk o ho.2, h.disk o ho.1]
  data := h'.data.trans h.data

theorem Frame.mono {os os' : List ℤ} {s s' : Tree} (h : Frame os s s') (hs : ∀ o ∈ os, o ∈ os') :
    Frame os' s s' where
  schema := h.schema
  node o ho := h.node o fun h' => ho (hs o h')
  cache o ho := h.cache o fun h' => ho (hs o h')
  disk o ho := h.disk o fun h' => ho (hs o h')
  data := h.data

theorem Frame.index {os : List ℤ} {s s' : Tree} (h : Frame os s s') : s'.schema.index = s.schema.index := by
  obtain ⟨n, fh, ft, e⟩ := h.schema
  rw [e]

theorem Frame.getIndex {os : List ℤ} {s s' : Tree} (h : Frame os s s') (name : String) :
    s'.schema.getIndex name = s.schema.getIndex name := by
  rw [Schema.getIndex, Schema.getIndex, h.index]

theorem Frame.view {os : List ℤ} {s s' : Tree} (h : Frame os s s') {o : ℤ} (ho : o ∉ os) :
    s'.view o = s.view o := by
  rw [Tree.view, Tree.view, h.node o ho, h.cache o ho]

theorem Frame.open {os : List ℤ} {s s' : Tree} (h : Frame os s s') {ndx : Index} {o : ℤ} {v : View}
    (hv : Open s ndx o v) (ho : o ∉ os) : Open s' ndx o v :=
  ⟨(h.view ho).trans hv.view, by rw [h.getIndex]; exact hv.index, hv.fits⟩

theorem Wrote.frame {s s' : Tree} {o : ℤ} {v : View} (h : Wrote s o v s') : Frame [o] s s' where
  schema := ⟨_, _, _, h.schema⟩
  node o' ho := h.node o' (by simpa using ho)
  cache o' ho := h.cache o' (by simpa using ho)
  disk o' _ := by rw [h.disk]
  data := h.data

theorem HasRead.frame {s s' : Tree} {o : ℤ} (h : HasRead o s s') : Frame [o] s s' where
  schema := ⟨_, _, _, h.schema⟩
  node o' ho := h.node o' (by simpa using ho)
  cache o' ho := h.cache o' (by simpa using ho)
  disk o' _ := by rw [h.disk]
  data := h.data

theorem Handed.frame {s s' : Tree} {f : ℤ} (h : Handed s f s') : Frame [f] s s' where
  schema := by
    obtain ⟨fh, ft, e⟩ := h.schema
    exact ⟨_, fh, ft, e⟩
  node o _ := by rw [h.node]
  cache o ho := h.cache o (by simpa using ho)
  disk o _ := by rw [h.disk]
  data := h.data

/-- Writing a used node does not matter to the pool. -/
theorem Pool.wrote {s s' : Tree} {fs : List ℤ} {lim o : ℤ} {v : View} (h : Pool s fs lim)
    (hw : Wrote s o v s') (ho : o ∉ fs) : Pool s' fs lim :=
  h.congr (by rw [hw.schema]) (by rw [hw.schema])
    fun f hf => ⟨hw.cache f (fun e => ho (e ▸ hf)), by rw [hw.disk]⟩

/-! ### A new node -/

/-- What a new node says. -/
def View.new (leaf : Bool) (name : String) : View :=
  ⟨leaf, 0, name, fun _ => ⟨0, []⟩, invalidSiblingRef, invalidSiblingRef⟩

theorem newNode_spec (leaf : Bool) (name : String) (f : ℤ) (s : Tree) : ∃ s',
    newNode leaf name f s = .ok f s' ∧ s'.view f = some (View.new leaf name) ∧ s'.schema = s.schema ∧
      Frame [f] s s' := by
  have hb : buffer f { s.writeBlock Block.zero f with cache := Function.update s.cache f (some Block.zero) } =
      .ok Block.zero { s.writeBlock Block.zero f with cache := Function.update s.cache f (some Block.zero) } :=
    buffer_of_cache (Function.update_self ..)
  refine ⟨_, run_bind hb, ?_, rfl, ⟨_, _, _, rfl⟩, fun o ho => ?_, fun o ho => ?_, fun o ho => ?_, rfl⟩
  · simp [Tree.view, View.new, Block.zero]
  · exact Function.update_of_ne (by simpa using ho) _ _
  · have ho' : o ≠ f := by simpa using ho
    simp [Function.update_of_ne ho']
  · exact Function.update_of_ne (by simpa using ho) _ _

/-- A block is handed out and made a node. -/
theorem alloc_spec {s : Tree} {fs : List ℤ} {lim : ℤ} (h : Pool s fs lim) (leaf : Bool) (name : String) :
    ∃ s1 s2, nextOffset false s = .ok (stream fs lim 0) s1 ∧
      newNode leaf name (stream fs lim 0) s1 = .ok (stream fs lim 0) s2 ∧
      s2.view (stream fs lim 0) = some (View.new leaf name) ∧ Pool s2 (restFree fs) (restLim fs lim) ∧
      Frame [stream fs lim 0] s s2 ∧ s2.schema.header.nextOffset = stream fs lim 0 + bufferSz := by
  obtain ⟨s1, h1, hh, hp⟩ := nextOffset_spec h
  obtain ⟨s2, h2, hv, hs, hf⟩ := newNode_spec leaf name (stream fs lim 0) s1
  refine ⟨s1, s2, h1, h2, hv, hp.congr (by rw [hs]) (by rw [hs]) fun g hg => ?_, ?_, ?_⟩
  · have hne : g ∉ [stream fs lim 0] := by
      cases fs with
      | nil => simp [restFree] at hg
      | cons f fs =>
        have hn := List.nodup_cons.mp h.nodup
        simp only [stream, restFree, List.tail_cons] at hg ⊢
        simpa using fun e : g = f => hn.1 (e ▸ hg)
    exact ⟨hf.cache g hne, hf.disk g hne⟩
  · exact (hh.frame.trans hf).mono (by simp)
  · obtain ⟨fh, ft, e⟩ := hh.schema
    rw [hs, e]

/-! ### Linking a new node -/

/-- The sibling that a sibling field names, if any. -/
def sibling (o : ℤ) : List ℤ := if o = invalidSiblingRef then [] else [o]

/-- `insert_sibling` puts the new node between `prev` and its next sibling, which is read if it has not been. -/
theorem insertSibling_spec {s : Tree} {prev f : ℤ} {C N : View} (hC : s.view prev = some C)
    (hN : s.view f = some N) (hne : prev ≠ f)
    (hY : C.next ≠ invalidSiblingRef → Aligned C.next ∧ C.next ≠ prev ∧ C.next ≠ f ∧ ∃ Y, (s.loaded C.ndxName).view C.next = some Y) :
    ∃ s', insertSibling prev f s = .ok () s' ∧ s'.schema = s.schema ∧ Frame (f :: prev :: sibling C.next) s s' ∧
      s'.disk = s.disk ∧ s'.view f = some { N with prev := prev, next := C.next } ∧
      s'.view prev = some { C with next := f } ∧
      ∀ Y, C.next ≠ invalidSiblingRef → (s.loaded C.ndxName).view C.next = some Y → s'.view C.next = some { Y with prev := f } := by
  obtain ⟨s1, h1, w1⟩ := setPrevSiblingOffset_spec hN prev
  have hC1 := (w1.view_ne hne).trans hC
  obtain ⟨s2, h2, w2⟩ := setNextSiblingOffset_spec w1.view C.next
  have w12 := w1.trans w2
  have hC2 := (w2.view_ne hne).trans hC1
  obtain ⟨nd, hnd, -, -, -, hname⟩ := nodeAt_eq hC2
  obtain ⟨b, hb, -, -, -, hbn⟩ := buffer_eq hC2
  by_cases hinv : C.next = invalidSiblingRef
  · have hgs : getNextSibling prev s2 = .ok none s2 := by
      rw [getNextSibling, run_bind hnd, run_bind hb]
      simp only [hbn, if_pos hinv]
      rfl
    obtain ⟨s3, h3, w3⟩ := setNextSiblingOffset_spec hC2 f
    refine ⟨s3, ?_, ?_, ?_, ?_, ?_, w3.view, fun Y h => absurd hinv h⟩
    · rw [insertSibling, run_bind h1, run_bind (getNextSiblingOffset_eq hC1), run_bind h2, run_bind hgs]
      exact h3
    · rw [w3.schema, w12.schema]
    · exact (w12.frame.trans w3.frame).mono (by simp [sibling, hinv])
    · rw [w3.disk, w12.disk]
    · rw [w3.view_ne hne.symm, w2.view]
  · obtain ⟨ha, hnp, hnf, Y, hYv⟩ := hY hinv
    have hY2 : (s2.loaded C.ndxName).view C.next = some Y := by
      rw [loaded_view_congr (w12.node _ hnf) (w12.cache _ hnf) (by rw [w12.disk]) (by rw [w12.schema]), hYv]
    obtain ⟨s2', hget, hYr, hr⟩ := getNode_loaded ha hY2
    have hgs : getNextSibling prev s2 = .ok (some C.next) s2' := by
      rw [getNextSibling, run_bind hnd, run_bind hb]
      simp only [hbn, if_neg hinv, hname]
      exact hget
    obtain ⟨s3, h3, w3⟩ := setPrevSiblingOffset_spec hYr f
    obtain ⟨s4, h4, w4⟩ := flush_spec w3.view
    have w34 := w3.trans w4
    have hC4 := ((w34.view_ne hnp.symm).trans (hr.view_ne hnp.symm)).trans hC2
    obtain ⟨s5, h5, w5⟩ := setNextSiblingOffset_spec hC4 f
    refine ⟨s5, ?_, ?_, ?_, ?_, ?_, w5.view, fun Y' _ hY' => ?_⟩
    · rw [insertSibling, run_bind h1, run_bind (getNextSiblingOffset_eq hC1), run_bind h2, run_bind hgs]
      simp only
      rw [run_bind h3, run_bind h4]
      exact h5
    · rw [w5.schema, w34.schema, hr.schema, w12.schema]
    · exact (((w12.frame.trans hr.frame).trans w34.frame).trans w5.frame).mono (by simp [sibling, hinv])
    · rw [w5.disk, w34.disk, hr.disk, w12.disk]
    · rw [w5.view_ne hne.symm, w34.view_ne hnf.symm, hr.view_ne hnf.symm, w2.view]
    · rw [w5.view_ne hnp, w34.view]
      obtain rfl : Y = Y' := Option.some.inj (hYv.symm.trans hY')
      rfl

/-! ### `split_child` -/

/-- What the new node says after a split of `C` at minimum degree `t`. -/
def View.splitRight (C : View) (t : ℕ) (name : String) (prev : ℤ) : View :=
  ⟨C.isLeaf, (t : ℤ) - 1, name, fun j =>
    ⟨if j < (if C.isLeaf then t - 1 else t) then (C.slots (t + j)).ref else 0,
      if j < t - 1 then (C.slots (t + j)).key else []⟩, prev, C.next⟩

/-- What the child says after the split: its vector is left alone. -/
def View.splitLeft (C : View) (t : ℕ) (f : ℤ) : View :=
  { C with numKey := if C.isLeaf then (t : ℤ) else (t : ℤ) - 1, next := f }

/-- What the parent says after key `k` and child-offset `f` have come in at child `n`. -/
def View.splitParent (P : View) (n : ℕ) (k : Key) (f : ℤ) : View :=
  { P with
    numKey := P.numKey + 1
    slots := fun j =>
      ⟨if j ≤ n then (P.slots j).ref else if j = n + 1 then f
        else if (j : ℤ) ≤ P.numKey + 1 then (P.slots (j - 1)).ref else (P.slots j).ref,
        if j < n then (P.slots j).key else if j = n then k
        else if (j : ℤ) ≤ P.numKey then (P.slots (j - 1)).key else (P.slots j).key⟩ }

/-- The upper part of the child's vector moves to the new node. -/
theorem splitRight_spec {s : Tree} {ndx : Index} {prev f : ℤ} {C : View} {name : String} (t : ℕ) (ht : 1 ≤ t)
    (ht' : 2 * t ≤ ndx.order) (hC : Open s ndx prev C) (hN : Open s ndx f (View.new C.isLeaf name))
    (hne : prev ≠ f) (hk : ∀ i, t ≤ i → i < 2 * t - 1 → (C.slots i).key.length = ndx.keySize) :
    ∃ s1 s2 s3, setNumKey f ((t : ℤ) - 1) s = .ok () s1 ∧
      forUp (fun i => do putElement f i (← getElement prev (t + i))) 0 ((t : ℤ) - 1).toNat s1 = .ok () s2 ∧
      (unless C.isLeaf do
        forUp (fun i => do putChildOffset f i (← getChildOffset prev (t + i))) 0 (t : ℤ).toNat) s2 = .ok () s3 ∧
      Wrote s f { C.splitRight t name invalidSiblingRef with next := invalidSiblingRef } s3 := by
  obtain ⟨s1, h1, w1⟩ := setNumKey_spec hN.view ((t : ℤ) - 1)
  have hN1 := w1.open_self hN rfl
  have hC1 := w1.open_ne hC hne
  have htn : ((t : ℤ) - 1).toNat = t - 1 := by omega
  obtain ⟨s2, h2, w2⟩ := copyElements hC1 hN1 hne rfl 0 t (t - 1) (by omega) (by omega) fun i hi hi' =>
    hk i hi (by omega)
  simp only [Nat.cast_zero, zero_add] at h2 w2
  cases hleaf : C.isLeaf with
  | true =>
    refine ⟨s1, s2, s2, h1, by rwa [htn], rfl, ?_⟩
    have w := w1.trans w2
    convert w using 1
    simp only [View.splitRight, View.new, View.vec, hleaf]
    congr 1
    funext j
    by_cases hj : j < t - 1
    · rw [slotsBetween_of_mem (Nat.zero_le j) hj]
      simp [hj, Slot.move]
    · rw [slotsBetween_of_ge (by omega)]
      simp [hj]
  | false =>
    have hN2 := w2.open_self hN1 rfl
    have hC2 := w2.open_ne hC1 hne
    obtain ⟨s3, h3, w3⟩ := copyChildren hC2 hN2 hne 0 t t (by omega) (by omega)
    simp only [Nat.cast_zero, zero_add] at h3 w3
    refine ⟨s1, s2, s3, h1, by rwa [htn], h3, ?_⟩
    have w := (w1.trans w2).trans w3
    convert w using 1
    simp only [View.splitRight, View.new, View.vec, hleaf]
    congr 1
    funext j
    by_cases hj : j < t
    · rw [slotsBetween_of_mem (Nat.zero_le j) hj]
      by_cases hj' : j < t - 1
      · rw [slotsBetween_of_mem (Nat.zero_le j) hj']
        simp [hj, hj', Slot.move]
      · rw [slotsBetween_of_ge (by omega)]
        simp [hj, hj']
    · rw [slotsBetween_of_ge (by omega), slotsBetween_of_ge (by omega)]
      simp [hj, show ¬j < t - 1 by omega]

/-- The parent takes in a child-offset and an element. -/
theorem splitParent_spec {s : Tree} {ndx : Index} {off prev f : ℤ} {P C : View} (t n m : ℕ) (ht : 1 ≤ t)
    (ht' : 2 * t ≤ ndx.order) (hP : Open s ndx off P) (hC : Open s ndx prev C) (hne : prev ≠ off)
    (hleaf : P.isLeaf = false) (hm : P.numKey = m) (hm' : m < ndx.order) (hn : n ≤ m)
    (hkP : ∀ i, i < m → (P.slots i).key.length = ndx.keySize) (hkC : (C.slots (t - 1)).key.length = ndx.keySize) :
    ∃ s1 s2 s3 s4 s5,
      forDown (fun i => do putChildOffset off (i + 1) (← getChildOffset off i)) (m : ℤ) ((m : ℤ) - n).toNat s =
        .ok () s1 ∧
      putChildOffset off ((n : ℤ) + 1) f s1 = .ok () s2 ∧
      forDown (fun i => do putElement off (i + 1) (← getElement off i)) ((m : ℤ) - 1) ((m : ℤ) - n).toNat s2 =
        .ok () s3 ∧
      (do putElement off n (← getElement prev ((t : ℤ) - 1)) : M Unit) s3 = .ok () s4 ∧
      incNumKey off 1 s4 = .ok () s5 ∧ Wrote s off (P.splitParent n (C.slots (t - 1)).key f) s5 := by
  have hcount : ((m : ℤ) - n).toNat = m - n := by omega
  obtain ⟨s1, h1, w1⟩ := shiftChildrenUp hP (n + 1) (m - n) (by omega)
  obtain ⟨s2, h2, w2⟩ := putChildOffset_spec (w1.open_self hP rfl) (i := n + 1) (by omega) f
  have w12 : Wrote s off (P.vec fun j => ⟨if j ≤ n then (P.slots j).ref else if j = n + 1 then f
      else if j ≤ m + 1 then (P.slots (j - 1)).ref else (P.slots j).ref, (P.slots j).key⟩) s2 := by
    convert w1.trans w2 using 1
    refine P.vec_congr fun j => ?_
    rw [View.vec_slots]
    by_cases hj : j = n + 1
    · subst hj
      rw [Function.update_self, slotsBetween_of_lt (Nat.lt_succ_self _)]
      simp
    · rw [Function.update_of_ne hj]
      by_cases hj' : j ≤ n
      · rw [slotsBetween_of_lt (by omega)]
        simp [hj']
      · by_cases hj'' : j ≤ m + 1
        · rw [slotsBetween_of_mem (by omega) (by omega)]
          simp [hj, hj', hj'']
        · rw [slotsBetween_of_ge (by omega)]
          simp [hj, hj', hj'']
  have hP2 := w12.open_self hP rfl
  obtain ⟨s3, h3, w3⟩ := shiftElementsUp hP2 n (m - n) (by omega) fun i _ hi => hkP i (by omega)
  have hP3 := w3.open_self hP2 rfl
  have hC3 := (w12.trans w3).open_ne hC hne
  obtain ⟨s4, h4, w4⟩ := putElement_spec hP3 (i := n) (by omega)
    ((C.slots (t - 1)).element C.isLeaf C.ndxName ndx.keySize) (Slot.length_element_key _ _ _ _).le
  have w14 : Wrote s off (P.vec fun j => ⟨if j ≤ n then (P.slots j).ref else if j = n + 1 then f
      else if j ≤ m + 1 then (P.slots (j - 1)).ref else (P.slots j).ref,
      if j < n then (P.slots j).key else if j = n then (C.slots (t - 1)).key
      else if j ≤ m then (P.slots (j - 1)).key else (P.slots j).key⟩) s4 := by
    convert (w12.trans w3).trans w4 using 1
    refine P.vec_congr fun j => ?_
    simp only [View.vec_slots, View.vec_isLeaf, hleaf]
    by_cases hj : j = n
    · subst hj
      rw [Function.update_self, slotsBetween_of_lt (Nat.lt_succ_self _), Slot.put_inner hkC]
      simp
    · rw [Function.update_of_ne hj]
      by_cases hj' : j < n
      · rw [slotsBetween_of_lt (by omega)]
        simp [hj']
      · by_cases hj'' : j ≤ m
        · rw [slotsBetween_of_mem (by omega) (by omega)]
          simp [Slot.move, hj, hj', hj'']
        · rw [slotsBetween_of_ge (by omega)]
          simp [hj, hj', hj'']
  obtain ⟨s5, h5, w5⟩ := incNumKey_spec w14.view 1
  refine ⟨s1, s2, s3, s4, s5, ?_, ?_, ?_, ?_, h5, ?_⟩
  · rw [hcount]
    convert h1 using 2
    omega
  · exact_mod_cast h2
  · rw [hcount]
    convert h3 using 2
    omega
  · have ht1 : ((t : ℤ) - 1) = ((t - 1 : ℕ) : ℤ) := by omega
    rw [ht1]
    exact (run_bind (getElement_eq hC3 (by omega))).trans h4
  · convert w14.trans w5 using 1
    simp only [View.splitParent, View.vec, hm]
    congr 1
    funext j
    congr 1
    · simp only [show ((j : ℤ) ≤ (m : ℤ) + 1) = (j ≤ m + 1) by rw [eq_iff_iff]; omega]
    · simp only [show ((j : ℤ) ≤ (m : ℤ)) = (j ≤ m) by rw [eq_iff_iff]; omega]

/-- `split_child` at child `n`, when the child and the parent are what the assumptions say. The child's next
sibling is there or is read when the new block has been handed out. -/
theorem splitChild_spec {s : Tree} {ndx : Index} {off prev : ℤ} {P C : View} {fs : List ℤ} {lim : ℤ}
    {n m : ℕ} (hP : Open s ndx off P) (hC : Open s ndx prev C) (hne : prev ≠ off) (hleaf : P.isLeaf = false)
    (hord : 2 ≤ ndx.order) (hm : P.numKey = m) (hm' : m < ndx.order) (hn : n ≤ m)
    (hkP : ∀ i, i < m → (P.slots i).key.length = ndx.keySize)
    (hkC : ∀ i, i < 2 * (ndx.order / 2) - 1 → (C.slots i).key.length = ndx.keySize)
    (hpool : Pool s fs lim) (hout : Outside [off, prev] fs lim)
    (hY : C.next ≠ invalidSiblingRef → Aligned C.next ∧ C.next ≠ prev ∧ C.next ≠ off ∧
      C.next ≠ stream fs lim 0 ∧ C.next ∉ restFree fs ∧
        ∃ Y, ((s.withEnd (stream fs lim 0 + bufferSz)).loaded C.ndxName).view C.next = some Y) :
    ∃ s', splitChild off n prev s = .ok () s' ∧
      Frame (stream fs lim 0 :: prev :: off :: sibling C.next) s s' ∧ Pool s' (restFree fs) (restLim fs lim) ∧
      s'.view (stream fs lim 0) = some (C.splitRight (ndx.order / 2) P.ndxName prev) ∧
      s'.view prev = some (C.splitLeft (ndx.order / 2) (stream fs lim 0)) ∧
      s'.view off = some (P.splitParent n (C.slots (ndx.order / 2 - 1)).key (stream fs lim 0)) ∧
      ∀ Y, C.next ≠ invalidSiblingRef → ((s.withEnd (stream fs lim 0 + bufferSz)).loaded C.ndxName).view C.next = some Y →
        s'.view C.next = some { Y with prev := stream fs lim 0 } := by
  generalize ht : ndx.order / 2 = t at hkC ⊢
  have hf := hout.stream_zero
  have hrest := (hout.cons hpool).notMem
  generalize hfe : stream fs lim 0 = f at hf hrest hY ⊢
  have hfo : f ≠ off := fun e => hf (by simp [e])
  have hfp : f ≠ prev := fun e => hf (by simp [e])
  obtain ⟨nd, hnd, -, hndleaf, -, -⟩ := nodeAt_eq hC.view
  obtain ⟨ndP, hndP, -, -, -, hname⟩ := nodeAt_eq hP.view
  obtain ⟨s1, s2, h1, h2, hv2, hp2, fr2, hend⟩ := alloc_spec hpool C.isLeaf P.ndxName
  rw [hfe] at h1 h2 hv2 fr2 hend
  have hC2 := fr2.open hC (by simpa using hfp.symm)
  have hP2 := fr2.open hP (by simpa using hfo.symm)
  have hN2 : Open s2 ndx f (View.new C.isLeaf P.ndxName) := ⟨hv2, hP2.index, hP.fits⟩
  obtain ⟨s3, s4, s5, h3, h4, h5, w5⟩ := splitRight_spec t (by omega) (by omega) hC2 hN2 hfp.symm
    fun i _ hi => hkC i hi
  have hC5 := w5.open_ne hC2 hfp.symm
  have hP5 := w5.open_ne hP2 hfo.symm
  obtain ⟨s6, h6, w6⟩ := setNumKey_spec hC5.view (if C.isLeaf then (t : ℤ) else (t : ℤ) - 1)
  have hC6 := w6.open_self hC5 rfl
  have hP6 := w6.open_ne hP5 hne.symm
  obtain ⟨ndP6, hndP6, -, -, hnum6, -⟩ := nodeAt_eq hP6.view
  obtain ⟨s7, s8, s9, s10, s11, h7, h8, h9, h10, h11, w11⟩ := splitParent_spec t n m (by omega) (by omega) hP6
    hC6 hne hleaf hm hm' hn hkP (hkC _ (by omega)) (f := f)
  have hC11 := (w11.view_ne hne).trans w6.view
  have hN11 := ((w11.view_ne hfo).trans (w6.view_ne hfp)).trans w5.view
  have fr11 := ((fr2.trans w5.frame).trans w6.frame).trans w11.frame
  have hY11 : C.next ≠ invalidSiblingRef →
      (s11.loaded C.ndxName).view C.next = ((s.withEnd (f + bufferSz)).loaded C.ndxName).view C.next := by
    intro hi
    obtain ⟨-, hyp, hyo, hyf, -⟩ := hY hi
    have hout : C.next ∉ [f] ++ [f] ++ [prev] ++ [off] := by simp [hyp, hyo, hyf]
    exact loaded_view_congr (fr11.node _ hout) (fr11.cache _ hout) (fr11.disk _ hout) (by rw [w11.schema, w6.schema, w5.schema, hend]; rfl)
  obtain ⟨s12, h12, hs12, fr12, hd12, hN12, hC12, hY12⟩ := insertSibling_spec hC11 hN11 hfp.symm fun hi => by
    obtain ⟨ha, hyp, -, hyf, -, Y, hYv⟩ := hY hi
    exact ⟨ha, hyp, hyf, Y, (hY11 hi).trans hYv⟩
  obtain ⟨s13, h13, w13⟩ := flush_spec hC12
  obtain ⟨s14, h14, w14⟩ := flush_spec ((w13.view_ne hfp).trans hN12)
  refine ⟨s14, ?_, ?_, ?_, w14.view, ?_, ?_, ?_⟩
  · rw [splitChild, run_bind (minDegree_eq hP), ht, run_bind hnd, hndleaf, run_bind hndP, hname, run_bind h1,
      run_bind h2, run_bind h3, run_bind h4]
    refine (run_unless h5).trans ?_
    beta_reduce
    rw [run_bind h6, run_bind hndP6, hnum6, hm, run_bind h7, run_bind h8,
      run_bind h9, ← bind_assoc, run_bind h10, run_bind h11, run_bind h12, run_bind h13]
    exact h14
  · refine (((fr11.trans fr12).trans w13.frame).trans w14.frame).mono fun o => ?_
    clear * -
    simp only [List.mem_append, List.mem_cons, List.not_mem_nil, or_false]
    tauto
  · have hmem : ∀ o ∈ [f, off, prev], o ∉ restFree fs := hrest
    have hp11 := ((hp2.wrote w5 (hmem f (by simp))).wrote w6 (hmem prev (by simp))).wrote w11 (hmem off (by simp))
    have hp12 : Pool s12 (restFree fs) (restLim fs lim) := by
      refine hp11.congr (by rw [hs12]) (by rw [hs12]) fun g hg => ⟨fr12.cache g ?_, by rw [hd12]⟩
      have hgf : g ≠ f := fun e => hmem f (by simp) (e ▸ hg)
      have hgp : g ≠ prev := fun e => hmem prev (by simp) (e ▸ hg)
      have hgn : g ∉ sibling C.next := by
        rw [sibling]
        split
        · simp
        · rename_i hi
          simpa using fun e : g = C.next => (hY hi).2.2.2.2.1 (e ▸ hg)
      simp [hgf, hgp, hgn]
    exact (hp12.wrote w13 (hmem prev (by simp))).wrote w14 (hmem f (by simp))
  · rw [w14.view_ne hfp.symm, w13.view]
    rfl
  · rw [w14.view_ne hfo.symm, w13.view_ne hne.symm, fr12.view ?_, w11.view]
    have hon : off ∉ sibling C.next := by
      rw [sibling]
      split
      · simp
      · rename_i hi
        simpa using (hY hi).2.2.1.symm
    simp [hfo.symm, hne.symm, hon]
  · intro Y hi hYv
    obtain ⟨-, hyp, hyo, hyf, -⟩ := hY hi
    rw [w14.view_ne hyf, w13.view_ne hyp]
    exact hY12 Y hi ((hY11 hi).trans hYv)

end RedB
