import RedB.Btree.Node

/-!
# What the members of one node do

A node is the node object and the cached block at its offset. `Tree.view` puts the two
together and leaves out what the tree algorithms do not look at: the dead flag, the
committed header, the flush list. Every member that changes a node changes the view
at one offset, and `Wrote` says so: everything about the other offsets is as before.

For each member there is one theorem that gives its outcome in these terms, and for
each loop over the element vector a closed form of the vector it leaves behind.
-/

namespace RedB

/-! ### Views -/

/-- What a node says: the node object and the part of its block that belongs to it. -/
structure View where
  /-- `m_leaf`. -/
  isLeaf : Bool
  /-- `m_num_key`. -/
  numKey : ℤ
  /-- `m_ndx_name`. -/
  ndxName : String
  /-- The element vector. -/
  slots : ℕ → Slot
  /-- The previous sibling. -/
  prev : ℤ
  /-- The next sibling. -/
  next : ℤ

/-- The view with another element vector. -/
def View.vec (v : View) (f : ℕ → Slot) : View := { v with slots := f }

@[simp] theorem View.vec_slots (v : View) (f : ℕ → Slot) : (v.vec f).slots = f := rfl

@[simp] theorem View.vec_isLeaf (v : View) (f : ℕ → Slot) : (v.vec f).isLeaf = v.isLeaf := rfl

@[simp] theorem View.vec_numKey (v : View) (f : ℕ → Slot) : (v.vec f).numKey = v.numKey := rfl

@[simp] theorem View.vec_ndxName (v : View) (f : ℕ → Slot) : (v.vec f).ndxName = v.ndxName := rfl

@[simp] theorem View.vec_prev (v : View) (f : ℕ → Slot) : (v.vec f).prev = v.prev := rfl

@[simp] theorem View.vec_next (v : View) (f : ℕ → Slot) : (v.vec f).next = v.next := rfl

@[simp] theorem View.vec_vec (v : View) (f g : ℕ → Slot) : (v.vec f).vec g = v.vec g := rfl

theorem View.vec_congr (v : View) {f g : ℕ → Slot} (h : ∀ j, f j = g j) : v.vec f = v.vec g :=
  congrArg v.vec (funext h)

theorem View.vec_eq_self (v : View) {f : ℕ → Slot} (h : ∀ j, f j = v.slots j) : v.vec f = v :=
  v.vec_congr h

/-- The node at an offset. -/
def Tree.view (s : Tree) (o : ℤ) : Option View :=
  match s.node o, s.cache o with
  | some nd, some b => some ⟨nd.isLeaf, nd.numKey, nd.ndxName, b.slots, b.prev, b.next⟩
  | _, _ => none

theorem Tree.view_eq_some {s : Tree} {o : ℤ} {v : View} : s.view o = some v ↔
    ∃ nd b, s.node o = some nd ∧ s.cache o = some b ∧
      ⟨nd.isLeaf, nd.numKey, nd.ndxName, b.slots, b.prev, b.next⟩ = v := by
  rw [Tree.view]
  split
  · rename_i nd b hn hb
    simp [hn, hb]
  · rename_i h
    constructor
    · intro h'
      simp at h'
    · rintro ⟨nd, b, hn, hb, -⟩
      exact absurd hb (h nd b hn)

/-- `s'` is `s` with the node at `o` changed to `v`. -/
structure Wrote (s : Tree) (o : ℤ) (v : View) (s' : Tree) : Prop where
  /-- The schema is as before. -/
  schema : s'.schema = s.schema
  /-- The node. -/
  view : s'.view o = some v
  /-- The other node objects are as before. -/
  node : ∀ o', o' ≠ o → s'.node o' = s.node o'
  /-- The other blocks are as before. -/
  cache : ∀ o', o' ≠ o → s'.cache o' = s.cache o'
  /-- The file is as before. -/
  disk : s'.disk = s.disk
  /-- The data objects are as before. -/
  data : s'.data = s.data

theorem Wrote.refl {s : Tree} {o : ℤ} {v : View} (h : s.view o = some v) : Wrote s o v s :=
  ⟨rfl, h, fun _ _ => rfl, fun _ _ => rfl, rfl, rfl⟩

theorem Wrote.trans {s s1 s2 : Tree} {o : ℤ} {v v' : View} (h : Wrote s o v s1) (h' : Wrote s1 o v' s2) :
    Wrote s o v' s2 where
  schema := h'.schema.trans h.schema
  view := h'.view
  node o' ho := (h'.node o' ho).trans (h.node o' ho)
  cache o' ho := (h'.cache o' ho).trans (h.cache o' ho)
  disk := h'.disk.trans h.disk
  data := h'.data.trans h.data

/-- The nodes at other offsets are as before. -/
theorem Wrote.view_ne {s s' : Tree} {o o' : ℤ} {v : View} (h : Wrote s o v s') (ho : o' ≠ o) :
    s'.view o' = s.view o' := by
  rw [Tree.view, Tree.view, h.node o' ho, h.cache o' ho]

/-- The order of an index does not exceed what fits in a block. -/
def Index.Fits (ndx : Index) : Prop := ndx.order * (8 + ndx.keySize) ≤ 32736

instance : DecidablePred Index.Fits := fun ndx => inferInstanceAs (Decidable (ndx.order * (8 + ndx.keySize) ≤ 32736))

/-- The order that `bcalc` computes fits. -/
theorem Index.fits_of_order {ndx : Index} (h : ndx.order = (Bcalc.mk ndx.keySize).order) : ndx.Fits := by
  rw [Index.Fits, h]
  exact Bcalc.order_mul_le ⟨ndx.keySize⟩

/-- What the members of a node assume: the node is there, its index is there, and as many
elements as the index's order fit in a block. -/
structure Open (s : Tree) (ndx : Index) (o : ℤ) (v : View) : Prop where
  /-- The node. -/
  view : s.view o = some v
  /-- Its index. -/
  index : s.schema.getIndex v.ndxName = some ndx
  /-- The elements fit. -/
  fits : ndx.Fits

theorem Wrote.open_self {s s' : Tree} {ndx : Index} {o : ℤ} {v v' : View} (h : Wrote s o v' s')
    (ho : Open s ndx o v) (hn : v'.ndxName = v.ndxName) : Open s' ndx o v' :=
  ⟨h.view, by rw [h.schema, hn]; exact ho.index, ho.fits⟩

theorem Wrote.open_ne {s s' : Tree} {ndx : Index} {o o' : ℤ} {v v' : View} (h : Wrote s o v s')
    (ho : Open s ndx o' v') (hne : o' ≠ o) : Open s' ndx o' v' :=
  ⟨(h.view_ne hne).trans ho.view, by rw [h.schema]; exact ho.index, ho.fits⟩

/-- Element `i` fits in the block. -/
theorem Index.Fits.element {ndx : Index} (h : ndx.Fits) {i : ℕ} (hi : i < ndx.order) :
    ¬((i : ℤ) < 0 ∨ vectorPos ndx i + childOffsetSz + ndx.keySize > bufferSz) := by
  have h1 : (i + 1) * (8 + ndx.keySize) ≤ 32736 := (Nat.mul_le_mul_right _ hi).trans h
  have h2 : ((i : ℤ) + 1) * (8 + ndx.keySize) ≤ 32736 := by exact_mod_cast h1
  rw [vectorPos, elementVectorPos, nodeHdrSz, childOffsetSz, bufferSz]
  have h3 : ((i : ℤ) + 1) * (8 + ndx.keySize) = i * (8 + ndx.keySize) + (8 + ndx.keySize) := by ring
  omega

/-- Child offset `i` fits in the block. -/
theorem Index.Fits.child {ndx : Index} (h : ndx.Fits) {i : ℕ} (hi : i ≤ ndx.order) :
    ¬((i : ℤ) < 0 ∨ vectorPos ndx i + childOffsetSz > bufferSz) := by
  have h1 : i * (8 + ndx.keySize) ≤ 32736 := (Nat.mul_le_mul_right _ hi).trans h
  have h2 : (i : ℤ) * (8 + ndx.keySize) ≤ 32736 := by exact_mod_cast h1
  rw [vectorPos, elementVectorPos, nodeHdrSz, childOffsetSz, bufferSz]
  omega

/-! ### Reading a node -/

section Reading

variable {s : Tree} {ndx : Index} {o : ℤ} {v : View}

theorem getIndex_eq {name : String} (h : s.schema.getIndex name = some ndx) :
    getIndex name s = .ok ndx s := by
  rw [getIndex, run_bind (run_get s), h]
  rfl

theorem nodeAt_eq (h : s.view o = some v) : ∃ nd, nodeAt o s = .ok nd s ∧ s.node o = some nd ∧
    nd.isLeaf = v.isLeaf ∧ nd.numKey = v.numKey ∧ nd.ndxName = v.ndxName := by
  obtain ⟨nd, b, hn, -, rfl⟩ := Tree.view_eq_some.mp h
  refine ⟨nd, ?_, hn, rfl, rfl, rfl⟩
  rw [nodeAt, run_bind (run_get s), hn]
  rfl

theorem buffer_of_cache {b : Block} (h : s.cache o = some b) : buffer o s = .ok b s := by
  rw [buffer, run_bind (run_get s), h]
  rfl

theorem buffer_eq (h : s.view o = some v) : ∃ b, buffer o s = .ok b s ∧ s.cache o = some b ∧
    b.slots = v.slots ∧ b.prev = v.prev ∧ b.next = v.next := by
  obtain ⟨nd, b, -, hb, rfl⟩ := Tree.view_eq_some.mp h
  exact ⟨b, buffer_of_cache hb, hb, rfl, rfl, rfl⟩

theorem indexOf_eq (h : Open s ndx o v) : indexOf o s = .ok ndx s := by
  obtain ⟨nd, hnd, -, -, -, hname⟩ := nodeAt_eq h.view
  rw [indexOf, run_bind hnd, hname]
  exact getIndex_eq h.index

theorem minDegree_eq (h : Open s ndx o v) : minDegree o s = .ok ((ndx.order / 2 : ℕ) : ℤ) s := by
  rw [minDegree, run_bind (indexOf_eq h), run_pure]
  rfl

theorem getChildOffset_eq (h : Open s ndx o v) {i : ℕ} (hi : i ≤ ndx.order) :
    getChildOffset o i s = .ok (v.slots i).ref s := by
  obtain ⟨b, hb, -, hslots, -, -⟩ := buffer_eq h.view
  rw [getChildOffset, run_bind (indexOf_eq h), run_bind hb, if_neg (h.fits.child hi), ← hslots]
  rfl

theorem getElement_eq (h : Open s ndx o v) {i : ℕ} (hi : i < ndx.order) :
    getElement o i s = .ok ((v.slots i).element v.isLeaf v.ndxName ndx.keySize) s := by
  obtain ⟨nd, hnd, -, hleaf, -, hname⟩ := nodeAt_eq h.view
  obtain ⟨b, hb, -, hslots, -, -⟩ := buffer_eq h.view
  rw [getElement, run_bind hnd, run_bind (indexOf_eq h), run_bind hb, if_neg (h.fits.element hi), ← hslots,
    ← hleaf, ← hname]
  rfl

theorem isFull_eq (h : Open s ndx o v) : isFull o s = .ok (decide (v.numKey ≥ (ndx.order : ℤ) - 1)) s := by
  obtain ⟨nd, hnd, -, -, hnum, -⟩ := nodeAt_eq h.view
  rw [isFull, run_bind hnd, run_bind (indexOf_eq h), run_pure, hnum]

theorem getNextSiblingOffset_eq (h : s.view o = some v) : getNextSiblingOffset o s = .ok v.next s := by
  obtain ⟨b, hb, -, -, -, hnext⟩ := buffer_eq h
  rw [getNextSiblingOffset, run_bind hb, run_pure, hnext]

/-- A node that is there is not loaded. -/
theorem getNode_eq (ha : Aligned o) (h : s.view o = some v) (name : String) :
    getNode name o s = .ok (some o) s := by
  obtain ⟨nd, b, hn, -, -⟩ := Tree.view_eq_some.mp h
  rw [getNode, if_neg ha.not_bad, run_bind (run_get s), hn]
  rfl

theorem childAt_eq (h : Open s ndx o v) {i : ℕ} (hi : i ≤ ndx.order) {c : ℤ} (hc : (v.slots i).ref = c)
    (ha : Aligned c) {w : View} (hw : s.view c = some w) : childAt o i s = .ok c s := by
  obtain ⟨nd, hnd, -⟩ := nodeAt_eq h.view
  rw [childAt, run_bind hnd, run_bind (getChildOffset_eq h hi), hc, run_bind (getNode_eq ha hw _)]
  rfl

end Reading

/-! ### Changing a node -/

section Changing

variable {s : Tree} {ndx : Index} {o : ℤ} {v : View}

/-- A change of the block shows in the view. -/
theorem setBuffer_spec {nd : Node} (hn : s.node o = some nd) (b : Block) : ∃ s', setBuffer o b s = .ok () s' ∧
    Wrote s o ⟨nd.isLeaf, nd.numKey, nd.ndxName, b.slots, b.prev, b.next⟩ s' := by
  refine ⟨{ s with cache := Function.update s.cache o (some b) }, rfl, rfl, ?_, fun _ _ => rfl, fun o' ho => ?_,
    rfl, rfl⟩
  · simp [Tree.view, hn]
  · exact Function.update_of_ne ho _ _

/-- A change of the node object shows in the view. -/
theorem setNode_spec (h : s.view o = some v) (nd : Node) : ∃ s', setNode o nd s = .ok () s' ∧
    Wrote s o ⟨nd.isLeaf, nd.numKey, nd.ndxName, v.slots, v.prev, v.next⟩ s' := by
  obtain ⟨b, -, hb, hslots, hprev, hnext⟩ := buffer_eq h
  refine ⟨{ s with node := Function.update s.node o (some nd) }, rfl, rfl, ?_, fun o' ho => ?_, fun _ _ => rfl,
    rfl, rfl⟩
  · simp [Tree.view, hb, hslots, hprev, hnext]
  · exact Function.update_of_ne ho _ _

theorem flushBlock_spec (h : s.view o = some v) : ∃ s', flushBlock o s = .ok () s' ∧ Wrote s o v s' := by
  refine ⟨if o ∈ s.flushList then s else { s with flushList := s.flushList ++ [o] }, rfl, ?_⟩
  split
  · exact Wrote.refl h
  · exact ⟨rfl, h, fun _ _ => rfl, fun _ _ => rfl, rfl, rfl⟩

theorem commit_spec (h : s.view o = some v) : ∃ s', commit o s = .ok () s' ∧ Wrote s o v s' := by
  obtain ⟨nd, hnd, hn, hleaf, hnum, hname⟩ := nodeAt_eq h
  obtain ⟨b, hb, -, hslots, hprev, hnext⟩ := buffer_eq h
  obtain ⟨s1, h1, w1⟩ := setBuffer_spec hn { b with head := .node nd.isLeaf nd.numKey }
  refine ⟨s1, ?_, ?_⟩
  · rw [commit, run_bind hnd, run_bind hb]
    exact h1
  · rwa [hleaf, hnum, hname, hslots, hprev, hnext] at w1

/-- Flushing a node does not change what it says. -/
theorem flush_spec (h : s.view o = some v) : ∃ s', flush o s = .ok () s' ∧ Wrote s o v s' := by
  obtain ⟨s1, h1, w1⟩ := commit_spec h
  obtain ⟨s2, h2, w2⟩ := flushBlock_spec w1.view
  refine ⟨s2, ?_, w1.trans w2⟩
  rw [flush, run_bind h1]
  exact h2

theorem setNumKey_spec (h : s.view o = some v) (n : ℤ) : ∃ s', setNumKey o n s = .ok () s' ∧
    Wrote s o { v with numKey := n } s' := by
  obtain ⟨nd, hnd, hn, hleaf, hnum, hname⟩ := nodeAt_eq h
  obtain ⟨s1, h1, w1⟩ := setNode_spec h { nd with numKey := n }
  rw [hleaf, hname] at w1
  obtain ⟨s2, h2, w2⟩ := flush_spec w1.view
  refine ⟨s2, ?_, w1.trans w2⟩
  rw [setNumKey, run_bind hnd, run_bind h1]
  exact h2

theorem incNumKey_spec (h : s.view o = some v) (n : ℤ) : ∃ s', incNumKey o n s = .ok () s' ∧
    Wrote s o { v with numKey := v.numKey + n } s' := by
  obtain ⟨nd, hnd, -, -, hnum, -⟩ := nodeAt_eq h
  rw [incNumKey, run_bind hnd, hnum]
  exact setNumKey_spec h _

theorem decNumKey_spec (h : s.view o = some v) (n : ℤ) : ∃ s', decNumKey o n s = .ok () s' ∧
    Wrote s o { v with numKey := v.numKey - n } s' := by
  obtain ⟨nd, hnd, -, -, hnum, -⟩ := nodeAt_eq h
  rw [decNumKey, run_bind hnd, hnum]
  exact setNumKey_spec h _

theorem setPrevSiblingOffset_spec (h : s.view o = some v) (p : ℤ) :
    ∃ s', setPrevSiblingOffset o p s = .ok () s' ∧ Wrote s o { v with prev := p } s' := by
  obtain ⟨nd, -, hn, hleaf, hnum, hname⟩ := nodeAt_eq h
  obtain ⟨b, hb, -, hslots, -, hnext⟩ := buffer_eq h
  obtain ⟨s1, h1, w1⟩ := setBuffer_spec hn { b with prev := p }
  refine ⟨s1, ?_, ?_⟩
  · rw [setPrevSiblingOffset, run_bind hb]
    exact h1
  · rwa [hleaf, hnum, hname, hslots, hnext] at w1

theorem setNextSiblingOffset_spec (h : s.view o = some v) (p : ℤ) :
    ∃ s', setNextSiblingOffset o p s = .ok () s' ∧ Wrote s o { v with next := p } s' := by
  obtain ⟨nd, -, hn, hleaf, hnum, hname⟩ := nodeAt_eq h
  obtain ⟨b, hb, -, hslots, hprev, -⟩ := buffer_eq h
  obtain ⟨s1, h1, w1⟩ := setBuffer_spec hn { b with next := p }
  refine ⟨s1, ?_, ?_⟩
  · rw [setNextSiblingOffset, run_bind hb]
    exact h1
  · rwa [hleaf, hnum, hname, hslots, hprev] at w1

theorem putChildOffset_spec (h : Open s ndx o v) {i : ℕ} (hi : i ≤ ndx.order) (c : ℤ) :
    ∃ s', putChildOffset o i c s = .ok () s' ∧
      Wrote s o (v.vec (Function.update v.slots i { v.slots i with ref := c })) s' := by
  obtain ⟨nd, -, hn, hleaf, hnum, hname⟩ := nodeAt_eq h.view
  obtain ⟨b, hb, -, hslots, hprev, hnext⟩ := buffer_eq h.view
  obtain ⟨s1, h1, w1⟩ := setBuffer_spec hn
    { b with slots := Function.update b.slots i { b.slots i with ref := c } }
  rw [hleaf, hnum, hname, hprev, hnext] at w1
  obtain ⟨s2, h2, w2⟩ := flush_spec w1.view
  refine ⟨s2, ?_, ?_⟩
  · rw [putChildOffset, run_bind (indexOf_eq h), run_bind hb, if_neg (h.fits.child hi)]
    exact (run_bind h1).trans h2
  · rw [← hslots]
    exact w1.trans w2

theorem putElement_spec (h : Open s ndx o v) {i : ℕ} (hi : i < ndx.order) (e : Element)
    (he : e.key.length ≤ ndx.keySize) : ∃ s', putElement o i e s = .ok () s' ∧
      Wrote s o (v.vec (Function.update v.slots i ((v.slots i).put v.isLeaf ndx.keySize e))) s' := by
  obtain ⟨nd, hnd, hn, hleaf, hnum, hname⟩ := nodeAt_eq h.view
  obtain ⟨b, hb, -, hslots, hprev, hnext⟩ := buffer_eq h.view
  obtain ⟨s1, h1, w1⟩ := setBuffer_spec hn
    { b with slots := Function.update b.slots i ((b.slots i).put nd.isLeaf ndx.keySize e) }
  obtain ⟨s2, h2, w2⟩ := flush_spec w1.view
  rw [hleaf, hnum, hname, hprev, hnext] at w1 w2
  refine ⟨s2, ?_, ?_⟩
  · rw [putElement, run_bind hnd, run_bind (indexOf_eq h), run_bind hb, if_neg (h.fits.element hi)]
    dsimp only
    rw [if_neg (Nat.not_lt.mpr he)]
    exact (run_bind h1).trans h2
  · rw [← hslots]
    exact w1.trans w2

end Changing

end RedB
