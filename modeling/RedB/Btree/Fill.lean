import RedB.Btree.Split

/-!
# Borrowing and merging

`node::fill` brings a child of too few keys up to the minimum degree: it lets the child
borrow from a neighbour (`borrowFromPrev_spec`, `borrowFromNext_spec`) or merges it with one
(`merge_spec`). What the three nodes say afterwards is given here slot by slot. Two things
are as the source has them and not as one expects. What comes down to the child is the
parent's element, so that a leaf receives an element without a row location; and `merge`
moves the child-offsets of the parent only up to the last but one (`View.dropChild`).
-/

namespace RedB

/-! ### What the nodes say -/

/-- What a child says after key `k`, and child-offset `r` if it is an inner node, have come
in at its front. -/
def View.gainFirst (C : View) (k : Key) (r : ℤ) : View :=
  { C with
    numKey := C.numKey + 1
    slots := fun j =>
      ⟨if j = 0 then (if C.isLeaf then 0 else r)
        else if (j : ℤ) ≤ (if C.isLeaf then C.numKey else C.numKey + 2) then (C.slots (j - 1)).ref
        else (C.slots j).ref,
        if j = 0 then k else if (j : ℤ) ≤ C.numKey then (C.slots (j - 1)).key else (C.slots j).key⟩ }

/-- What a child says after key `k`, and child-offset `r` if it is an inner node, have come
in at its end. -/
def View.gainLast (C : View) (k : Key) (r : ℤ) : View :=
  { C with
    numKey := C.numKey + 1
    slots := fun j =>
      ⟨if C.isLeaf then (if (j : ℤ) = C.numKey then 0 else (C.slots j).ref)
        else if (j : ℤ) = C.numKey + 1 then r else (C.slots j).ref,
        if (j : ℤ) = C.numKey then k else (C.slots j).key⟩ }

/-- What a neighbour says after it has given away its last element. -/
def View.loseLast (S : View) : View := { S with numKey := S.numKey - 1 }

/-- What a neighbour says after it has given away its first element. -/
def View.loseFirst (S : View) : View :=
  { S with
    numKey := S.numKey - 1
    slots := fun j =>
      ⟨if (j : ℤ) < (if S.isLeaf then S.numKey - 1 else S.numKey) then (S.slots (j + 1)).ref else (S.slots j).ref,
        if (j : ℤ) < S.numKey - 1 then (S.slots (j + 1)).key else (S.slots j).key⟩ }

/-- What a child says after key `k` and all of its neighbour `S` have come in behind its
first `t - 1` keys. -/
def View.absorb (C : View) (t : ℕ) (k : Key) (S : View) : View :=
  { C with
    numKey := C.numKey + (S.numKey + 1)
    next := S.next
    slots := fun j =>
      ⟨if t ≤ j ∧ (j : ℤ) < t + (if C.isLeaf then S.numKey else S.numKey + 1) then (S.slots (j - t)).ref
        else if j = t - 1 ∧ C.isLeaf then 0 else (C.slots j).ref,
        if t ≤ j ∧ (j : ℤ) < t + S.numKey then (S.slots (j - t)).key
        else if j = t - 1 then k else (C.slots j).key⟩ }

/-- What a parent says after key `i` has been replaced. -/
def View.setKey (P : View) (i : ℕ) (k : Key) : View :=
  P.vec (Function.update P.slots i ⟨(P.slots i).ref, k⟩)

/-- What a parent says after its children `n` and `n + 1` have been merged. -/
def View.dropChild (P : View) (n : ℕ) : View :=
  { P with
    numKey := P.numKey - 1
    slots := fun j =>
      ⟨if n + 1 ≤ j ∧ (j : ℤ) < P.numKey - 1 then (P.slots (j + 1)).ref else (P.slots j).ref,
        if n ≤ j ∧ (j : ℤ) < P.numKey - 1 then (P.slots (j + 1)).key else (P.slots j).key⟩ }

/-- What an element of an inner node leaves in a slot: a leaf loses its row location. -/
theorem Slot.put_separator {dst src : Slot} {k : ℕ} (h : src.key.length = k) (leaf : Bool) (name : String) :
    dst.put leaf k (src.element false name k) = ⟨if leaf then 0 else dst.ref, src.key⟩ := by
  simp [Slot.put, Slot.element, readKey_of_length h, writeKey_of_length h]

theorem Slot.eq_of {a b : Slot} (h : a.ref = b.ref) (h' : a.key = b.key) : a = b := by
  cases a
  cases b
  cases h
  cases h'
  rfl

/-- Two neighbours below their parent: children `p` and `p + 1`, at `x` and `y`. -/
structure Neighbours (s : Tree) (ndx : Index) (off x y : ℤ) (p : ℕ) (P X Y : View) : Prop where
  /-- The parent. -/
  parent : Open s ndx off P
  /-- The left child. -/
  left : Open s ndx x X
  /-- The right child. -/
  right : Open s ndx y Y
  /-- The parent is an inner node. -/
  inner : P.isLeaf = false
  /-- The children are both leaves or both inner nodes. -/
  same : X.isLeaf = Y.isLeaf
  /-- The parent refers to the left child. -/
  refLeft : (P.slots p).ref = x
  /-- The parent refers to the right child. -/
  refRight : (P.slots (p + 1)).ref = y
  /-- The left child is at a block offset. -/
  alignedLeft : Aligned x
  /-- The right child is at a block offset. -/
  alignedRight : Aligned y
  /-- The left child is not the parent. -/
  left_ne : x ≠ off
  /-- The right child is not the parent. -/
  right_ne : y ≠ off
  /-- The children are two nodes. -/
  ne : x ≠ y
  /-- The separator between them is in the vector. -/
  pos : p < ndx.order
  /-- It has the key size. -/
  size : (P.slots p).key.length = ndx.keySize

section Moves

variable {s : Tree} {ndx : Index} {off child sib x y : ℤ} {P C S X Y : View} {c m p K : ℕ}

theorem Neighbours.childLeft (h : Neighbours s ndx off x y p P X Y) : childAt off p s = .ok x s :=
  childAt_eq h.parent h.pos.le h.refLeft h.alignedLeft h.left.view

theorem Neighbours.childRight (h : Neighbours s ndx off x y p P X Y) : childAt off ((p : ℤ) + 1) s = .ok y s := by
  exact_mod_cast childAt_eq h.parent (i := p + 1) h.pos h.refRight h.alignedRight h.right.view

/-- The separator comes down to slot `j` of a child. -/
theorem put_separator (hP : Open s ndx off P) (hC : Open s ndx child C) (hleaf : P.isLeaf = false) {i j : ℕ}
    (hi : i < ndx.order) (hj : j < ndx.order) (hk : (P.slots i).key.length = ndx.keySize) :
    ∃ s', (do putElement child j (← getElement off i) : M Unit) s = .ok () s' ∧
      Wrote s child (C.vec (Function.update C.slots j
        ⟨if C.isLeaf then 0 else (C.slots j).ref, (P.slots i).key⟩)) s' := by
  obtain ⟨s1, h1, w1⟩ := putElement_spec hC hj _ (Slot.length_element_key (P.slots i) P.isLeaf P.ndxName _).le
  rw [hleaf, Slot.put_separator hk] at w1
  exact ⟨s1, (run_bind (getElement_eq hP hi)).trans h1, w1⟩

/-- An element of a neighbour goes up and becomes separator `i`. -/
theorem put_key (hP : Open s ndx off P) (hS : Open s ndx sib S) (hleaf : P.isLeaf = false) {i j : ℕ}
    (hi : i < ndx.order) (hj : j < ndx.order) (hk : (S.slots j).key.length = ndx.keySize) :
    ∃ s', (do putElement off i (← getElement sib j) : M Unit) s = .ok () s' ∧
      Wrote s off (P.setKey i (S.slots j).key) s' := by
  obtain ⟨s1, h1, w1⟩ := putElement_spec hP hi _ (Slot.length_element_key (S.slots j) S.isLeaf S.ndxName _).le
  rw [hleaf, Slot.put_inner hk] at w1
  exact ⟨s1, (run_bind (getElement_eq hS hj)).trans h1, w1⟩

/-! ### Borrowing from the node before -/

/-- The elements of a leaf after they have moved up and one has come in. -/
theorem gainFirst_leaf (f : ℕ → Slot) (c : ℕ) (k : Key) (j : ℕ) :
    Function.update (slotsBetween (0 + 1) (0 + 1 + c) (fun j => (f j).move true (f (j - 1))) f) 0 ⟨0, k⟩ j =
      ⟨if j = 0 then 0 else if (j : ℤ) ≤ c then (f (j - 1)).ref else (f j).ref,
        if j = 0 then k else if (j : ℤ) ≤ c then (f (j - 1)).key else (f j).key⟩ := by
  apply Slot.eq_of
  · simp only [slotsBetween, Function.update_apply, apply_ite Slot.ref, Slot.move]
    grind
  · simp only [slotsBetween, Function.update_apply, apply_ite Slot.key, Slot.move]
    grind

/-- The vector of an inner node after its elements and then its child-offsets have moved up
and one of each has come in. -/
theorem gainFirst_inner (f g : ℕ → Slot) (c : ℕ) (k : Key) (r : ℤ) (j : ℕ)
    (hg : g = Function.update (slotsBetween (0 + 1) (0 + 1 + c) (fun j => (f j).move false (f (j - 1))) f) 0
      ⟨(slotsBetween (0 + 1) (0 + 1 + c) (fun j => (f j).move false (f (j - 1))) f 0).ref, k⟩) :
    Function.update (slotsBetween (0 + 1) (0 + 1 + (c + 2)) (fun j => { g j with ref := (g (j - 1)).ref }) g) 0
        { slotsBetween (0 + 1) (0 + 1 + (c + 2)) (fun j => { g j with ref := (g (j - 1)).ref }) g 0 with ref := r } j =
      ⟨if j = 0 then r else if (j : ℤ) ≤ c + 2 then (f (j - 1)).ref else (f j).ref,
        if j = 0 then k else if (j : ℤ) ≤ c then (f (j - 1)).key else (f j).key⟩ := by
  subst hg
  apply Slot.eq_of
  · simp only [slotsBetween, Function.update_apply, apply_ite Slot.ref, Slot.move]
    grind
  · simp only [slotsBetween, Function.update_apply, apply_ite Slot.key, Slot.move]
    grind

/-- The elements of the child move up and the separator comes down in front of them. -/
theorem gainFirst_spec (hP : Open s ndx off P) (hC : Open s ndx child C) (hS : Open s ndx sib S) (hne : child ≠ off)
    (hne' : sib ≠ child) (hleaf : P.isLeaf = false) (hc : C.numKey = c) (hc' : c + 2 ≤ ndx.order) (hm : S.numKey = m)
    (hm' : m ≤ ndx.order) {p : ℕ} (hp : p < ndx.order) (hkP : (P.slots p).key.length = ndx.keySize)
    (hkC : ∀ i, i < c → (C.slots i).key.length = ndx.keySize) :
    ∃ s1 s2 s3 s4 nd,
      forDown (fun i => do putElement child (i + 1) (← getElement child i)) ((c : ℤ) - 1) (c : ℤ).toNat s =
        .ok () s1 ∧
      (do putElement child 0 (← getElement off p) : M Unit) s1 = .ok () s2 ∧ incNumKey child 1 s2 = .ok () s3 ∧
      nodeAt child s3 = .ok nd s3 ∧
      (unless nd.isLeaf do
        let numKey := (← nodeAt child).numKey
        forDown (fun i => do putChildOffset child (i + 1) (← getChildOffset child i)) numKey (numKey + 1).toNat
        putChildOffset child 0 (← getChildOffset sib (← nodeAt sib).numKey)) s3 = .ok () s4 ∧
      Wrote s child (C.gainFirst (P.slots p).key (S.slots m).ref) s4 := by
  obtain ⟨s1, h1, w1⟩ := shiftElementsUp hC 0 c (by omega) fun i _ hi => hkC i (by omega)
  have hC1 := w1.open_self hC rfl
  obtain ⟨s2, h2, w2⟩ := put_separator (w1.open_ne hP hne.symm) hC1 hleaf (j := 0) hp (by omega) hkP
  have hC2 := w2.open_self hC1 rfl
  obtain ⟨s3, h3, w3⟩ := incNumKey_spec hC2.view 1
  have hC3 := w3.open_self hC2 rfl
  have w13 := (w1.trans w2).trans w3
  obtain ⟨nd, hnd, -, hndl, hnum, -⟩ := nodeAt_eq hC3.view
  replace hndl : nd.isLeaf = C.isLeaf := hndl
  have h1' : forDown (fun i => do putElement child (i + 1) (← getElement child i)) ((c : ℤ) - 1) (c : ℤ).toNat s =
      .ok () s1 := by
    rw [Int.toNat_natCast]
    convert h1 using 2
    omega
  cases hl : C.isLeaf with
  | true =>
    refine ⟨s1, s2, s3, s3, nd, h1', h2, h3, hnd, by rw [hndl, hl]; rfl, ?_⟩
    have hv : C.gainFirst (P.slots p).key (S.slots m).ref = { C with
        numKey := C.numKey + 1
        slots := Function.update (slotsBetween (0 + 1) (0 + 1 + c)
          (fun j => (C.slots j).move true (C.slots (j - 1))) C.slots) 0 ⟨0, (P.slots p).key⟩ } := by
      rw [funext (gainFirst_leaf C.slots c _)]
      simp only [View.gainFirst, hl, hc, if_true]
    rw [hv]
    simpa only [View.vec, hl, if_true] using w13
  | false =>
    obtain ⟨s4, h4, w4⟩ := shiftChildrenUp hC3 0 (c + 2) (by omega)
    have hC4 := w4.open_self hC3 rfl
    have hS4 := (w13.trans w4).open_ne hS hne'
    obtain ⟨s5, h5, w5⟩ := putChildOffset_spec hC4 (i := 0) (by omega) (S.slots m).ref
    obtain ⟨ndS, hndS, -, -, hnumS, -⟩ := nodeAt_eq hS4.view
    refine ⟨s1, s2, s3, s5, nd, h1', h2, h3, hnd, ?_, ?_⟩
    · simp only [hndl, hl, Bool.false_eq_true, if_false]
      rw [run_bind hnd, hnum]
      simp only [View.vec_numKey, hc]
      have h4' : forDown (fun i => do putChildOffset child (i + 1) (← getChildOffset child i)) ((c : ℤ) + 1)
          ((c : ℤ) + 1 + 1).toNat s3 = .ok () s4 := by
        rw [show ((c : ℤ) + 1 + 1).toNat = c + 2 by omega]
        convert h4 using 2
        omega
      rw [run_bind h4', run_bind hndS, hnumS, hm, run_bind (getChildOffset_eq hS4 hm')]
      exact_mod_cast h5
    · have w15 := (w13.trans w4).trans w5
      convert w15 using 1
      simp only [View.gainFirst, View.vec, hl, hc, Bool.false_eq_true, if_false]
      congr 1
      exact funext fun j => (gainFirst_inner C.slots _ c (P.slots p).key (S.slots m).ref j rfl).symm

/-- `borrow_from_prev` at child `p + 1`. -/
theorem borrowFromPrev_spec (h : Neighbours s ndx off x y p P X Y) (hX : X.numKey = m) (hm : 1 ≤ m)
    (hm' : m ≤ ndx.order) (hY : Y.numKey = c) (hc : c + 2 ≤ ndx.order)
    (hkX : (X.slots (m - 1)).key.length = ndx.keySize) (hkY : ∀ i, i < c → (Y.slots i).key.length = ndx.keySize) :
    ∃ s', borrowFromPrev off ((p : ℤ) + 1) s = .ok () s' ∧ Frame [off, x, y] s s' ∧
      s'.view off = some (P.setKey p (X.slots (m - 1)).key) ∧ s'.view x = some X.loseLast ∧
      s'.view y = some (Y.gainFirst (P.slots p).key (X.slots m).ref) := by
  obtain ⟨nd, hnd, -, -, hndk, -⟩ := nodeAt_eq h.right.view
  obtain ⟨s1, s2, s3, s4, nd3, h1, h2, h3, hnd3, h4, w4⟩ := gainFirst_spec h.parent h.right h.left h.right_ne h.ne
    h.inner hY hc hX hm' h.pos h.size hkY
  have hX4 := w4.open_ne h.left h.ne
  obtain ⟨ndX, hndX, -, -, hndXk, -⟩ := nodeAt_eq hX4.view
  obtain ⟨s5, h5, w5⟩ := put_key (w4.open_ne h.parent h.right_ne.symm) hX4 h.inner h.pos (j := m - 1) (by omega) hkX
  obtain ⟨s6, h6, w6⟩ := decNumKey_spec ((w5.view_ne h.left_ne).trans hX4.view) 1
  refine ⟨s6, ?_, ?_, ?_, w6.view, ?_⟩
  · have e1 : (p : ℤ) + 1 - 1 = p := by omega
    have e2 : ndX.numKey - 1 = ((m - 1 : ℕ) : ℤ) := by omega
    rw [borrowFromPrev, run_bind h.childRight, e1, run_bind h.childLeft, run_bind hnd, hndk, hY, run_bind h1,
      ← bind_assoc, run_bind h2, run_bind h3, run_bind hnd3]
    have hrest := @run_unless Unit _ _ (fun _ => do
      putElement off p (← getElement x ((← nodeAt x).numKey - 1))
      decNumKey x 1) _ _ h4
    simp only [bind_assoc] at hrest ⊢
    rw [hrest, run_bind hndX, e2, ← bind_assoc, run_bind h5]
    exact h6
  · refine ((w4.frame.trans w5.frame).trans w6.frame).mono fun o => ?_
    simp only [List.mem_append, List.mem_cons, List.not_mem_nil, or_false]
    tauto
  · rw [w6.view_ne h.left_ne.symm, w5.view]
  · rw [w6.view_ne h.ne.symm, w5.view_ne h.right_ne, w4.view]

/-! ### Borrowing from the node behind -/

/-- The separator, and a child-offset if the child is an inner node, come in behind the
elements of the child. -/
theorem gainLast_spec (hP : Open s ndx off P) (hC : Open s ndx child C) (hS : Open s ndx sib S) (hne : sib ≠ child)
    (hleaf : P.isLeaf = false) (hc : C.numKey = c) (hc' : c + 1 ≤ ndx.order) (hp : p < ndx.order)
    (hkP : (P.slots p).key.length = ndx.keySize) :
    ∃ s1 s2 nd, (do putElement child c (← getElement off p) : M Unit) s = .ok () s1 ∧ nodeAt child s1 = .ok nd s1 ∧
      (unless nd.isLeaf do
        putChildOffset child ((← nodeAt child).numKey + 1) (← getChildOffset sib 0)) s1 = .ok () s2 ∧
      Wrote s child { C.gainLast (P.slots p).key (S.slots 0).ref with numKey := C.numKey } s2 := by
  obtain ⟨s1, h1, w1⟩ := put_separator hP hC hleaf (j := c) hp (by omega) hkP
  have hC1 := w1.open_self hC rfl
  obtain ⟨nd, hnd, -, hndl, hnum, -⟩ := nodeAt_eq hC1.view
  replace hndl : nd.isLeaf = C.isLeaf := hndl
  replace hnum : nd.numKey = c := hnum.trans hc
  cases hl : C.isLeaf with
  | true =>
    refine ⟨s1, s1, nd, h1, hnd, by rw [hndl, hl]; rfl, ?_⟩
    convert w1 using 1
    simp only [View.gainLast, View.vec, hl, hc, if_true]
    congr 1
    funext j
    apply Slot.eq_of
    · simp only [Function.update_apply, apply_ite Slot.ref, Nat.cast_inj]
    · simp only [Function.update_apply, apply_ite Slot.key, Nat.cast_inj]
  | false =>
    obtain ⟨s2, h2, w2⟩ := putChildOffset_spec hC1 (i := c + 1) hc' (S.slots 0).ref
    refine ⟨s1, s2, nd, h1, hnd, ?_, ?_⟩
    · simp only [hndl, hl, Bool.false_eq_true, if_false]
      rw [run_bind hnd, hnum]
      exact (run_bind (getChildOffset_eq (w1.open_ne hS hne) (i := 0) (by omega))).trans (by exact_mod_cast h2)
    · convert w1.trans w2 using 1
      simp only [View.gainLast, View.vec, hl, hc, Bool.false_eq_true, if_false]
      congr 1
      funext j
      have hcast : (j : ℤ) = (c : ℤ) + 1 ↔ j = c + 1 := by omega
      apply Slot.eq_of
      · simp only [Function.update_apply, apply_ite Slot.ref, hcast]
        grind
      · simp only [Function.update_apply, apply_ite Slot.key, Nat.cast_inj]
        grind

/-- The elements of the neighbour, and its child-offsets if it is an inner node, move down. -/
theorem loseFirst_spec (hS : Open s ndx sib S) (hm : S.numKey = m) (h1m : 1 ≤ m) (hm' : m ≤ ndx.order)
    (hk : ∀ i, i < m → (S.slots i).key.length = ndx.keySize) :
    ∃ s1 s2 nd,
      forUp (fun i => do putElement sib (i - 1) (← getElement sib i)) 1 ((m : ℤ) - 1).toNat s = .ok () s1 ∧
      nodeAt sib s1 = .ok nd s1 ∧
      (unless nd.isLeaf do
        forUp (fun i => do putChildOffset sib (i - 1) (← getChildOffset sib i)) 1 (m : ℤ).toNat) s1 = .ok () s2 ∧
      Wrote s sib { S.loseFirst with numKey := S.numKey } s2 := by
  have hcount : ((m : ℤ) - 1).toNat = m - 1 := by omega
  obtain ⟨s1, h1, w1⟩ := shiftElementsDown hS 0 (m - 1) (by omega) fun i _ hi => hk i (by omega)
  have hS1 := w1.open_self hS rfl
  obtain ⟨nd, hnd, -, hndl, -, -⟩ := nodeAt_eq hS1.view
  replace hndl : nd.isLeaf = S.isLeaf := hndl
  cases hl : S.isLeaf with
  | true =>
    refine ⟨s1, s1, nd, by rwa [hcount], hnd, by rw [hndl, hl]; rfl, ?_⟩
    convert w1 using 1
    simp only [View.loseFirst, View.vec, hl, hm, if_true]
    congr 1
    funext j
    apply Slot.eq_of
    · simp only [slotsBetween, apply_ite Slot.ref, Slot.move]
      grind
    · simp only [slotsBetween, apply_ite Slot.key, Slot.move]
      grind
  | false =>
    obtain ⟨s2, h2, w2⟩ := shiftChildrenDown hS1 0 m (by omega)
    refine ⟨s1, s2, nd, by rwa [hcount], hnd, ?_, ?_⟩
    · simp only [hndl, hl, Bool.false_eq_true, if_false]
      exact h2
    · convert w1.trans w2 using 1
      simp only [View.loseFirst, View.vec, hl, hm, Bool.false_eq_true, if_false]
      congr 1
      funext j
      apply Slot.eq_of
      · simp only [slotsBetween, apply_ite Slot.ref, Slot.move]
        grind
      · simp only [slotsBetween, apply_ite Slot.key, Slot.move]
        grind

/-- `borrow_from_next` at child `p`. -/
theorem borrowFromNext_spec (h : Neighbours s ndx off x y p P X Y) (hX : X.numKey = c) (hc : c + 1 ≤ ndx.order)
    (hY : Y.numKey = m) (hm : 1 ≤ m) (hm' : m ≤ ndx.order)
    (hkY : ∀ i, i < m → (Y.slots i).key.length = ndx.keySize) :
    ∃ s', borrowFromNext off p s = .ok () s' ∧ Frame [off, x, y] s s' ∧
      s'.view off = some (P.setKey p (Y.slots 0).key) ∧
      s'.view x = some (X.gainLast (P.slots p).key (Y.slots 0).ref) ∧ s'.view y = some Y.loseFirst := by
  obtain ⟨nd, hnd, -, -, hndk, -⟩ := nodeAt_eq h.left.view
  obtain ⟨s1, s2, nd1, h1, hnd1, h2, w2⟩ := gainLast_spec h.parent h.left h.right h.ne.symm h.inner hX hc
    h.pos h.size
  have hY2 := w2.open_ne h.right h.ne.symm
  obtain ⟨s3, h3, w3⟩ := put_key (w2.open_ne h.parent h.left_ne.symm) hY2 h.inner h.pos (j := 0) (by omega)
    (hkY 0 (by omega))
  rw [Nat.cast_zero] at h3
  have hY3 := w3.open_ne hY2 h.right_ne
  obtain ⟨nd3, hnd3, -, -, hndk3, -⟩ := nodeAt_eq hY3.view
  obtain ⟨s4, s5, nd4, h4, hnd4, h5, w5⟩ := loseFirst_spec hY3 hY hm hm' hkY
  obtain ⟨s6, h6, w6⟩ := incNumKey_spec (((w5.view_ne h.ne).trans (w3.view_ne h.left_ne)).trans w2.view) 1
  obtain ⟨s7, h7, w7⟩ := decNumKey_spec ((w6.view_ne h.ne.symm).trans w5.view) 1
  refine ⟨s7, ?_, ?_, ?_, ?_, w7.view⟩
  · rw [borrowFromNext, run_bind h.childLeft, run_bind h.childRight, run_bind hnd, hndk, hX, ← bind_assoc, run_bind h1,
      run_bind hnd1]
    have hrest := @run_unless Unit _ _ (fun _ => do
      putElement off p (← getElement y 0)
      let numKey := (← nodeAt y).numKey
      forUp (fun i => do putElement y (i - 1) (← getElement y i)) 1 (numKey - 1).toNat
      unless (← nodeAt y).isLeaf do
        forUp (fun i => do putChildOffset y (i - 1) (← getChildOffset y i)) 1 numKey.toNat
      incNumKey x 1
      decNumKey y 1) _ _ h2
    simp only [bind_assoc] at hrest ⊢
    rw [hrest, ← bind_assoc, run_bind h3, run_bind hnd3, hndk3, hY, run_bind h4, run_bind hnd4]
    refine (run_unless h5).trans ?_
    rw [run_bind h6]
    exact h7
  · refine (((w2.frame.trans w3.frame).trans w5.frame).trans (w6.frame.trans w7.frame)).mono fun o => ?_
    simp only [List.mem_append, List.mem_cons, List.not_mem_nil, or_false]
    tauto
  · rw [w7.view_ne h.right_ne.symm, w6.view_ne h.left_ne.symm, w5.view_ne h.right_ne.symm, w3.view]
  · rw [w7.view_ne h.ne, w6.view]
    rfl

/-! ### Merging -/

/-- The separators behind separator `p` move down, and the child-offsets behind child `p + 1`
but for the last. -/
theorem dropChild_spec (hP : Open s ndx off P) (hleaf : P.isLeaf = false) (hK : P.numKey = K) (hp : p < K)
    (hK' : K < ndx.order) (hk : ∀ i, i < K → (P.slots i).key.length = ndx.keySize) :
    ∃ s1 s2,
      forUp (fun i => do putElement off (i - 1) (← getElement off i)) ((p : ℤ) + 1) ((K : ℤ) - (p + 1)).toNat s =
        .ok () s1 ∧
      forUp (fun i => do putChildOffset off (i - 1) (← getChildOffset off i)) ((p : ℤ) + 2)
        ((K : ℤ) - (p + 2)).toNat s1 = .ok () s2 ∧
      Wrote s off { P.dropChild p with numKey := P.numKey } s2 := by
  have hc1 : ((K : ℤ) - (p + 1)).toNat = K - (p + 1) := by omega
  have hc2 : ((K : ℤ) - (p + 2)).toNat = K - (p + 2) := by omega
  obtain ⟨s1, h1, w1⟩ := shiftElementsDown hP p (K - (p + 1)) (by omega) fun i _ hi => hk i (by omega)
  obtain ⟨s2, h2, w2⟩ := shiftChildrenDown (w1.open_self hP rfl) (p + 1) (K - (p + 2)) (by omega)
  refine ⟨s1, s2, ?_, ?_, ?_⟩
  · rw [hc1]
    exact_mod_cast h1
  · rw [hc2]
    exact_mod_cast h2
  · convert w1.trans w2 using 1
    simp only [View.dropChild, View.vec, hleaf, hK]
    congr 1
    funext j
    apply Slot.eq_of
    · simp only [slotsBetween, apply_ite Slot.ref, Slot.move]
      grind
    · simp only [slotsBetween, apply_ite Slot.key, Slot.move]
      grind

/-- The elements of the neighbour, and its child-offsets if it is an inner node, come in
behind the separator. -/
theorem absorb_spec {t : ℕ} {k : Key} (ht : 1 ≤ t)
    (hC : Open s ndx child (C.vec (Function.update C.slots (t - 1) ⟨if C.isLeaf then 0 else (C.slots (t - 1)).ref, k⟩)))
    (hS : Open s ndx sib S) (hne : sib ≠ child) (hsame : S.isLeaf = C.isLeaf) (hm : S.numKey = m)
    (hroom : t + m ≤ ndx.order) (hk : ∀ i, i < m → (S.slots i).key.length = ndx.keySize) :
    ∃ s1 s2 nd,
      forUp (fun i => do putElement child (t + i) (← getElement sib i)) 0 (m : ℤ).toNat s = .ok () s1 ∧
      nodeAt child s1 = .ok nd s1 ∧
      (unless nd.isLeaf do
        forUp (fun i => do putChildOffset child (t + i) (← getChildOffset sib i)) 0 ((m : ℤ) + 1).toNat) s1 =
          .ok () s2 ∧
      Wrote s child { C.absorb t k S with numKey := C.numKey, next := C.next } s2 := by
  obtain ⟨s1, h1, w1⟩ := copyElements hS hC hne hsame t 0 m (by omega) (by omega) fun i _ hi => hk i (by omega)
  simp only [Nat.cast_zero, zero_add] at h1 w1
  have hC1 := w1.open_self hC rfl
  obtain ⟨nd, hnd, -, hndl, -, -⟩ := nodeAt_eq hC1.view
  replace hndl : nd.isLeaf = C.isLeaf := hndl
  cases hl : C.isLeaf with
  | true =>
    refine ⟨s1, s1, nd, h1, hnd, by rw [hndl, hl]; rfl, ?_⟩
    convert w1 using 1
    simp only [View.absorb, View.vec, hl, hm, if_true, and_true]
    congr 1
    funext j
    apply Slot.eq_of
    · simp only [slotsBetween, Function.update_apply, apply_ite Slot.ref, Slot.move]
      grind
    · simp only [slotsBetween, Function.update_apply, apply_ite Slot.key, Slot.move]
      grind
  | false =>
    obtain ⟨s2, h2, w2⟩ := copyChildren (w1.open_ne hS hne) hC1 hne t 0 (m + 1) (by omega) (by omega)
    simp only [Nat.cast_zero, zero_add] at h2 w2
    refine ⟨s1, s2, nd, h1, hnd, ?_, ?_⟩
    · simp only [hndl, hl, Bool.false_eq_true, if_false]
      exact h2
    · convert w1.trans w2 using 1
      simp only [View.absorb, View.vec, hl, hm, Bool.false_eq_true, and_false, if_false]
      congr 1
      funext j
      apply Slot.eq_of
      · simp only [slotsBetween, Function.update_apply, apply_ite Slot.ref, Slot.move]
        grind
      · simp only [slotsBetween, Function.update_apply, apply_ite Slot.key, Slot.move]
        grind

/-- `merge` at child `p`. -/
theorem merge_spec (h : Neighbours s ndx off x y p P X Y) {t : ℕ} (ht : ndx.order / 2 = t) (h1t : 1 ≤ t)
    (hK : P.numKey = K) (hp : p < K) (hK' : K < ndx.order) (hY : Y.numKey = m) (hm : m < t)
    (hkP : ∀ i, i < K → (P.slots i).key.length = ndx.keySize)
    (hkY : ∀ i, i < m → (Y.slots i).key.length = ndx.keySize) :
    ∃ s' nd, merge off p s = .ok () s' ∧ Frame [off, x, y] s s' ∧ s'.view off = some (P.dropChild p) ∧
      s'.view x = some (X.absorb t (P.slots p).key Y) ∧ s'.node y = some nd ∧ nd.dead = true := by
  obtain ⟨s1, h1, w1⟩ := put_separator h.parent h.left h.inner (j := t - 1) h.pos (by omega) h.size
  have hP1 := w1.open_ne h.parent h.left_ne.symm
  obtain ⟨nd1, hnd1, -, -, hk1, -⟩ := nodeAt_eq hP1.view
  obtain ⟨s2, s3, h2, h3, w3⟩ := dropChild_spec hP1 h.inner hK hp hK' hkP
  have hX3 := w3.open_ne (w1.open_self h.left rfl) h.left_ne
  have hY3 := w3.open_ne (w1.open_ne h.right h.ne.symm) h.right_ne
  obtain ⟨nd3, hnd3, -, -, hk3, -⟩ := nodeAt_eq hY3.view
  obtain ⟨s4, s5, nd4, h4, hnd4, h5, w5⟩ := absorb_spec h1t hX3 hY3 h.ne.symm h.same.symm hY (by omega) hkY
  have hY5 := w5.open_ne hY3 h.ne.symm
  obtain ⟨nd5, hnd5, -, -, hk5, -⟩ := nodeAt_eq hY5.view
  obtain ⟨s6, h6, w6⟩ := incNumKey_spec w5.view (nd5.numKey + 1)
  obtain ⟨s7, h7, w7⟩ := decNumKey_spec ((w6.view_ne h.left_ne.symm).trans ((w5.view_ne h.left_ne.symm).trans w3.view)) 1
  have hY7 := (w7.view_ne h.right_ne).trans ((w6.view_ne h.ne.symm).trans hY5.view)
  obtain ⟨s8, h8, w8⟩ := setNextSiblingOffset_spec ((w7.view_ne h.left_ne).trans w6.view) Y.next
  have hY8 := (w8.view_ne h.ne.symm).trans hY7
  obtain ⟨nd8, hnd8, -, -, -, -⟩ := nodeAt_eq hY8
  obtain ⟨s9, h9, w9⟩ := setNode_spec hY8 { nd8 with dead := true }
  have hdead : s9.node y = some { nd8 with dead := true } := by
    obtain ⟨-, rfl⟩ := EStateM.Result.ok.inj h9
    exact Function.update_self ..
  refine ⟨s9, _, ?_, ?_, ?_, ?_, hdead, rfl⟩
  · have e1 : (t : ℤ) - 1 = ((t - 1 : ℕ) : ℤ) := by omega
    rw [merge, run_bind h.childLeft, run_bind h.childRight, run_bind (minDegree_eq h.parent), ht, e1, ← bind_assoc,
      run_bind h1, run_bind hnd1, hk1, hK, run_bind h2, run_bind h3, run_bind hnd3, hk3, hY, run_bind h4, run_bind hnd4]
    refine (run_unless h5).trans ?_
    beta_reduce
    rw [run_bind hnd5, run_bind h6, run_bind h7, run_bind (getNextSiblingOffset_eq hY7), run_bind h8, run_bind hnd8]
    exact h9
  · refine ((((w1.frame.trans w3.frame).trans w5.frame).trans (w6.frame.trans w7.frame)).trans
      (w8.frame.trans w9.frame)).mono fun o => ?_
    simp only [List.mem_append, List.mem_cons, List.not_mem_nil, or_false]
    tauto
  · rw [w9.view_ne h.right_ne.symm, w8.view_ne h.left_ne.symm, w7.view]
    rfl
  · rw [w9.view_ne h.ne, w8.view]
    simp only [View.absorb, hk5]

end Moves

/-! ### The dead flag -/

/-- The node at `o` is not flagged dead. -/
def Tree.Alive (s : Tree) (o : ℤ) : Prop := ∀ nd, s.node o = some nd → nd.dead = false

/-- The node at `w` is not flagged dead by `x`. -/
def KeepsAlive {α : Type} (w : ℤ) (x : M α) : Prop := ∀ s a s', x s = .ok a s' → s.Alive w → s'.Alive w

section KeepsAlive

variable {α β : Type} {w : ℤ}

theorem keepsAlive_pure (a : α) : KeepsAlive w (pure a : M α) := by
  intro s b s' h ho
  obtain ⟨-, rfl⟩ := EStateM.Result.ok.inj h
  exact ho

theorem keepsAlive_get : KeepsAlive w (get : M Tree) := by
  intro s b s' h ho
  obtain ⟨-, rfl⟩ := EStateM.Result.ok.inj h
  exact ho

theorem keepsAlive_throw (e : Err) : KeepsAlive w (throw e : M α) := by
  intro s b s' h
  cases h

theorem KeepsAlive.bind {x : M α} {f : α → M β} (hx : KeepsAlive w x) (hf : ∀ a, KeepsAlive w (f a)) :
    KeepsAlive w (x >>= f) := by
  intro s b s' h ho
  obtain ⟨a, s1, h1, h2⟩ := of_run_bind h
  exact hf a s1 b s' h2 (hx s a s1 h1 ho)

theorem KeepsAlive.ite {c : Prop} [Decidable c] {x y : M α} (hx : KeepsAlive w x) (hy : KeepsAlive w y) :
    KeepsAlive w (if c then x else y) := by
  split
  · exact hx
  · exact hy

theorem keepsAlive_forUp {body : ℤ → M Unit} (h : ∀ i, KeepsAlive w (body i)) (a : ℤ) (n : ℕ) :
    KeepsAlive w (forUp body a n) := by
  induction n generalizing a with
  | zero => exact keepsAlive_pure ()
  | succ n ih => exact (h a).bind fun _ => ih (a + 1)

theorem keepsAlive_forDown {body : ℤ → M Unit} (h : ∀ i, KeepsAlive w (body i)) (a : ℤ) (n : ℕ) :
    KeepsAlive w (forDown body a n) := by
  induction n generalizing a with
  | zero => exact keepsAlive_pure ()
  | succ n ih => exact (h a).bind fun _ => ih (a - 1)

/-- What leaves the node objects alone. -/
theorem keepsAlive_modify {f : Tree → Tree} (h : ∀ s, (f s).node = s.node) : KeepsAlive w (modify f : M Unit) := by
  intro s b s' hs ho
  obtain ⟨-, rfl⟩ := EStateM.Result.ok.inj hs
  intro nd hnd
  exact ho nd (by rwa [← h s])

theorem of_nodeAt {o : ℤ} {s s' : Tree} {nd : Node} (h : nodeAt o s = .ok nd s') : s' = s ∧ s.node o = some nd := by
  obtain ⟨s0, s1, h1, h2⟩ := of_run_bind h
  obtain ⟨rfl, rfl⟩ := EStateM.Result.ok.inj h1
  cases hn : s.node o with
  | none =>
    rw [hn] at h2
    cases h2
  | some nd' =>
    rw [hn] at h2
    obtain ⟨rfl, rfl⟩ := EStateM.Result.ok.inj h2
    exact ⟨rfl, rfl⟩

theorem keepsAlive_nodeAt (o : ℤ) : KeepsAlive w (nodeAt o) := by
  refine keepsAlive_get.bind fun s => ?_
  split
  · exact keepsAlive_pure _
  · exact keepsAlive_throw _

theorem keepsAlive_buffer (o : ℤ) : KeepsAlive w (buffer o) := by
  refine keepsAlive_get.bind fun s => ?_
  split
  · exact keepsAlive_pure _
  · exact keepsAlive_throw _

theorem keepsAlive_indexOf (o : ℤ) : KeepsAlive w (indexOf o) := by
  refine (keepsAlive_nodeAt o).bind fun nd => keepsAlive_get.bind fun s => ?_
  split
  · exact keepsAlive_pure _
  · exact keepsAlive_throw _

theorem keepsAlive_setBuffer (o : ℤ) (b : Block) : KeepsAlive w (setBuffer o b) := keepsAlive_modify fun _ => rfl

theorem keepsAlive_flush (o : ℤ) : KeepsAlive w (flush o) := by
  have hcommit : KeepsAlive w (commit o) :=
    (keepsAlive_nodeAt o).bind fun nd => (keepsAlive_buffer o).bind fun b => keepsAlive_setBuffer o _
  refine hcommit.bind fun _ => keepsAlive_modify fun s => ?_
  split
  · rfl
  · rfl

/-- The node object is changed as it was read, but for other fields than the flag. -/
theorem keepsAlive_setNode (o : ℤ) {f : Node → Node} (hf : ∀ nd, (f nd).dead = nd.dead) :
    KeepsAlive w (do setNode o (f (← nodeAt o)) : M Unit) := by
  intro s a s' h ho nd hnd
  obtain ⟨nd0, s1, h1, h2⟩ := of_run_bind h
  obtain ⟨-, rfl⟩ := EStateM.Result.ok.inj h2
  obtain ⟨rfl, hn⟩ := of_nodeAt h1
  by_cases he : w = o
  · subst he
    obtain rfl : f nd0 = nd := by simpa using hnd
    rw [hf]
    exact ho nd0 hn
  · exact ho nd (by simpa [Function.update_of_ne he] using hnd)

theorem keepsAlive_setNumKey (o n : ℤ) : KeepsAlive w (setNumKey o n) := by
  have h := (@keepsAlive_setNode w o (fun nd => { nd with numKey := n }) fun _ => rfl).bind fun _ => keepsAlive_flush o
  rwa [bind_assoc] at h

theorem keepsAlive_incNumKey (o n : ℤ) : KeepsAlive w (incNumKey o n) :=
  (keepsAlive_nodeAt o).bind fun _ => keepsAlive_setNumKey o _

theorem keepsAlive_decNumKey (o n : ℤ) : KeepsAlive w (decNumKey o n) :=
  (keepsAlive_nodeAt o).bind fun _ => keepsAlive_setNumKey o _

theorem keepsAlive_getChildOffset (o n : ℤ) : KeepsAlive w (getChildOffset o n) :=
  (keepsAlive_indexOf o).bind fun _ => (keepsAlive_buffer o).bind fun _ =>
    (keepsAlive_throw _).ite (keepsAlive_pure _)

theorem keepsAlive_getElement (o n : ℤ) : KeepsAlive w (getElement o n) :=
  (keepsAlive_nodeAt o).bind fun _ => (keepsAlive_indexOf o).bind fun _ => (keepsAlive_buffer o).bind fun _ =>
    (keepsAlive_throw _).ite (keepsAlive_pure _)

theorem keepsAlive_putChildOffset (o n c : ℤ) : KeepsAlive w (putChildOffset o n c) :=
  (keepsAlive_indexOf o).bind fun _ => (keepsAlive_buffer o).bind fun _ =>
    (keepsAlive_throw _).ite ((keepsAlive_setBuffer o _).bind fun _ => keepsAlive_flush o)

theorem keepsAlive_putElement (o n : ℤ) (e : Element) : KeepsAlive w (putElement o n e) :=
  (keepsAlive_nodeAt o).bind fun _ => (keepsAlive_indexOf o).bind fun _ => (keepsAlive_buffer o).bind fun _ =>
    (keepsAlive_throw _).ite ((keepsAlive_throw _).ite
      ((keepsAlive_setBuffer o _).bind fun _ => keepsAlive_flush o))

theorem keepsAlive_moveElement (o p j i : ℤ) : KeepsAlive w (do putElement o j (← getElement p i) : M Unit) :=
  (keepsAlive_getElement p i).bind fun _ => keepsAlive_putElement o j _

theorem keepsAlive_moveChild (o p j i : ℤ) : KeepsAlive w (do putChildOffset o j (← getChildOffset p i) : M Unit) :=
  (keepsAlive_getChildOffset p i).bind fun _ => keepsAlive_putChildOffset o j _

theorem keepsAlive_setNode_ne {o : ℤ} (h : w ≠ o) (nd : Node) : KeepsAlive w (setNode o nd) := by
  intro s a s' hs ho nd' hnd
  obtain ⟨-, rfl⟩ := EStateM.Result.ok.inj hs
  exact ho nd' (by simpa [Function.update_of_ne h] using hnd)

theorem keepsAlive_getNextSiblingOffset (o : ℤ) : KeepsAlive w (getNextSiblingOffset o) :=
  (keepsAlive_buffer o).bind fun _ => keepsAlive_pure _

theorem keepsAlive_setNextSiblingOffset (o n : ℤ) : KeepsAlive w (setNextSiblingOffset o n) :=
  (keepsAlive_buffer o).bind fun _ => keepsAlive_setBuffer o _

end KeepsAlive

section Alive

variable {s s' : Tree} {ndx : Index} {off x y : ℤ} {P X Y : View} {p : ℕ}

/-- Borrowing flags no node. -/
theorem borrowFromPrev_alive (h : Neighbours s ndx off x y p P X Y)
    (hrun : borrowFromPrev off ((p : ℤ) + 1) s = .ok () s') (o : ℤ) (ho : s.Alive o) : s'.Alive o := by
  rw [borrowFromPrev, run_bind h.childRight, add_sub_cancel_right, run_bind h.childLeft] at hrun
  have hlast : KeepsAlive o (do
      putElement off p (← getElement x ((← nodeAt x).numKey - 1))
      decNumKey x 1 : M Unit) :=
    (keepsAlive_nodeAt x).bind fun _ => (keepsAlive_getElement x _).bind fun _ =>
      (keepsAlive_putElement off _ _).bind fun _ => keepsAlive_decNumKey x 1
  refine KeepsAlive.bind (keepsAlive_nodeAt y) (fun _ => ?_) s () s' hrun ho
  refine (keepsAlive_forDown (fun i => keepsAlive_moveElement y y (i + 1) i) _ _).bind fun _ => ?_
  refine (keepsAlive_getElement off _).bind fun _ => (keepsAlive_putElement y 0 _).bind fun _ => ?_
  refine (keepsAlive_incNumKey y 1).bind fun _ => (keepsAlive_nodeAt y).bind fun _ => hlast.ite ?_
  refine (keepsAlive_nodeAt y).bind fun _ => ?_
  refine (keepsAlive_forDown (fun i => keepsAlive_moveChild y y (i + 1) i) _ _).bind fun _ => ?_
  refine (keepsAlive_nodeAt x).bind fun _ => (keepsAlive_getChildOffset x _).bind fun _ => ?_
  exact (keepsAlive_putChildOffset y 0 _).bind fun _ => hlast

theorem borrowFromNext_alive (h : Neighbours s ndx off x y p P X Y) (hrun : borrowFromNext off p s = .ok () s')
    (o : ℤ) (ho : s.Alive o) : s'.Alive o := by
  rw [borrowFromNext, run_bind h.childLeft, run_bind h.childRight] at hrun
  have hlast : KeepsAlive o (do
      incNumKey x 1
      decNumKey y 1 : M Unit) := (keepsAlive_incNumKey x 1).bind fun _ => keepsAlive_decNumKey y 1
  have hrest : KeepsAlive o (do
      putElement off p (← getElement y 0)
      let numKey := (← nodeAt y).numKey
      forUp (fun i => do putElement y (i - 1) (← getElement y i)) 1 (numKey - 1).toNat
      unless (← nodeAt y).isLeaf do
        forUp (fun i => do putChildOffset y (i - 1) (← getChildOffset y i)) 1 numKey.toNat
      incNumKey x 1
      decNumKey y 1) := by
    refine (keepsAlive_getElement y 0).bind fun _ => (keepsAlive_putElement off p _).bind fun _ => ?_
    refine (keepsAlive_nodeAt y).bind fun _ => ?_
    refine (keepsAlive_forUp (fun i => keepsAlive_moveElement y y (i - 1) i) _ _).bind fun _ => ?_
    refine (keepsAlive_nodeAt y).bind fun _ => hlast.ite ?_
    exact (keepsAlive_forUp (fun i => keepsAlive_moveChild y y (i - 1) i) _ _).bind fun _ => hlast
  refine KeepsAlive.bind (keepsAlive_nodeAt x) (fun _ => ?_) s () s' hrun ho
  refine (keepsAlive_getElement off p).bind fun _ => (keepsAlive_putElement x _ _).bind fun _ => ?_
  refine (keepsAlive_nodeAt x).bind fun _ => hrest.ite ?_
  refine (keepsAlive_nodeAt x).bind fun _ => (keepsAlive_getChildOffset y 0).bind fun _ => ?_
  exact (keepsAlive_putChildOffset x _ _).bind fun _ => hrest

/-- Merging flags no other node than the right child. -/
theorem merge_alive (h : Neighbours s ndx off x y p P X Y) (hrun : merge off p s = .ok () s') (o : ℤ) (hne : o ≠ y)
    (ho : s.Alive o) : s'.Alive o := by
  rw [merge, run_bind h.childLeft, run_bind h.childRight, run_bind (minDegree_eq h.parent)] at hrun
  have hlast : KeepsAlive o (do
      incNumKey x ((← nodeAt y).numKey + 1)
      decNumKey off 1
      setNextSiblingOffset x (← getNextSiblingOffset y)
      setNode y { ← nodeAt y with dead := true } : M Unit) := by
    refine (keepsAlive_nodeAt y).bind fun _ => (keepsAlive_incNumKey x _).bind fun _ => ?_
    refine (keepsAlive_decNumKey off 1).bind fun _ => (keepsAlive_getNextSiblingOffset y).bind fun _ => ?_
    exact (keepsAlive_setNextSiblingOffset x _).bind fun _ => (keepsAlive_nodeAt y).bind fun _ =>
      keepsAlive_setNode_ne hne _
  refine KeepsAlive.bind (keepsAlive_getElement off p) (fun _ => ?_) s () s' hrun ho
  refine (keepsAlive_putElement x _ _).bind fun _ => (keepsAlive_nodeAt off).bind fun _ => ?_
  refine (keepsAlive_forUp (fun i => keepsAlive_moveElement off off (i - 1) i) _ _).bind fun _ => ?_
  refine (keepsAlive_forUp (fun i => keepsAlive_moveChild off off (i - 1) i) _ _).bind fun _ => ?_
  refine (keepsAlive_nodeAt y).bind fun _ => ?_
  refine (keepsAlive_forUp (fun i => keepsAlive_moveElement x y _ i) _ _).bind fun _ => ?_
  refine (keepsAlive_nodeAt x).bind fun _ => hlast.ite ?_
  exact (keepsAlive_forUp (fun i => keepsAlive_moveChild x y _ i) _ _).bind fun _ => hlast

end Alive

end RedB
