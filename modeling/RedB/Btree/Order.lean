import RedB.Btree.Split

/-!
# The order of an index

`node::is_full` notes that the order is always even, and `node::split_child` relies on
it: a full node has `order - 1` keys, and what it distributes are `order / 2` and
`order / 2 - 1` of them. `bcalc::order` divides the block by the size of a vector
element and rounds down, which gives an odd order as often as an even one.
`splitKeeps_iff` says what comes of it: a split keeps the contents of a full node
exactly if the order is even.
-/

namespace RedB

/-- The elements that a leaf counts. -/
def View.entries (v : View) : List (Key × ℤ) :=
  (List.range v.numKey.toNat).map fun i => ((v.slots i).key, (v.slots i).ref)

/-- The keys that a node counts. -/
def View.keys (v : View) : List Key := (List.range v.numKey.toNat).map fun i => (v.slots i).key

/-- The child offsets that an inner node counts. -/
def View.children (v : View) : List ℤ := (List.range (v.numKey + 1).toNat).map fun i => (v.slots i).ref

/-- `split_child` returns, and the halves, children `n` and `n + 1` of the parent, say one
after the other what the node `C` said, with the key moved up between them if they are
inner nodes. -/
def SplitKeeps (s : Tree) (off : ℤ) (n : ℕ) (prev : ℤ) (C : View) : Prop :=
  ∃ s' P A B, splitChild off n prev s = .ok () s' ∧ s'.view off = some P ∧
    s'.view (P.slots n).ref = some A ∧ s'.view (P.slots (n + 1)).ref = some B ∧
    if C.isLeaf then A.entries ++ B.entries = C.entries
    else A.keys ++ (P.slots n).key :: B.keys = C.keys ∧ A.children ++ B.children = C.children

/-! ### Even orders -/

theorem range_append {β : Type} (f : ℕ → β) (a b : ℕ) :
    (List.range a).map f ++ (List.range b).map (fun i => f (a + i)) = (List.range (a + b)).map f := by
  rw [List.range_add, List.map_append, List.map_map]
  rfl

/-- The halves of a full node of an even order. -/
theorem View.split_keeps {C : View} {t : ℕ} (ht : 1 ≤ t) (hC : C.numKey = ((2 * t - 1 : ℕ) : ℤ)) (f : ℤ) (name : String)
    (prev : ℤ) : if C.isLeaf then (C.splitLeft t f).entries ++ (C.splitRight t name prev).entries = C.entries
      else (C.splitLeft t f).keys ++ (C.slots (t - 1)).key :: (C.splitRight t name prev).keys = C.keys ∧
        (C.splitLeft t f).children ++ (C.splitRight t name prev).children = C.children := by
  have hr : ((t : ℤ) - 1).toNat = t - 1 := by omega
  cases hl : C.isLeaf with
  | true =>
    simp only [if_true, View.entries, View.splitLeft, View.splitRight, hl, hC, Int.toNat_natCast, hr]
    rw [show 2 * t - 1 = t + (t - 1) by omega, ← range_append]
    refine congrArg _ (List.map_congr_left fun i hi => ?_)
    rw [List.mem_range] at hi
    rw [if_pos hi, if_pos hi]
  | false =>
    simp only [Bool.false_eq_true, if_false, View.keys, View.children, View.splitLeft, View.splitRight, hl, hC,
      Int.toNat_natCast, hr, sub_add_cancel]
    constructor
    · rw [show 2 * t - 1 = (t - 1) + (1 + (t - 1)) by omega, ← range_append, ← range_append]
      refine congrArg _ ?_
      refine congrArg₂ List.cons rfl (List.map_congr_left fun i hi => ?_)
      rw [List.mem_range] at hi
      rw [if_pos hi, show t - 1 + (1 + i) = t + i by omega]
    · rw [show (((2 * t - 1 : ℕ) : ℤ) + 1).toNat = t + t by omega, ← range_append]
      refine congrArg _ (List.map_congr_left fun i hi => ?_)
      rw [List.mem_range] at hi
      rw [if_pos hi]

/-! ### Odd orders -/

/-- The halves of a split have two keys less than an odd order, and one with the key that
moves up; a full node has one less. -/
theorem View.split_loses {C : View} {t c : ℕ} (ht : 1 ≤ t) (hC : C.numKey = (c : ℤ)) (hodd : c = 2 * t) (f : ℤ)
    (name : String) (prev : ℤ) (k : Key) :
    ¬if C.isLeaf then (C.splitLeft t f).entries ++ (C.splitRight t name prev).entries = C.entries
      else (C.splitLeft t f).keys ++ k :: (C.splitRight t name prev).keys = C.keys ∧
        (C.splitLeft t f).children ++ (C.splitRight t name prev).children = C.children := by
  cases hl : C.isLeaf with
  | true =>
    simp only [if_true]
    intro h
    have := congrArg List.length h
    simp [View.entries, View.splitLeft, View.splitRight, hl, hC] at this
    omega
  | false =>
    simp only [Bool.false_eq_true, if_false]
    rintro ⟨h, -⟩
    have := congrArg List.length h
    simp [View.keys, View.splitLeft, View.splitRight, hl, hC] at this
    omega

/-- There is no element before the first. -/
theorem getElement_neg {off n : ℤ} (hn : n < 0) {s s' : Tree} {e : Element} : getElement off n s ≠ .ok e s' := by
  intro h
  rw [getElement] at h
  obtain ⟨nd, s1, -, h⟩ := of_run_bind h
  obtain ⟨ndx, s2, -, h⟩ := of_run_bind h
  obtain ⟨blk, s3, -, h⟩ := of_run_bind h
  rw [if_pos (.inl hn)] at h
  exact absurd h (by intro h'; cases h')

/-- With order one the key to move up is looked for before the first element. -/
theorem splitChild_one {s : Tree} {ndx : Index} {off prev : ℤ} {P : View} (hP : Open s ndx off P) (hord : ndx.order = 1)
    (n : ℕ) (s' : Tree) : splitChild off n prev s ≠ .ok () s' := by
  intro h
  rw [splitChild, run_bind (minDegree_eq hP), hord] at h
  obtain ⟨nd, s1, -, h⟩ := of_run_bind h
  obtain ⟨ndP, s2, -, h⟩ := of_run_bind h
  obtain ⟨f, s3, -, h⟩ := of_run_bind h
  obtain ⟨new, s4, -, h⟩ := of_run_bind h
  obtain ⟨_, s5, -, h⟩ := of_run_bind h
  obtain ⟨_, s6, -, h⟩ := of_run_bind h
  obtain ⟨s7, h⟩ := of_run_unless h
  obtain ⟨_, s8, -, h⟩ := of_run_bind h
  obtain ⟨ndP', s9, -, h⟩ := of_run_bind h
  obtain ⟨_, s10, -, h⟩ := of_run_bind h
  obtain ⟨_, s11, -, h⟩ := of_run_bind h
  obtain ⟨_, s12, -, h⟩ := of_run_bind h
  obtain ⟨e, s13, he, -⟩ := of_run_bind h
  exact getElement_neg (by decide) he

/-! ### Every order -/

section Keeps

variable {s : Tree} {ndx : Index} {off prev : ℤ} {P C : View} {fs : List ℤ} {lim : ℤ} {n m c : ℕ}

/-- Child `prev` of the inner node `off` is full, with `c` keys, and can be split. -/
structure Splittable (s : Tree) (ndx : Index) (off : ℤ) (n : ℕ) (prev : ℤ) (P C : View) (c : ℕ) (fs : List ℤ)
    (lim : ℤ) : Prop where
  /-- The parent, an inner node. -/
  parent : Open s ndx off P
  /-- The child. -/
  child : Open s ndx prev C
  /-- They are two nodes. -/
  ne : prev ≠ off
  /-- The parent is an inner node. -/
  inner : P.isLeaf = false
  /-- It has room for one more key at position `n`. -/
  room : ∃ m : ℕ, P.numKey = m ∧ m < ndx.order ∧ n ≤ m ∧ ∀ i, i < m → (P.slots i).key.length = ndx.keySize
  /-- Its child `n` is the child. -/
  ref : (P.slots n).ref = prev
  /-- The child is full. -/
  numKey : C.numKey = (c : ℤ)
  /-- It has `order - 1` keys. -/
  full : c + 1 = ndx.order
  /-- Keys have the key size. -/
  size : ∀ i, i < c → (C.slots i).key.length = ndx.keySize
  /-- A new block can be had. -/
  pool : Pool s fs lim
  /-- It is not one of the two nodes. -/
  out : Outside [off, prev] fs lim
  /-- The next sibling of the child, if any, is a third node, and not the new one. It is there or can be read
  when the new block has been handed out. -/
  sibling : C.next ≠ invalidSiblingRef → Aligned C.next ∧ C.next ≠ prev ∧ C.next ≠ off ∧
    C.next ≠ stream fs lim 0 ∧ C.next ∉ restFree fs ∧
      ∃ Y, ((s.withEnd (stream fs lim 0 + bufferSz)).loaded C.ndxName).view C.next = some Y

/-- `is_full` reports the child. -/
theorem Splittable.isFull (h : Splittable s ndx off n prev P C c fs lim) : isFull prev s = .ok true s := by
  rw [isFull_eq h.child, h.numKey]
  have := h.full
  simp
  omega

/-- A split keeps the contents of a full node exactly if the order is even. -/
theorem splitKeeps_iff (h : Splittable s ndx off n prev P C c fs lim) :
    SplitKeeps s off n prev C ↔ ndx.order % 2 = 0 := by
  have hfull := h.full
  rcases Nat.lt_or_ge ndx.order 2 with hone | htwo
  · have hord : ndx.order = 1 := by omega
    constructor
    · rintro ⟨s', _, _, _, hrun, -⟩
      exact absurd hrun (splitChild_one h.parent hord n s')
    · omega
  · obtain ⟨m, hm, hm', hn, hkP⟩ := h.room
    have hfo := h.out.stream_zero
    obtain ⟨s1, hrun, -, -, hB, hA, hP, -⟩ := splitChild_spec h.parent h.child h.ne h.inner htwo hm hm' hn hkP
      (fun i hi => h.size i (by omega)) h.pool h.out h.sibling
    generalize ht : ndx.order / 2 = t at hB hA hP
    have hslot : (P.splitParent n (C.slots (t - 1)).key (stream fs lim 0)).slots n =
        ⟨prev, (C.slots (t - 1)).key⟩ := by
      simp [View.splitParent, h.ref]
    have hslot' : ((P.splitParent n (C.slots (t - 1)).key (stream fs lim 0)).slots (n + 1)).ref = stream fs lim 0 := by
      simp [View.splitParent]
    constructor
    · rintro ⟨s', P', A, B, hrun', hP', hA', hB', hkeep⟩
      obtain ⟨-, rfl⟩ := EStateM.Result.ok.inj (hrun.symm.trans hrun')
      obtain rfl := Option.some_inj.mp (hP.symm.trans hP')
      rw [hslot] at hA'
      rw [hslot'] at hB'
      obtain rfl := Option.some_inj.mp (hA.symm.trans hA')
      obtain rfl := Option.some_inj.mp (hB.symm.trans hB')
      by_contra hodd
      exact View.split_loses (t := t) (c := c) (by omega) h.numKey (by omega) _ _ _ _ hkeep
    · intro heven
      refine ⟨s1, _, _, _, hrun, hP, by rw [hslot]; exact hA, by rw [hslot']; exact hB, ?_⟩
      rw [hslot]
      exact C.split_keeps (by omega) (by rw [h.numKey]; congr 1; omega) (stream fs lim 0) P.ndxName prev

/-- For an index that was built with the order that `bcalc` computes from its key size: a
split keeps the contents of a full node exactly if that order is even. -/
theorem splitChild_keeps_iff (hord : ndx.order = (Bcalc.mk ndx.keySize).order)
    (h : Splittable s ndx off n prev P C c fs lim) :
    SplitKeeps s off n prev C ↔ (Bcalc.mk ndx.keySize).order % 2 = 0 := by
  rw [← hord]
  exact splitKeeps_iff h

end Keeps

/-! ### Two key sizes -/

/-- A table in which an inner node at offset 0, without keys, has as its only child a full
leaf of `c` zero keys of `k` bytes. -/
def fullLeaf (k c : ℕ) : Tree where
  schema := ⟨⟨1, 1, 0, 0, 65536, -1, -1, -1, -1⟩, [], [⟨pkNdx, (Bcalc.mk k).order, k, 0, ["name"]⟩]⟩
  cache := fun o => if o = 0 then
      some { Block.zero with prev := invalidSiblingRef, next := invalidSiblingRef, slots := fun _ => ⟨32768, []⟩ }
    else if o = 32768 then
      some { Block.zero with prev := invalidSiblingRef, next := invalidSiblingRef, slots := fun _ => ⟨24, List.replicate k 0⟩ }
    else none
  flushList := []
  disk := fun _ => none
  node := fun o => if o = 0 then some ⟨false, false, 0, pkNdx⟩
    else if o = 32768 then some ⟨true, false, c, pkNdx⟩ else none
  data := fun _ => false

theorem fullLeaf_splittable {k c : ℕ} (hc : c + 1 = (Bcalc.mk k).order) :
    Splittable (fullLeaf k c) ⟨pkNdx, (Bcalc.mk k).order, k, 0, ["name"]⟩ 0 0 32768
      ⟨false, 0, pkNdx, fun _ => ⟨32768, []⟩, invalidSiblingRef, invalidSiblingRef⟩
      ⟨true, c, pkNdx, fun _ => ⟨24, List.replicate k 0⟩, invalidSiblingRef, invalidSiblingRef⟩ c [] 65536 where
  parent := ⟨rfl, rfl, Index.fits_of_order rfl⟩
  child := ⟨rfl, rfl, Index.fits_of_order rfl⟩
  ne := by decide
  inner := rfl
  room := ⟨0, rfl, by simp only; omega, Nat.le_refl 0, fun i hi => absurd hi (Nat.not_lt_zero i)⟩
  ref := rfl
  numKey := rfl
  full := hc
  size _ _ := List.length_replicate
  pool := pool_nil (show (-1 : ℤ) < 0 by decide) (show Aligned 65536 by decide)
  out := ⟨by simp, by simp⟩
  sibling h := absurd rfl h

/-- A key of 8000 bytes, with the even order four. -/
theorem splitChild_keeps_8000 : SplitKeeps (fullLeaf 8000 3) 0 0 32768
      ⟨true, 3, pkNdx, fun _ => ⟨24, List.replicate 8000 0⟩, invalidSiblingRef, invalidSiblingRef⟩ ↔
    (Bcalc.mk 8000).order % 2 = 0 :=
  @splitChild_keeps_iff _ ⟨pkNdx, (Bcalc.mk 8000).order, 8000, 0, ["name"]⟩ _ _ _ _ _ _ _ _ rfl (fullLeaf_splittable (by decide))

/-- A key of 20 bytes, with the odd order 1169. -/
theorem splitChild_loses_20 : (Bcalc.mk 20).order = 1169 ∧ isFull 32768 (fullLeaf 20 1168) = .ok true (fullLeaf 20 1168) ∧
    ¬SplitKeeps (fullLeaf 20 1168) 0 0 32768
      ⟨true, 1168, pkNdx, fun _ => ⟨24, List.replicate 20 0⟩, invalidSiblingRef, invalidSiblingRef⟩ := by
  have h := fullLeaf_splittable (k := 20) (c := 1168) (by decide)
  refine ⟨by decide, h.isFull, fun hk => ?_⟩
  exact absurd ((splitKeeps_iff h).mp hk) (by decide)

end RedB
