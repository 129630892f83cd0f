import RedB.Btree.Loaded
import RedB.Btree.Run

/-!
# Dropping an index

`tree::remove_index` hands the node blocks of an index to the free list. It goes down level by level
and looks for the first and the last node of the next level with `get_element`, whose block offset is
the place of a row; on a node that is not a leaf it is 0. Below a root that is not a leaf it therefore
comes to the block at 0, whatever that is. If it reads as a leaf, it and the root are put on the free
list, and the other nodes are lost; if not, the loop does not get beyond it: `get_element` throws there,
where the free bytes of a block of rows are read as a number of keys, or it comes to that block again and
again.

So all blocks of the index become free if and only if the root is a leaf (`removeIndex_frees_iff`).
-/

namespace RedB

open BPlus Links

/-! ### The code -/

/-- The loop of `tree::remove_index`, with its variables `head` and `tail`. -/
def spliceLevels (ndxName : String) : ℕ → Option ℤ → Option ℤ → M (Option ℤ)
  | 0, _, _ => throw .fuel
  | _ + 1, _, none => return none
  | fuel + 1, head, some tail => do
    if (← nodeAt tail).isLeaf then return some tail
    let elem ← getElement (← deref head) 0
    setNextSiblingOffset tail elem.blockOffset
    flush tail
    let head ← getNode ndxName elem.blockOffset
    setPrevSiblingOffset (← deref head) tail
    flush (← deref head)
    let elem ← getElement tail ((← nodeAt tail).numKey - 1)
    let next ← getNode ndxName elem.blockOffset
    spliceLevels ndxName fuel head next

/-- The root and the free list: the root becomes the first block of the list, or leads to what was the
last one. -/
def linkRoot (ndxName : String) (root : ℤ) : M Unit := do
  if (← getHeader).freeHead = -1 then
    modifyHeader fun h => { h with freeHead := root }
  else
    let head ← getNode ndxName root
    setPrevSiblingOffset (← deref head) (← getHeader).freeTail
    flush (← deref head)

/-- `tree::remove_index` -/
def removeIndex (fuel : ℕ) (ndxName : String) : M Unit := do
  if (← getIndex ndxName).root < 0 then return
  let root := (← getIndex ndxName).root
  let head ← getNode ndxName root
  let tail ← spliceLevels ndxName fuel head head
  linkRoot ndxName root
  let freeTail ← deref tail
  modifyHeader fun h => { h with freeTail := freeTail }
  modify fun s => { s with schema := s.schema.removeIndex ndxName }

/-! ### The free list -/

/-- What a sibling field refers to. -/
def siblingOf (o : ℤ) : Option ℤ := if o = invalidSiblingRef then none else some o

/-- The block at an offset, in the cache or in the file. -/
def Tree.block (s : Tree) (o : ℤ) : Option Block := (s.cache o).or (s.disk o)

/-- The block that was put on the free list before the one at `o`. -/
def Tree.freedBefore (s : Tree) (o : ℤ) : Option ℤ := (s.block o).bind fun b => siblingOf b.prev

/-- The free list from `free_tail` on. -/
structure FreeList (s : Tree) (l : List ℤ) : Prop where
  /-- `free_tail` is the first. -/
  tail : (if s.schema.header.freeTail < 0 then none else some s.schema.header.freeTail) = l.head?
  /-- Every block leads to the next. -/
  linked : Fwd s.freedBefore l
  /-- The blocks are there. -/
  there : ∀ o ∈ l, (s.block o).isSome

/-- There is one free list at most. -/
theorem FreeList.unique {s : Tree} {l l' : List ℤ} (h : FreeList s l) (h' : FreeList s l') : l = l' :=
  h.linked.unique h'.linked (h.tail.symm.trans h'.tail)

/-! ### What the loop leaves alone -/

/-- The schema is as before, node objects stay, and so do the prev-sibling fields of all blocks but
those of `U`. -/
structure LinkFrame (U : ℤ → Prop) (s s' : Tree) : Prop where
  schema : s'.schema = s.schema
  node : ∀ o nd, s.node o = some nd → s'.node o = some nd
  before : ∀ o, ¬U o → s'.freedBefore o = s.freedBefore o
  there : ∀ o, (s.block o).isSome → (s'.block o).isSome

theorem LinkFrame.refl (U : ℤ → Prop) (s : Tree) : LinkFrame U s s :=
  ⟨rfl, fun _ _ h => h, fun _ _ => rfl, fun _ h => h⟩

theorem LinkFrame.trans {U : ℤ → Prop} {s s1 s2 : Tree} (h : LinkFrame U s s1) (h' : LinkFrame U s1 s2) :
    LinkFrame U s s2 where
  schema := h'.schema.trans h.schema
  node o nd ho := h'.node o nd (h.node o nd ho)
  before o ho := (h'.before o ho).trans (h.before o ho)
  there o ho := h'.there o (h.there o ho)

/-- `x` changes no more than that if it returns. -/
def Splices {α : Type} (U : ℤ → Prop) (x : M α) : Prop := ∀ s a s', x s = .ok a s' → LinkFrame U s s'

/-- A read leaves the blocks where they are. -/
theorem Tree.block_load {s : Tree} {o : ℤ} {b : Block} (hc : s.cache o = none) (hb : s.disk o = some b) (o' : ℤ) :
    ({ s with cache := Function.update s.cache o (some b) } : Tree).block o' = s.block o' := by
  rw [Tree.block, Tree.block]
  by_cases ho : o' = o
  · subst ho
    simp [hc, hb]
  · simp [Function.update_of_ne ho]

theorem linkFrame_of_block {U : ℤ → Prop} {s s' : Tree} (hs : s'.schema = s.schema)
    (hn : ∀ o nd, s.node o = some nd → s'.node o = some nd) (hb : ∀ o, s'.block o = s.block o) : LinkFrame U s s' where
  schema := hs
  node := hn
  before o _ := by rw [Tree.freedBefore, Tree.freedBefore, hb]
  there o h := by rwa [hb]

/-- `get_block` leaves all blocks what they are. -/
theorem of_getBlock {o : ℤ} {r : Option Block} {s s' : Tree} (h : getBlock o s = .ok r s') :
    s'.schema = s.schema ∧ s'.node = s.node ∧ (∀ o', s'.block o' = s.block o') ∧ ∀ b, r = some b → s'.cache o = some b := by
  rw [getBlock] at h
  split at h
  · obtain ⟨rfl, rfl⟩ := EStateM.Result.ok.inj h
    exact ⟨rfl, rfl, fun _ => rfl, by simp⟩
  · obtain ⟨s1, s2, h1, k1⟩ := of_run_bind h
    obtain ⟨rfl, rfl⟩ := EStateM.Result.ok.inj h1
    cases hc : s.cache o with
    | some b =>
      rw [hc] at k1
      obtain ⟨rfl, rfl⟩ := EStateM.Result.ok.inj k1
      exact ⟨rfl, rfl, fun _ => rfl, fun b' hb' => hc.trans hb'⟩
    | none =>
      rw [hc] at k1
      obtain ⟨s3, s4, h3, k2⟩ := of_run_bind k1
      obtain ⟨rfl, rfl⟩ := EStateM.Result.ok.inj h3
      split at k2
      · obtain ⟨rfl, rfl⟩ := EStateM.Result.ok.inj k2
        exact ⟨rfl, rfl, fun _ => rfl, by simp⟩
      · cases hd : s.disk o with
        | none =>
          rw [hd] at k2
          cases k2
        | some b =>
          rw [hd] at k2
          obtain ⟨rfl, rfl⟩ := EStateM.Result.ok.inj k2
          exact ⟨rfl, rfl, Tree.block_load hc hd, fun b' hb' => by simpa using hb'⟩

/-- `get_node` returns the node asked for or none, and the node object is there. -/
theorem of_getNode {name : String} {o : ℤ} {p : Option ℤ} {s s' : Tree} (h : getNode name o s = .ok p s') :
    (∀ q, p = some q → q = o ∧ (s'.node o).isSome) ∧ ∀ U, LinkFrame U s s' := by
  rw [getNode] at h
  split at h
  · obtain ⟨rfl, rfl⟩ := EStateM.Result.ok.inj h
    exact ⟨by simp, fun U => .refl U _⟩
  · obtain ⟨s0, s1, h1, h⟩ := of_run_bind h
    obtain ⟨rfl, rfl⟩ := EStateM.Result.ok.inj h1
    cases hn : s.node o with
    | some nd =>
      rw [hn] at h
      obtain ⟨rfl, rfl⟩ := EStateM.Result.ok.inj h
      exact ⟨fun q hq => ⟨(Option.some.inj hq).symm, by simp [hn]⟩, fun U => .refl U _⟩
    | none =>
      rw [hn] at h
      obtain ⟨r, s2, h2, h⟩ := of_run_bind h
      obtain ⟨hs2, hn2, hb2, -⟩ := of_getBlock h2
      cases r with
      | none =>
        obtain ⟨rfl, rfl⟩ := EStateM.Result.ok.inj h
        exact ⟨by simp, fun U => linkFrame_of_block hs2 (by simp [hn2]) hb2⟩
      | some b =>
        obtain ⟨rfl, rfl⟩ := EStateM.Result.ok.inj h
        refine ⟨fun q hq => ⟨(Option.some.inj hq).symm, by simp⟩, fun U => linkFrame_of_block hs2 (fun o' nd ho' => ?_) hb2⟩
        have hne : o' ≠ o := by
          rintro rfl
          rw [hn] at ho'
          cases ho'
        simpa [Function.update_of_ne hne, hn2] using ho'

/-- A block that is in the cache is written. -/
theorem linkFrame_setBuffer {U : ℤ → Prop} {s : Tree} {o : ℤ} {b b' : Block} (hc : s.cache o = some b)
    (hp : U o ∨ b'.prev = b.prev) : LinkFrame U s { s with cache := Function.update s.cache o (some b') } where
  schema := rfl
  node _ _ h := h
  before o' ho' := by
    by_cases ho : o' = o
    · subst ho
      simp [Tree.freedBefore, Tree.block, hc, hp.resolve_left ho']
    · simp [Tree.freedBefore, Tree.block, Function.update_of_ne ho]
  there o' h' := by
    by_cases ho : o' = o
    · subst ho
      simp [Tree.block]
    · simpa [Tree.block, Function.update_of_ne ho] using h'

theorem of_buffer {o : ℤ} {s s' : Tree} {b : Block} (h : buffer o s = .ok b s') : s' = s ∧ s.cache o = some b := by
  obtain ⟨s0, s1, h1, h2⟩ := of_run_bind h
  obtain ⟨rfl, rfl⟩ := EStateM.Result.ok.inj h1
  cases hn : s.cache o with
  | none =>
    rw [hn] at h2
    cases h2
  | some b' =>
    rw [hn] at h2
    obtain ⟨rfl, rfl⟩ := EStateM.Result.ok.inj h2
    exact ⟨rfl, rfl⟩

theorem splices_flushBlock {U : ℤ → Prop} (o : ℤ) : Splices U (flushBlock o) := by
  intro s u s' h
  obtain ⟨-, rfl⟩ := EStateM.Result.ok.inj h
  show LinkFrame U s (if o ∈ s.flushList then s else { s with flushList := s.flushList ++ [o] })
  split
  · exact .refl U s
  · exact linkFrame_of_block rfl (fun _ _ h => h) fun _ => rfl

theorem splices_flush {U : ℤ → Prop} (o : ℤ) : Splices U (flush o) := by
  intro s u s' h
  obtain ⟨_, s1, h1, h2⟩ := of_run_bind h
  obtain ⟨nd, s2, h3, k1⟩ := of_run_bind h1
  obtain ⟨rfl, -⟩ := of_nodeAt h3
  obtain ⟨b, s3, h4, k2⟩ := of_run_bind k1
  obtain ⟨rfl, hb⟩ := of_buffer h4
  obtain ⟨-, rfl⟩ := EStateM.Result.ok.inj k2
  have f := @linkFrame_setBuffer U _ o b { b with head := .node nd.isLeaf nd.numKey } hb (.inr rfl)
  exact f.trans (splices_flushBlock o _ _ _ h2)

theorem splices_setNextSiblingOffset {U : ℤ → Prop} (o p : ℤ) : Splices U (setNextSiblingOffset o p) := by
  intro s u s' h
  obtain ⟨b, s1, h1, h2⟩ := of_run_bind h
  obtain ⟨rfl, hb⟩ := of_buffer h1
  obtain ⟨-, rfl⟩ := EStateM.Result.ok.inj h2
  exact linkFrame_setBuffer hb (.inr rfl)

/-- `set_prev_sibling_offset` changes where the block leads. -/
theorem of_setPrevSiblingOffset {o p : ℤ} {s s' : Tree} (h : setPrevSiblingOffset o p s = .ok () s') :
    LinkFrame (· = o) s s' ∧ s'.freedBefore o = siblingOf p := by
  obtain ⟨b, s1, h1, h2⟩ := of_run_bind h
  obtain ⟨rfl, hb⟩ := of_buffer h1
  obtain ⟨-, rfl⟩ := EStateM.Result.ok.inj h2
  exact ⟨linkFrame_setBuffer hb (.inl rfl), by simp [Tree.freedBefore, Tree.block]⟩

theorem of_deref {p : Option ℤ} {o : ℤ} {s s' : Tree} (h : deref p s = .ok o s') : s' = s ∧ p = some o := by
  cases p with
  | none => cases h
  | some q =>
    obtain ⟨rfl, rfl⟩ := EStateM.Result.ok.inj h
    exact ⟨rfl, rfl⟩

theorem of_indexOf {o : ℤ} {s s' : Tree} {ndx : Index} (h : indexOf o s = .ok ndx s') : s' = s := by
  obtain ⟨nd, s1, h1, k1⟩ := of_run_bind h
  obtain ⟨rfl, -⟩ := of_nodeAt h1
  obtain ⟨s2, s3, h2, k2⟩ := of_run_bind k1
  obtain ⟨rfl, rfl⟩ := EStateM.Result.ok.inj h2
  cases hi : s1.schema.getIndex nd.ndxName with
  | none =>
    rw [hi] at k2
    cases k2
  | some ndx' =>
    rw [hi] at k2
    exact (EStateM.Result.ok.inj k2).2.symm

/-- The elements of a node that is not a leaf are at block offset 0. -/
theorem of_getElement {o n : ℤ} {e : Element} {s s' : Tree} {nd : Node} (h : getElement o n s = .ok e s')
    (hn : s.node o = some nd) (hl : nd.isLeaf = false) : s' = s ∧ e.blockOffset = 0 := by
  obtain ⟨nd', s1, h1, k1⟩ := of_run_bind h
  obtain ⟨rfl, hn'⟩ := of_nodeAt h1
  obtain rfl : nd = nd' := by simpa [hn] using hn'
  obtain ⟨ndx, s2, h2, k2⟩ := of_run_bind k1
  obtain rfl := of_indexOf h2
  obtain ⟨b, s3, h3, k3⟩ := of_run_bind k2
  obtain ⟨rfl, -⟩ := of_buffer h3
  split at k3
  · cases k3
  · obtain ⟨rfl, rfl⟩ := EStateM.Result.ok.inj k3
    exact ⟨rfl, by simp [Slot.element, hl]⟩

/-! ### The loop -/

/-- One round at a node that is not a leaf: the block at 0 leads to it from then on, and is the next. -/
theorem of_spliceLevels {name : String} {fuel : ℕ} {o : ℤ} {r : Option ℤ} {s s' : Tree} {nd : Node}
    (h : spliceLevels name (fuel + 1) (some o) (some o) s = .ok r s') (hn : s.node o = some nd) (hl : nd.isLeaf = false) :
    ∃ s1, spliceLevels name fuel (some 0) (some 0) s1 = .ok r s' ∧ LinkFrame (· = 0) s s1 ∧
      s1.freedBefore 0 = siblingOf o ∧ (s1.node 0).isSome := by
  rw [spliceLevels] at h
  obtain ⟨nd', s1, h1, k1⟩ := of_run_bind h
  obtain ⟨rfl, hn'⟩ := of_nodeAt h1
  obtain rfl : nd = nd' := by simpa [hn] using hn'
  rw [if_neg (by simp [hl])] at k1
  obtain ⟨o', s2, h2, k2⟩ := of_run_bind k1
  obtain ⟨rfl, ho'⟩ := of_deref h2
  obtain rfl : o = o' := Option.some.inj ho'
  obtain ⟨e, s3, h3, k3⟩ := of_run_bind k2
  obtain ⟨rfl, he⟩ := of_getElement h3 hn hl
  rw [he] at k3
  obtain ⟨_, s4, h4, k4⟩ := of_run_bind k3
  have f4 : LinkFrame (· = 0) _ _ := splices_setNextSiblingOffset o 0 _ _ _ h4
  obtain ⟨_, s5, h5, k5⟩ := of_run_bind k4
  have f5 : LinkFrame (· = 0) _ _ := splices_flush o _ _ _ h5
  obtain ⟨p, s6, h6, k6⟩ := of_run_bind k5
  obtain ⟨hp6, f6⟩ := of_getNode h6
  obtain ⟨q, s7, h7, k7⟩ := of_run_bind k6
  obtain ⟨rfl, hq⟩ := of_deref h7
  obtain ⟨rfl, hsome⟩ := hp6 q hq
  obtain ⟨_, s8, h8, k8⟩ := of_run_bind k7
  obtain ⟨f8, hprev⟩ := of_setPrevSiblingOffset h8
  obtain ⟨q, s9, h9, k9⟩ := of_run_bind k8
  obtain ⟨rfl, hq'⟩ := of_deref h9
  obtain rfl : 0 = q := Option.some.inj (hq.symm.trans hq')
  subst hq
  obtain ⟨_, s10, h10, k10⟩ := of_run_bind k9
  have f10 : ∀ U, LinkFrame U _ _ := fun U => splices_flush 0 _ _ _ h10
  obtain ⟨nd2, s11, h11, k11⟩ := of_run_bind k10
  obtain ⟨rfl, hn2⟩ := of_nodeAt h11
  have f : LinkFrame (· = 0) _ _ := (((f4.trans f5).trans (f6 _)).trans f8).trans (f10 _)
  obtain rfl : nd = nd2 := by simpa [f.node o nd hn] using hn2
  obtain ⟨e2, s12, h12, k12⟩ := of_run_bind k11
  obtain ⟨rfl, he2⟩ := of_getElement h12 hn2 hl
  rw [he2] at k12
  obtain ⟨nd0, hnd0⟩ := Option.isSome_iff_exists.mp hsome
  have hnd0' := (f8.trans (f10 _)).node 0 nd0 hnd0
  rw [run_bind (getNode_of_node (by decide) (by simp [hnd0']) name)] at k12
  exact ⟨_, k12, f, by rw [(f10 fun _ => False).before 0 id, hprev], by simp [hnd0']⟩

/-- From the block at 0 the loop does not get any further if that block does not read as a leaf: it throws, or it
comes to that block again. -/
theorem spliceLevels_stuck {name : String} {fuel : ℕ} {r : Option ℤ} {s s' : Tree} {nd : Node} (hn : s.node 0 = some nd)
    (hl : nd.isLeaf = false) : spliceLevels name fuel (some 0) (some 0) s ≠ .ok r s' := by
  induction fuel generalizing s with
  | zero => nofun
  | succ fuel ih =>
    intro h
    obtain ⟨s1, h1, f, -, -⟩ := of_spliceLevels h hn hl
    exact ih (f.node 0 nd hn) h1

/-- From a root that is not a leaf the loop comes to the block at 0, if it ends. -/
theorem spliceLevels_inner {name : String} {fuel : ℕ} {o : ℤ} {r : Option ℤ} {s s' : Tree} {nd : Node}
    (h : spliceLevels name fuel (some o) (some o) s = .ok r s') (hn : s.node o = some nd) (hl : nd.isLeaf = false) :
    o ≠ 0 ∧ r = some 0 ∧ LinkFrame (· = 0) s s' ∧ s'.freedBefore 0 = siblingOf o := by
  cases fuel with
  | zero => cases h
  | succ fuel =>
    obtain ⟨s1, h1, f, hprev, hsome⟩ := of_spliceLevels h hn hl
    obtain ⟨nd0, hnd0⟩ := Option.isSome_iff_exists.mp hsome
    have hleaf : nd0.isLeaf = true := by
      by_contra hne
      exact spliceLevels_stuck hnd0 (by simpa using hne) h1
    refine ⟨?_, ?_⟩
    · rintro rfl
      obtain rfl : nd = nd0 := by simpa [f.node 0 nd hn] using hnd0
      rw [hl] at hleaf
      cases hleaf
    · cases fuel with
      | zero => cases h1
      | succ fuel =>
        rw [spliceLevels] at h1
        obtain ⟨nd', s2, h2, h1⟩ := of_run_bind h1
        obtain ⟨rfl, hn'⟩ := of_nodeAt h2
        obtain rfl : nd0 = nd' := by simpa [hnd0] using hn'
        rw [if_pos hleaf] at h1
        obtain ⟨rfl, rfl⟩ := EStateM.Result.ok.inj h1
        exact ⟨rfl, f, hprev⟩

/-! ### Indexes that can be dropped -/

/-- A table with an index that has the B+tree `T`, the blocks `free` on the free list and other blocks
`live`. -/
structure Droppable (s : Tree) (name : String) (ndx : Index) (T : (h : ℕ) × BlockTree h) (free live : List ℤ) :
    Prop where
  /-- The nodes are those of the tree. -/
  index : IndexRep (s.loaded name) name ndx (fun _ => False) (some T)
  /-- A root that is not a leaf has a key, and every node that is not a leaf one child more than keys. -/
  shape : ∃ lo hi, BTree.Shape 1 lo hi T.2
  /-- The root has no sibling. -/
  top : (s.loaded name).prevOf T.2.label = none
  /-- The free list. -/
  list : FreeList s free
  /-- `free_head` tells whether there is one. -/
  head : s.schema.header.freeHead = -1 ↔ free = []
  /-- No block is on the free list twice. -/
  nodup : free.Nodup
  /-- The nodes are not on the free list. -/
  apart : ∀ o ∈ (BTree.descs T.2).map Desc.label, o ∉ free
  /-- The other blocks are neither nodes nor free. -/
  others : ∀ o ∈ live, o ∉ free ∧ o ∉ (BTree.descs T.2).map Desc.label

/-- After the index with the nodes `nodes` has been dropped: the free list has the blocks that it had, and the
nodes, each once, and none of the other blocks. -/
def Dropped (s : Tree) (free nodes live : List ℤ) : Prop :=
  ∃ l, FreeList s l ∧ l.Perm (free ++ nodes) ∧ l.Nodup ∧ ∀ o ∈ live, o ∉ l

/-- An index as insertions leave it can be dropped. -/
theorem IndexRep.droppable {s : Tree} {name : String} {ndx : Index} {T : (h : ℕ) × BlockTree h} {free live : List ℤ} {lo hi : ℕ}
    (h : IndexRep s name ndx (fun _ => True) (some T)) (hshape : BTree.Shape 1 lo hi T.2) (hlist : FreeList s free)
    (hhead : s.schema.header.freeHead = -1 ↔ free = []) (hnodup : free.Nodup)
    (hapart : ∀ o ∈ (BTree.descs T.2).map Desc.label, o ∉ free)
    (hothers : ∀ o ∈ live, o ∉ free ∧ o ∉ (BTree.descs T.2).map Desc.label) : Droppable s name ndx T free live := by
  have hview : ∀ d ∈ BTree.descs T.2, (s.loaded name).view d.label = s.view d.label := by
    intro d hd
    obtain ⟨v, hv, -⟩ := (h.rep.holds d hd).reads
    rw [hv, Tree.loaded_view hv]
  have hrep := h.rep.frame hview
  refine ⟨⟨h.index, h.root, ⟨hrep.holds, hrep.nodup, hrep.fwd, fun _ => False.elim⟩⟩, ⟨lo, hi, hshape⟩, ?_, hlist, hhead, hnodup,
    hapart, hothers⟩
  have hbwd := hrep.bwd T.1 trivial
  have hlevel : level T.1 (BTree.descs T.2) = [BTree.label T.2] := by
    rw [BTree.descs_eq, level_cons, if_pos (BTree.height_rootDesc T.2), BTree.label_rootDesc,
      level_eq_nil (BTree.height_lt T.2)]
  rw [treeDescs, hlevel] at hbwd
  exact hbwd.1

theorem freedBefore_of_view {s : Tree} {o : ℤ} {v : View} (hv : s.view o = some v) : s.freedBefore o = siblingOf v.prev := by
  obtain ⟨nd, b, -, hb, rfl⟩ := Tree.view_eq_some.mp hv
  simp [Tree.freedBefore, Tree.block, hb]

/-- What is linked to the root: what was the last block of the free list, or nothing. -/
theorem of_linkRoot {name : String} {o : ℤ} {s s' : Tree} (h : linkRoot name o s = .ok () s') (ha : Aligned o)
    (hn : (s.node o).isSome) :
    s'.freedBefore o = (if s.schema.header.freeHead = -1 then s.freedBefore o else siblingOf s.schema.header.freeTail) ∧
      (∀ o', o' ≠ o → s'.freedBefore o' = s.freedBefore o') ∧ ∀ o', (s.block o').isSome → (s'.block o').isSome := by
  rw [linkRoot, run_bind (getHeader_eq s)] at h
  split at h
  · rename_i hfree
    obtain ⟨-, rfl⟩ := EStateM.Result.ok.inj h
    rw [if_pos hfree]
    exact ⟨rfl, fun _ _ => rfl, fun _ h => h⟩
  · rename_i hfree
    have hderef : deref (some o) s = .ok o s := rfl
    rw [run_bind (getNode_of_node ha hn name), run_bind hderef, run_bind (getHeader_eq s)] at h
    obtain ⟨_, s1, h1, k1⟩ := of_run_bind h
    obtain ⟨f1, hprev⟩ := of_setPrevSiblingOffset h1
    have f2 : ∀ U, LinkFrame U s1 s' := fun U => splices_flush o _ _ _ k1
    have f := f1.trans (f2 _)
    rw [if_neg hfree]
    exact ⟨((f2 fun _ => False).before o id).trans hprev, f.before, f.there⟩

/-- The root can always be linked. -/
theorem linkRoot_ok {s : Tree} {o : ℤ} {v : View} (ha : Aligned o) (hv : s.view o = some v) (name : String) :
    ∃ s', linkRoot name o s = .ok () s' := by
  rw [linkRoot, run_bind (getHeader_eq s)]
  split
  · exact ⟨_, rfl⟩
  · have hderef : deref (some o) s = .ok o s := rfl
    rw [run_bind (getNode_eq ha hv name), run_bind hderef, run_bind (getHeader_eq s)]
    obtain ⟨s1, h1, w1⟩ := setPrevSiblingOffset_spec hv s.schema.header.freeTail
    obtain ⟨s2, h2, -⟩ := flush_spec w1.view
    exact ⟨s2, (run_bind h1).trans h2⟩

theorem freeTail_removeIndex (sch : Schema) (name : String) :
    (sch.removeIndex name).header.freeTail = sch.header.freeTail := by
  rw [Schema.removeIndex]
  split
  · rfl
  · split
    · rfl
    · rfl

/-- The parts of a run. -/
theorem of_removeIndex {name : String} {fuel : ℕ} {s s' : Tree} {ndx : Index} (h : removeIndex fuel name s = .ok () s')
    (hi : s.schema.getIndex name = some ndx) (hroot : ¬ndx.root < 0) :
    ∃ head s1 t s2 s3, getNode name ndx.root s = .ok head s1 ∧ spliceLevels name fuel head head s1 = .ok (some t) s2 ∧
      linkRoot name ndx.root s2 = .ok () s3 ∧ s'.schema.header.freeTail = t ∧ ∀ o, s'.block o = s3.block o := by
  rw [removeIndex, run_bind (getIndex_eq hi), if_neg hroot, run_bind (getIndex_eq hi)] at h
  obtain ⟨head, s1, h1, k1⟩ := of_run_bind h
  obtain ⟨tail, s2, h2, k2⟩ := of_run_bind k1
  obtain ⟨_, s3, h3, k3⟩ := of_run_bind k2
  obtain ⟨t, s4, h4, k4⟩ := of_run_bind k3
  obtain ⟨rfl, rfl⟩ := of_deref h4
  obtain ⟨-, rfl⟩ := EStateM.Result.ok.inj k4
  exact ⟨head, s1, t, s2, _, h1, h2, h3, freeTail_removeIndex _ name, fun _ => rfl⟩

/-! ### What becomes free -/

/-- A tree whose root is not a leaf has at least three nodes. -/
theorem three_le_nodes {h : ℕ} {T : BlockTree (h + 1)} {lo hi : ℕ} (hs : BTree.Shape 1 lo hi T) :
    3 ≤ (BTree.descs T).length := by
  obtain ⟨l, ks, cs⟩ := T
  obtain ⟨hks, hcs, -⟩ := BTree.shape_inner.mp hs
  obtain ⟨c, c', cs', rfl⟩ : ∃ c c' cs', cs = c :: c' :: cs' := by
    match cs, hcs with
    | c :: c' :: cs', _ => exact ⟨c, c', cs', rfl⟩
    | [_], hcs =>
      simp only [List.length_singleton] at hcs
      omega
  rw [BTree.descs_inner, List.flatMap_cons, List.flatMap_cons, BTree.descs_eq c, BTree.descs_eq c']
  simp only [List.length_cons, List.length_append]
  omega

section Droppable

variable {s : Tree} {name : String} {ndx : Index} {T : (h : ℕ) × BlockTree h} {free live : List ℤ}

/-- The root as it is read. -/
theorem Droppable.root (h : Droppable s name ndx T free live) : ∃ s1 nd, getNode name ndx.root s = .ok (some ndx.root) s1 ∧
    Aligned ndx.root ∧ s1.node ndx.root = some nd ∧ (nd.isLeaf = true ↔ T.1 = 0) ∧ s1.freedBefore ndx.root = none ∧
      (∀ U, LinkFrame U s s1) ∧ ∃ v, s1.view ndx.root = some v := by
  obtain ⟨h0, T⟩ := T
  have hroot : ndx.root = BTree.label T := h.index.root
  have hd : BTree.rootDesc T ∈ BTree.descs T := by simp [BTree.descs_eq]
  have hold := h.index.rep.holds _ hd
  obtain ⟨v, hv, hreads⟩ := hold.reads
  have ha := hold.aligned
  rw [BTree.label_rootDesc, ← hroot] at hv ha
  obtain ⟨s1, h1, hv1, -⟩ := getNode_loaded ha hv
  have hprev := freedBefore_of_view hv1
  obtain ⟨nd, -, hn, hleaf, -, -⟩ := nodeAt_eq hv1
  obtain ⟨-, f1⟩ := of_getNode h1
  have htop := h.top
  rw [← hroot, Tree.prevOf_eq hv] at htop
  have hinner : nd.isLeaf = true ↔ h0 = 0 := by
    rw [hleaf, reads_isLeaf hreads]
    cases h0 <;> simp [BTree.rootDesc, Desc.isLeaf]
  exact ⟨s1, nd, h1, ha, hn, hinner, hprev.trans htop, f1, v, hv1⟩

/-- After the root has been linked it leads to the first block of the free list. -/
theorem Droppable.linked (h : Droppable s name ndx T free live) {s2 s3 : Tree} (hs : s2.schema = s.schema)
    (hprev : s2.freedBefore ndx.root = none)
    (h3 : s3.freedBefore ndx.root =
      if s2.schema.header.freeHead = -1 then s2.freedBefore ndx.root else siblingOf s2.schema.header.freeTail) :
    s3.freedBefore ndx.root = free.head? := by
  rw [h3, hs, hprev]
  split
  · rename_i hfree
    rw [h.head.mp hfree]
    rfl
  · rename_i hfree
    have htail := h.list.tail
    split at htail
    · exact absurd (h.head.mpr (List.head?_eq_none_iff.mp htail.symm)) hfree
    · rename_i hneg
      rw [siblingOf, if_neg, htail]
      rintro he
      rw [he] at hneg
      exact hneg (by decide)

/-- If the root is not a leaf, a run that ends puts two blocks on the free list. -/
theorem Droppable.leaf_of_dropped (h : Droppable s name ndx T free live) {fuel : ℕ} {s' : Tree}
    (hrun : removeIndex fuel name s = .ok () s') (hdrop : Dropped s' free ((BTree.descs T.2).map Desc.label) live) :
    T.1 = 0 := by
  obtain ⟨s1, nd, h1, ha, hn, hleaf, hprev, f1, v, hv⟩ := h.root
  have hroot : ¬ndx.root < 0 := not_lt.mpr ha.1
  have hi : s.schema.getIndex name = some ndx := h.index.index
  obtain ⟨l, hl, hperm, hnd, -⟩ := hdrop
  by_contra hT
  obtain ⟨head, s1', t, s2, s3, k1, k2, k3, ht, hb⟩ := of_removeIndex hrun hi hroot
  obtain ⟨rfl, rfl⟩ := EStateM.Result.ok.inj (h1.symm.trans k1)
  obtain ⟨hne, htail, f2, hzero⟩ := spliceLevels_inner k2 hn (by simpa using hleaf.not.mpr hT)
  obtain rfl : t = 0 := Option.some.inj htail
  obtain ⟨m1, m2, m3⟩ := of_linkRoot k3 ha (by simp [f2.node _ nd hn])
  have hlinked := h.linked (f2.schema.trans (f1 fun _ => False).schema) ((f2.before _ hne).trans hprev) m1
  have hbefore : ∀ o, s'.freedBefore o = s3.freedBefore o := fun o => by rw [Tree.freedBefore, Tree.freedBefore, hb]
  -- The list begins with the block at 0 and the root.
  have h0 := hl.tail
  rw [ht, if_neg (by decide)] at h0
  obtain ⟨l, rfl⟩ := List.head?_eq_some_iff.mp h0.symm
  have hw := hl.linked.1
  rw [hbefore, m2 0 hne.symm, hzero, siblingOf, if_neg ha.ne_invalid] at hw
  obtain ⟨l, rfl⟩ := List.head?_eq_some_iff.mp hw.symm
  -- What comes behind them is the old list.
  have hrest := hl.linked.2.2
  have hsame : ∀ o ∈ l, s.freedBefore o = s'.freedBefore o := by
    intro o ho
    have hnd' := List.nodup_cons.mp hnd
    have ho0 : o ≠ 0 := by
      rintro rfl
      exact hnd'.1 (List.mem_cons_of_mem _ ho)
    have hor : o ≠ ndx.root := by
      rintro rfl
      exact (List.nodup_cons.mp hnd'.2).1 ho
    rw [hbefore, m2 o hor, f2.before o ho0, (f1 fun _ => False).before o id]
  have hhead : l.head? = free.head? := by rw [← hlinked, ← hbefore, hl.linked.2.1]
  obtain rfl := (hrest.congr hsame).unique h.list.linked hhead
  have hlen := hperm.length_eq
  obtain ⟨lo, hi, hshape⟩ := h.shape
  obtain ⟨_ | h0, T⟩ := T
  · exact hT rfl
  · have : 3 ≤ (BTree.descs T).length := three_le_nodes hshape
    simp only [List.length_cons, List.length_append, List.length_map] at hlen
    omega

/-- If the root is a leaf, it is put on the free list. -/
theorem Droppable.dropped (h : Droppable s name ndx T free live) (hT : T.1 = 0) :
    ∃ s' n, (∀ fuel, n ≤ fuel → removeIndex fuel name s = .ok () s') ∧
      Dropped s' free ((BTree.descs T.2).map Desc.label) live := by
  obtain ⟨s1, nd, h1, ha, hn, hleaf, hprev, f1, v, hv⟩ := h.root
  have hroot : ¬ndx.root < 0 := not_lt.mpr ha.1
  have hi : s.schema.getIndex name = some ndx := h.index.index
  have hlabel : ndx.root = BTree.label T.2 := h.index.root
  have hloop : ∀ fuel, spliceLevels name (fuel + 1) (some ndx.root) (some ndx.root) s1 = .ok (some ndx.root) s1 := by
    intro fuel
    obtain ⟨nd', hnd', hn', -⟩ := nodeAt_eq hv
    obtain rfl : nd = nd' := by simpa [hn] using hn'
    rw [spliceLevels, run_bind hnd', if_pos (hleaf.mpr hT), run_pure]
  obtain ⟨s3, k3⟩ := linkRoot_ok ha hv name
  obtain ⟨m1, m2, m3⟩ := of_linkRoot k3 ha (by simp [hn])
  have hlinked := h.linked (f1 fun _ => False).schema hprev m1
  have hbefore : ∀ o, o ≠ ndx.root → s3.freedBefore o = s.freedBefore o := fun o ho =>
    (m2 o ho).trans ((f1 fun _ => False).before o id)
  have hnodes : (BTree.descs T.2).map Desc.label = [ndx.root] := by
    obtain ⟨h0, T⟩ := T
    subst hT
    rw [hlabel]
    rfl
  have hfree : ndx.root ∉ free := h.apart _ (by simp [hnodes])
  obtain ⟨s', hs'⟩ : ∃ s', s' = { s3 with
    schema := ({ s3.schema with header := { s3.schema.header with freeTail := ndx.root } } : Schema).removeIndex name } := ⟨_, rfl⟩
  have htail : s'.schema.header.freeTail = ndx.root := by rw [hs', freeTail_removeIndex]
  have hbefore' : ∀ o, s'.freedBefore o = s3.freedBefore o := fun o => by rw [hs']; rfl
  refine ⟨s', 1, fun fuel hfuel => ?_, ndx.root :: free, ⟨?_, ⟨?_, ?_⟩, fun o ho => ?_⟩, ?_, ?_, fun o ho => ?_⟩
  · obtain ⟨fuel, rfl⟩ := Nat.exists_eq_add_of_le' hfuel
    rw [removeIndex, run_bind (getIndex_eq hi), if_neg hroot, run_bind (getIndex_eq hi), run_bind h1,
      run_bind (hloop fuel), run_bind k3, hs']
    rfl
  · rw [htail, if_neg hroot]
    rfl
  · rw [hbefore', hlinked]
  · refine h.list.linked.congr fun o ho => ?_
    rw [hbefore', hbefore o fun e => hfree (e ▸ ho)]
  · have hold : (s1.block o).isSome := by
      rcases List.mem_cons.mp ho with rfl | ho
      · obtain ⟨b, -, hb, -⟩ := buffer_eq hv
        simp [Tree.block, hb]
      · exact (f1 fun _ => False).there o (h.list.there o ho)
    rw [hs']
    exact m3 o hold
  · rw [hnodes]
    exact List.perm_append_singleton .. |>.symm
  · exact List.nodup_cons.mpr ⟨hfree, h.nodup⟩
  · obtain ⟨h1, h2⟩ := h.others o ho
    rw [hnodes] at h2
    simpa [not_or] using ⟨by simpa using h2, h1⟩

/-- All blocks of an index become free if and only if its root is a leaf. -/
theorem removeIndex_frees_iff (h : Droppable s name ndx T free live) :
    (∃ s' n, (∀ fuel, n ≤ fuel → removeIndex fuel name s = .ok () s') ∧
      Dropped s' free ((BTree.descs T.2).map Desc.label) live) ↔ T.1 = 0 := by
  constructor
  · rintro ⟨s', n, hrun, hdrop⟩
    exact h.leaf_of_dropped (hrun n le_rfl) hdrop
  · exact h.dropped

end Droppable

/-! ### A table of four rows -/

/-- A key of 8000 bytes. -/
def nameKey (b : Byte) : Key := List.replicate 8000 b

/-- The block of a node. -/
def nodeBlock (leaf : Bool) (prev next : ℤ) (refs : List ℤ) (keys : List Key) (n : ℤ) : Block where
  head := .node leaf n
  prev := prev
  next := next
  rowHead := 0
  rowTail := 0
  slots := fun i => ⟨refs.getD i 0, keys.getD i []⟩
  bytes := fun _ => 0

/-- A table of four rows, all in the block at 0, with a second index `NDX_001` whose root has become full
with the third row: its nodes are at 65536, 98304 and 131072. -/
def nameTable : Tree where
  schema := ⟨⟨2, 2, 4, 0, 163840, 0, 0, -1, -1⟩, [],
    [⟨"NDX_000", 1818, 10, 32768, ["id"]⟩, ⟨"NDX_001", 4, 8000, 98304, ["name"]⟩]⟩
  cache := fun o =>
    if o = 65536 then some (nodeBlock true invalidSiblingRef 131072 [24, 8064] [nameKey 1, nameKey 2] 2)
    else if o = 131072 then some (nodeBlock true 65536 invalidSiblingRef [16104, 24144] [nameKey 3, nameKey 4] 2)
    else if o = 98304 then some (nodeBlock false invalidSiblingRef invalidSiblingRef [65536, 131072] [nameKey 2] 1)
    else if o = 0 then some { Block.zero with head := .data 584, prev := invalidSiblingRef, next := invalidSiblingRef }
    else none
  flushList := []
  disk := fun _ => none
  node := fun o =>
    if o = 65536 ∨ o = 131072 then some ⟨true, false, 2, "NDX_001"⟩
    else if o = 98304 then some ⟨false, false, 1, "NDX_001"⟩
    else none
  data := fun o => o = 0

/-- The leaves of `NDX_001`. -/
def nameTableLeaves : List (BlockTree 0) :=
  [⟨65536, [(nameKey 1, 24), (nameKey 2, 8064)]⟩, ⟨131072, [(nameKey 3, 16104), (nameKey 4, 24144)]⟩]

/-- The tree of `NDX_001`. -/
def nameTableTree : BlockTree 1 := ⟨98304, [nameKey 2], nameTableLeaves⟩

theorem nameTable_descs : BTree.descs nameTableTree = [.inner 98304 1 [nameKey 2] [65536, 131072],
    .leaf 65536 [(nameKey 1, 24), (nameKey 2, 8064)], .leaf 131072 [(nameKey 3, 16104), (nameKey 4, 24144)]] := rfl

/-- The nodes have been read. -/
theorem view_nameTable {o : ℤ} {nd : Node} {b : Block} (hn : nameTable.node o = some nd) (hc : nameTable.cache o = some b) :
    (nameTable.loaded "NDX_001").view o = some ⟨nd.isLeaf, nd.numKey, nd.ndxName, b.slots, b.prev, b.next⟩ := by
  simp [Tree.view, Tree.loaded, hn, hc]

/-- The slots of a leaf hold its elements. -/
theorem slots_nodeBlock (prev next n : ℤ) {es : List (Key × ℤ)} {i : ℕ} {e : Key × ℤ} (h : es[i]? = some e) :
    (nodeBlock true prev next (es.map Prod.snd) (es.map Prod.fst) n).slots i = ⟨e.2, e.1⟩ := by
  simp [nodeBlock, List.getD_eq_getElem?_getD, h]

theorem nameTable_holds : ∀ d ∈ BTree.descs nameTableTree, Holds (nameTable.loaded "NDX_001") "NDX_001" 8000 d := by
  have hlength : ∀ b, (nameKey b).length = 8000 := fun b => List.length_replicate
  intro d hd
  rw [nameTable_descs] at hd
  simp only [List.mem_cons, List.not_mem_nil, or_false] at hd
  rcases hd with rfl | rfl | rfl
  · refine ⟨by decide, ⟨_, view_nameTable rfl rfl, rfl, rfl, rfl, fun i k hk => ?_, fun i c hc => ?_⟩, by simp [descKeys, hlength]⟩
    · simp [nodeBlock, List.getD_eq_getElem?_getD, hk]
    · simp [nodeBlock, List.getD_eq_getElem?_getD, hc]
  · exact ⟨by decide, ⟨_, view_nameTable rfl rfl, rfl, rfl, rfl, fun i e he => slots_nodeBlock invalidSiblingRef 131072 2 he⟩, by simp [descKeys, hlength]⟩
  · exact ⟨by decide, ⟨_, view_nameTable rfl rfl, rfl, rfl, rfl, fun i e he => slots_nodeBlock 65536 invalidSiblingRef 2 he⟩, by simp [descKeys, hlength]⟩

theorem nameTable_droppable :
    Droppable nameTable "NDX_001" ⟨"NDX_001", 4, 8000, 98304, ["name"]⟩ ⟨1, nameTableTree⟩ [] [0] where
  index := by
    refine ⟨by simp [Schema.getIndex, nameTable, Tree.loaded], rfl, nameTable_holds, by decide, fun g => ?_, fun _ => False.elim⟩
    have h1 : (nameTable.loaded "NDX_001").nextOf 65536 = some 131072 := by
      rw [Tree.nextOf_eq (view_nameTable rfl rfl)]
      rfl
    have h2 : (nameTable.loaded "NDX_001").nextOf 131072 = none := by
      rw [Tree.nextOf_eq (view_nameTable rfl rfl)]
      rfl
    have h3 : (nameTable.loaded "NDX_001").nextOf 98304 = none := by
      rw [Tree.nextOf_eq (view_nameTable rfl rfl)]
      rfl
    rw [treeDescs, nameTable_descs]
    rcases g with _ | _ | g
    · exact ⟨h1, h2, trivial⟩
    · exact ⟨h3, trivial⟩
    · simp [Fwd]
  shape := by
    refine ⟨0, 3, ⟨Nat.le_refl 1, Nat.le_add_left 1 2⟩, rfl, fun c hc => ?_⟩
    rcases List.mem_cons.mp hc with rfl | hc
    · exact BTree.shape_leaf.mpr ⟨Nat.zero_le _, Nat.le_add_left 2 1⟩
    · obtain rfl := List.mem_singleton.mp hc
      exact BTree.shape_leaf.mpr ⟨Nat.zero_le _, Nat.le_add_left 2 1⟩
  top := by
    rw [Tree.prevOf_eq (view_nameTable rfl rfl)]
    rfl
  list := ⟨rfl, trivial, by simp⟩
  head := by simp [nameTable]
  nodup := List.nodup_nil
  apart := by simp
  others := by decide

/-- With four rows nothing becomes free: `remove_index` ends with an error. -/
theorem removeIndex_frees_nameTable : ¬∃ s' n, (∀ fuel, n ≤ fuel → removeIndex fuel "NDX_001" nameTable = .ok () s') ∧
    Dropped s' [] ((BTree.descs nameTableTree).map Desc.label) [0] :=
  (removeIndex_frees_iff nameTable_droppable).not.mpr (by decide)

theorem removeIndex_loses_nodes : ¬∀ (s : Tree) (name : String) (ndx : Index) (T : (h : ℕ) × BlockTree h)
    (free live : List ℤ), Droppable s name ndx T free live →
      ∃ s' n, (∀ fuel, n ≤ fuel → removeIndex fuel name s = .ok () s') ∧
        Dropped s' free ((BTree.descs T.2).map Desc.label) live := by
  intro h
  obtain ⟨s', n, hrun, hdrop⟩ := h _ _ _ _ _ _ nameTable_droppable
  exact absurd (nameTable_droppable.leaf_of_dropped (hrun n le_rfl) hdrop) (by decide)

end RedB
