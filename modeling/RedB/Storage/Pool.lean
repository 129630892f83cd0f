import RedB.Storage.Tree

/-!
# The blocks that can be handed out

`tree::next_offset` takes the block that was put on the free list last, and when the
free list is empty the block at the end of the file. After either it takes the end of
the file to be behind the block it has just handed out.

`Pool s fs lim` says that the offsets handed out from `s` on will be those of `fs`, one
after the other, and then `lim` and the blocks behind it, and that all of these are
different. It holds when the free list is empty; with a free list it holds exactly if
the block freed first lies behind all others on the list.
-/

namespace RedB

/-- The block that `get_block` gives while the end of the file is taken to be `next`. -/
def Tree.blockAt (s : Tree) (next o : ℤ) : Option Block :=
  match s.cache o with
  | some b => some b
  | none => if o ≥ next then none else s.disk o

/-- The free list from `tail` on, `next` being the end of the file when it is used. -/
def FreeChain (s : Tree) : ℤ → ℤ → List ℤ → Prop
  | _, tail, [] => tail < 0
  | next, tail, f :: fs => tail = f ∧ Aligned f ∧ ∃ b, s.blockAt next f = some b ∧
      FreeChain s (f + bufferSz) (if b.prev = invalidSiblingRef then -1 else b.prev) fs

/-- The end of the file after the blocks of the free list have been handed out. -/
def limOf (next : ℤ) : List ℤ → ℤ
  | [] => next
  | f :: fs => limOf (f + bufferSz) fs

/-- The offsets that will be handed out: those of `fs`, then `lim` and all behind it. -/
structure Pool (s : Tree) (fs : List ℤ) (lim : ℤ) : Prop where
  /-- The free list is `fs`. -/
  chain : FreeChain s s.schema.header.nextOffset s.schema.header.freeTail fs
  /-- The end of the file. -/
  limit : limOf s.schema.header.nextOffset fs = lim
  /-- The end of the file is a block boundary. -/
  aligned : Aligned s.schema.header.nextOffset
  /-- No block is twice on the free list. -/
  nodup : fs.Nodup
  /-- The free blocks are before the end of the file. -/
  lt : ∀ f ∈ fs, f < lim

/-- The offsets as a stream. -/
def stream (fs : List ℤ) (lim : ℤ) : ℕ → ℤ := fun i =>
  match fs[i]? with
  | some f => f
  | none => lim + ((i - fs.length : ℕ) : ℤ) * bufferSz

/-- What is left of the free list. -/
def restFree (fs : List ℤ) : List ℤ := fs.tail

/-- The end of the file after one more block has been handed out. -/
def restLim (fs : List ℤ) (lim : ℤ) : ℤ := if fs = [] then lim + bufferSz else lim

theorem stream_succ (fs : List ℤ) (lim : ℤ) (i : ℕ) :
    stream fs lim (i + 1) = stream (restFree fs) (restLim fs lim) i := by
  cases fs with
  | nil =>
    simp [stream, restFree, restLim]
    ring
  | cons f fs => simp [stream, restFree, restLim]

/-- The used blocks are not handed out again. -/
structure Outside (U : List ℤ) (fs : List ℤ) (lim : ℤ) : Prop where
  /-- They are not on the free list. -/
  notMem : ∀ u ∈ U, u ∉ fs
  /-- They are before the end of the file. -/
  lt : ∀ u ∈ U, u < lim

theorem Outside.mono {U U' fs : List ℤ} {lim : ℤ} (h : Outside U fs lim) (hs : ∀ u ∈ U', u ∈ U) :
    Outside U' fs lim :=
  ⟨fun u hu => h.notMem u (hs u hu), fun u hu => h.lt u (hs u hu)⟩

theorem Outside.stream_zero {U fs : List ℤ} {lim : ℤ} (h : Outside U fs lim) : stream fs lim 0 ∉ U := by
  intro hU
  cases fs with
  | nil => exact absurd (h.lt _ hU) (by simp [stream])
  | cons f fs => exact h.notMem _ hU (by simp [stream])

/-- The block handed out is used from then on. -/
theorem Outside.cons {s : Tree} {U fs : List ℤ} {lim : ℤ} (h : Outside U fs lim) (hp : Pool s fs lim) :
    Outside (stream fs lim 0 :: U) (restFree fs) (restLim fs lim) := by
  cases fs with
  | nil =>
    refine ⟨by simp [restFree], fun u hu => ?_⟩
    simp only [stream, restLim, List.getElem?_nil, List.length_nil, if_true, bufferSz] at hu ⊢
    rcases List.mem_cons.mp hu with rfl | hu
    · simp
    · have := h.lt u hu
      omega
  | cons f fs =>
    have hn := List.nodup_cons.mp hp.nodup
    refine ⟨fun u hu => ?_, fun u hu => ?_⟩
    · rcases List.mem_cons.mp hu with rfl | hu
      · simpa [stream, restFree] using hn.1
      · exact fun hf => h.notMem u hu (List.mem_cons_of_mem f hf)
    · simp only [restLim, if_neg (List.cons_ne_nil f fs)]
      rcases List.mem_cons.mp hu with rfl | hu
      · exact hp.lt _ (List.mem_cons_self ..)
      · exact h.lt u hu

/-- Without a free list the blocks handed out are those from the end of the file on. -/
theorem pool_nil {s : Tree} (hf : s.schema.header.freeTail < 0) (ha : Aligned s.schema.header.nextOffset) :
    Pool s [] s.schema.header.nextOffset :=
  ⟨hf, rfl, ha, List.nodup_nil, by simp⟩

theorem freeChain_congr {s s' : Tree} {next tail : ℤ} {fs : List ℤ} (h : FreeChain s next tail fs)
    (hb : ∀ f ∈ fs, s'.cache f = s.cache f ∧ s'.disk f = s.disk f) : FreeChain s' next tail fs := by
  induction fs generalizing next tail with
  | nil => exact h
  | cons f fs ih =>
    obtain ⟨ht, ha, b, hbl, hc⟩ := h
    obtain ⟨h1, h2⟩ := hb f (List.mem_cons_self ..)
    refine ⟨ht, ha, b, ?_, ih hc fun g hg => hb g (List.mem_cons_of_mem f hg)⟩
    rwa [Tree.blockAt, h1, h2]

/-- What happens to used blocks does not matter to the pool. -/
theorem Pool.congr {s s' : Tree} {fs : List ℤ} {lim : ℤ} (h : Pool s fs lim)
    (hn : s'.schema.header.nextOffset = s.schema.header.nextOffset)
    (ht : s'.schema.header.freeTail = s.schema.header.freeTail)
    (hb : ∀ f ∈ fs, s'.cache f = s.cache f ∧ s'.disk f = s.disk f) : Pool s' fs lim where
  chain := by
    rw [hn, ht]
    exact freeChain_congr h.chain hb
  limit := by rw [hn]; exact h.limit
  aligned := by rw [hn]; exact h.aligned
  nodup := h.nodup
  lt := h.lt

/-- The offset handed out next is that of a block. -/
theorem Pool.aligned_zero {s : Tree} {fs : List ℤ} {lim : ℤ} (h : Pool s fs lim) : Aligned (stream fs lim 0) := by
  cases fs with
  | nil =>
    have : lim = s.schema.header.nextOffset := h.limit.symm
    simpa [stream, this] using h.aligned
  | cons f fs => exact h.chain.2.1

/-! ### Handing out a block -/

theorem getHeader_eq (s : Tree) : getHeader s = .ok s.schema.header s := rfl

theorem modifyHeader_eq (f : Header → Header) (s : Tree) :
    modifyHeader f s = .ok () { s with schema := { s.schema with header := f s.schema.header } } := rfl

/-- `s'` is `s` after the block at `f` has been handed out: of the schema the free list and
the end of the file have changed, and the block may have been loaded. -/
structure Handed (s : Tree) (f : ℤ) (s' : Tree) : Prop where
  /-- The end of the file is taken to be behind the block. -/
  schema : ∃ fh ft, s'.schema =
    { s.schema with
      header := { s.schema.header with nextOffset := f + bufferSz, freeHead := fh, freeTail := ft } }
  /-- The node objects. -/
  node : s'.node = s.node
  /-- The other blocks. -/
  cache : ∀ o, o ≠ f → s'.cache o = s.cache o
  /-- The file. -/
  disk : s'.disk = s.disk
  /-- The data objects. -/
  data : s'.data = s.data

/-- A block of the free list is in the cache or can be loaded. -/
theorem getBlock_free {s : Tree} {f : ℤ} {b : Block} (ha : Aligned f)
    (hb : s.blockAt s.schema.header.nextOffset f = some b) : ∃ s', getBlock f s = .ok (some b) s' ∧
      s'.schema = s.schema ∧ s'.node = s.node ∧ (∀ o, o ≠ f → s'.cache o = s.cache o) ∧ s'.disk = s.disk ∧
      s'.data = s.data := by
  rw [Tree.blockAt] at hb
  cases hc : s.cache f with
  | some b' =>
    rw [hc] at hb
    obtain rfl : b' = b := by simpa using hb
    refine ⟨s, ?_, rfl, rfl, fun _ _ => rfl, rfl, rfl⟩
    rw [getBlock, if_neg ha.not_bad, run_bind (run_get s), hc]
    rfl
  | none =>
    rw [hc] at hb
    by_cases hn : f ≥ s.schema.header.nextOffset
    · simp [if_pos hn] at hb
    · simp only [if_neg hn] at hb
      refine ⟨{ s with cache := Function.update s.cache f (some b) }, ?_, rfl, rfl, fun o ho => ?_, rfl, rfl⟩
      · rw [getBlock, if_neg ha.not_bad, run_bind (run_get s), hc]
        simp only
        rw [loadBlock, run_bind (run_get s), if_neg hn, hb]
        rfl
      · exact Function.update_of_ne ho _ _

/-- `next_offset` hands out the block that comes next and leaves the pool of the others. -/
theorem nextOffset_spec {s : Tree} {fs : List ℤ} {lim : ℤ} (h : Pool s fs lim) : ∃ s',
    nextOffset false s = .ok (stream fs lim 0) s' ∧ Handed s (stream fs lim 0) s' ∧
      Pool s' (restFree fs) (restLim fs lim) := by
  cases fs with
  | nil =>
    have hlim : s.schema.header.nextOffset = lim := h.limit
    have htail : s.schema.header.freeTail < 0 := h.chain
    have h0 : stream [] lim 0 = s.schema.header.nextOffset := by simp [stream, hlim]
    have hoff : getOffset s = .ok (stream [] lim 0) s := by
      rw [getOffset, run_bind (getHeader_eq s), if_pos htail, run_bind (getHeader_eq s), h0]
      rfl
    refine ⟨_, (run_bind hoff).trans (run_bind (modifyHeader_eq _ s)), ⟨⟨_, _, rfl⟩, rfl, fun _ _ => rfl, rfl, rfl⟩, ?_⟩
    refine ⟨htail, ?_, ?_, List.nodup_nil, by simp [restFree]⟩
    · simp [restFree, restLim, limOf, stream]
    · rw [h0]
      exact h.aligned.next
  | cons f fs =>
    obtain ⟨htail, ha, b, hb, hc⟩ := h.chain
    obtain ⟨s1, h1, hschema, hnode, hcache, hdisk, hdata⟩ := getBlock_free ha hb
    have hn := List.nodup_cons.mp h.nodup
    have hlim : limOf (f + bufferSz) fs = lim := h.limit
    have hge : ¬s.schema.header.freeTail < 0 := by
      rw [htail]
      exact not_lt.mpr ha.1
    have h0 : stream (f :: fs) lim 0 = f := rfl
    have hfc : FreeChain s1 (f + bufferSz) (if b.prev = invalidSiblingRef then -1 else b.prev) fs :=
      freeChain_congr hc fun g hg => ⟨hcache g (fun e => hn.1 (e ▸ hg)), by rw [hdisk]⟩
    have hlt : ∀ g ∈ fs, g < lim := fun g hg => h.lt g (List.mem_cons_of_mem f hg)
    by_cases hp : b.prev = invalidSiblingRef
    · have hoff : getOffset s = .ok f
          { s1 with schema := { s1.schema with header := { s1.schema.header with freeHead := -1, freeTail := -1 } } } := by
        rw [getOffset, run_bind (getHeader_eq s), if_neg hge, htail, run_bind h1]
        simp only [if_pos hp]
        rfl
      rw [if_pos hp] at hfc
      refine ⟨_, (run_bind hoff).trans (run_bind (modifyHeader_eq _ _)), ⟨⟨-1, -1, ?_⟩, hnode, hcache, hdisk, hdata⟩, ?_⟩
      · simp only [hschema, h0]
      · exact ⟨freeChain_congr hfc fun _ _ => ⟨rfl, rfl⟩, hlim, ha.next, hn.2, hlt⟩
    · have hoff : getOffset s = .ok f
          { s1 with schema := { s1.schema with header := { s1.schema.header with freeTail := b.prev } } } := by
        rw [getOffset, run_bind (getHeader_eq s), if_neg hge, htail, run_bind h1]
        simp only [if_neg hp]
        rfl
      rw [if_neg hp] at hfc
      refine ⟨_, (run_bind hoff).trans (run_bind (modifyHeader_eq _ _)), ⟨⟨s.schema.header.freeHead, b.prev, ?_⟩, hnode, hcache, hdisk, hdata⟩, ?_⟩
      · simp only [hschema, h0]
      · exact ⟨freeChain_congr hfc fun _ _ => ⟨rfl, rfl⟩, hlim, ha.next, hn.2, hlt⟩

end RedB
