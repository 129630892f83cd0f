import RedB.Btree.Access
import RedB.Rows.Store
import RedB.Storage.Pool
import RedB.Theory.Links
import RedB.Theory.Members

/-!
# The rows of a table, block by block

The blocks of rows are linked by their sibling fields, from the root on. `Pages` says which rows they
have, and `Rooms` that the offsets that are handed out next are not theirs. A row goes behind all others,
into the last block or into a new one (`Rooms.store`). A row that is unlinked is taken out from among the
others (`Rooms.unlink`).
-/

namespace RedB.Rows

open Runs Buffer Ddl Rings Links

/-! ### Members of `tree` -/

/-- What the members of `tree` see of a table. -/
def tree (t : Ddl.Table) : Tree := ⟨t.schema.toTree, t.cache, t.flushList, t.disk, t.node, t.data⟩

/-- The table behind a run of a member of `tree`. -/
def ofTree (t : Ddl.Table) (s : Tree) : Ddl.Table := ⟨t.schema.ofTree s.schema, s.cache, s.flushList, s.disk, s.node, s.data⟩

variable {t t' : Ddl.Table} {o f : ℤ} {blk : Block} {fs : List ℤ} {lim : ℤ} {q : ℕ} {r : RowBytes}

theorem onTree_run {α : Type} {x : M α} {a : α} {s : Tree} (h : x (tree t) = .ok a s) : onTree x t = .ok a (ofTree t s) := by
  rw [tree] at h
  rw [onTree, h]
  rfl

/-- The indexes are as before if their roots are. -/
theorem ofTree_index {sch : Ddl.Schema} (hn : (sch.index.map Ddl.Index.name).Nodup) {s : RedB.Schema} (h : s.index = sch.toTree.index) :
    (sch.ofTree s).index = sch.index := by
  refine (List.map_congr_left fun ndx hm => ?_).trans (List.map_id _)
  have hnames : (s.index.map RedB.Index.name).Nodup := by
    rw [h]
    show ((sch.index.map _).map RedB.Index.name).Nodup
    rw [List.map_map]
    have hmap := hn.map (f := String.ofList) fun a b hab => by simpa using congrArg String.toList hab
    rwa [List.map_map] at hmap
  obtain ⟨i, hi, hname, hroot⟩ : ∃ i ∈ s.index, i.name = String.ofList ndx.name ∧ i.root = ndx.root := by
    rw [h]
    exact ⟨_, List.mem_map_of_mem hm, rfl, rfl⟩
  have hget : s.getIndex (String.ofList ndx.name) = some i := (Members.find?_eq_some hnames).mpr ⟨hi, hname⟩
  rw [hget, Option.map_some, Option.getD_some, hroot]
  rfl

theorem ofTree_self (hn : (t.schema.index.map Ddl.Index.name).Nodup) : ofTree t (tree t) = t := by
  have hindex := ofTree_index hn (s := t.schema.toTree) rfl
  have hschema : t.schema.ofTree t.schema.toTree = { t.schema with index := (t.schema.ofTree t.schema.toTree).index } := rfl
  rw [hindex] at hschema
  exact congrArg (fun sch => Ddl.Table.mk sch t.cache t.flushList t.disk t.node t.data) hschema

/-- A block in memory is found. -/
theorem getData_run (hn : (t.schema.index.map Ddl.Index.name).Nodup) (ha : Aligned o) (hd : t.data o = true) :
    onTree (do deref (← getData o)) t = .ok o t := by
  have hget : getData o (tree t) = .ok (some o) (tree t) := by
    rw [getData, if_neg ha.not_bad, run_bind (run_get _), if_pos (show (tree t).data o = true from hd)]
    rfl
  have hrun := onTree_run (t := t) (x := do deref (← getData o)) (run_bind hget)
  rwa [ofTree_self hn] at hrun

theorem dataBlock_run (hn : (t.schema.index.map Ddl.Index.name).Nodup) (ha : Aligned o) (hd : t.data o = true)
    (hc : t.cache o = some blk) : onTree (dataBlock o) t = .ok blk t := by
  have hget : getData o (tree t) = .ok (some o) (tree t) := by
    rw [getData, if_neg ha.not_bad, run_bind (run_get _), if_pos (show (tree t).data o = true from hd)]
    rfl
  have hblock : dataBlock o (tree t) = .ok blk (tree t) := by
    rw [dataBlock, run_bind hget]
    exact (run_bind (run_pure o _)).trans (buffer_of_cache (show (tree t).cache o = some blk from hc))
  have hrun := onTree_run hblock
  rwa [ofTree_self hn] at hrun

/-! ### A new block -/

/-- The table with a new block `f` of rows. -/
structure Fresh (t : Ddl.Table) (f : ℤ) (fs : List ℤ) (lim : ℤ) (t' : Ddl.Table) : Prop where
  block : ∃ blk, t'.cache f = some blk ∧ HoldsRows blk [] ∧ blk.next = invalidSiblingRef ∧ blk.head.rem = 32744
  cache : ∀ o, o ≠ f → t'.cache o = t.cache o
  data : t'.data = Function.update t.data f true
  index : t'.schema.index = t.schema.index
  column : t'.schema.column = t.schema.column
  dataOffset : t'.schema.header.dataOffset = f
  dataRoot : t'.schema.header.dataRoot = if t.schema.header.dataRoot < 0 then f else t.schema.header.dataRoot
  pool : Pool (tree t') fs lim

theorem nextOffset_true {s s' : Tree} (h : nextOffset false s = .ok f s') : nextOffset true s = .ok f
    { s' with schema := { s'.schema with header :=
      { s'.schema.header with dataOffset := f, dataRoot := if s'.schema.header.dataRoot < 0 then f else s'.schema.header.dataRoot } } } := by
  obtain ⟨o, s₁, hoff, hrest⟩ := of_run_bind h
  obtain ⟨_, s₂, hmod, hpure⟩ := of_run_bind hrest
  obtain ⟨rfl, rfl⟩ : o = f ∧ s₂ = s' := by
    cases hpure
    exact ⟨rfl, rfl⟩
  exact (run_bind hoff).trans ((run_bind hmod).trans rfl)

theorem newBlock_run (hn : (t.schema.index.map Ddl.Index.name).Nodup) (hp : Pool (tree t) fs lim) :
    ∃ t', newBlock t = .ok (stream fs lim 0) t' ∧ Fresh t (stream fs lim 0) (restFree fs) (restLim fs lim) t' := by
  obtain ⟨s, hrun, hh, hpool⟩ := nextOffset_spec hp
  have hnotin : stream fs lim 0 ∉ restFree fs := by
    have hout : Outside [] fs lim := ⟨by simp, by simp⟩
    exact (hout.cons hp).notMem _ (by simp)
  generalize stream fs lim 0 = f at *
  have htrue := nextOffset_true hrun
  obtain ⟨fh, ft, hschema⟩ := hh.schema
  have hnew := (run_bind (f := fun o => newData o) htrue).trans
    (run_bind (x := RedB.newBlock f) rfl |>.trans (run_bind (buffer_of_cache (Function.update_self ..))))
  refine ⟨_, onTree_run hnew, ?_⟩
  refine ⟨⟨_, Function.update_self .., holdsRows_nil rfl rfl rfl, rfl, rfl⟩, fun o ho => ?_, ?_, ?_, rfl, rfl, ?_, ?_⟩
  · show Function.update (Function.update s.cache f _) f _ o = t.cache o
    rw [Function.update_of_ne ho, Function.update_of_ne ho]
    exact hh.cache o ho
  · show Function.update s.data f true = Function.update t.data f true
    rw [hh.data]
    rfl
  · exact ofTree_index hn (by
      show s.schema.index = _
      rw [hschema]
      rfl)
  · show (if s.schema.header.dataRoot < 0 then f else s.schema.header.dataRoot) = _
    rw [hschema]
    rfl
  · refine hpool.congr rfl rfl fun g hg => ?_
    have hgf : g ≠ f := fun e => hnotin (e ▸ hg)
    constructor
    · show Function.update (Function.update s.cache f _) f _ g = s.cache g
      rw [Function.update_of_ne hgf, Function.update_of_ne hgf]
    · exact Function.update_of_ne hgf ..

/-! ### The blocks of rows -/

/-- A block of rows: its offset, and its rows by their positions. -/
abbrev Page := ℤ × List (ℕ × RowBytes)

/-- An offset, unless it is none. -/
def ofOffset (o : ℤ) : Option ℤ := if o < 0 then none else some o

theorem ofOffset_eq_some {o o' : ℤ} : ofOffset o = some o' ↔ 0 ≤ o ∧ o = o' := by
  rw [ofOffset]
  by_cases h : o < 0
  · simp [h]
  · simp [h, not_lt.mp h]

/-- The block behind a block. -/
def nextOf (t : Ddl.Table) (o : ℤ) : Option ℤ :=
  (t.cache o).bind fun blk => if blk.next = invalidSiblingRef then none else some blk.next

/-- The blocks of rows, all of them in memory, from the root on to the one that receives rows. -/
structure Pages (t : Ddl.Table) (pages : List Page) : Prop where
  names : (t.schema.index.map Ddl.Index.name).Nodup
  aligned : ∀ pg ∈ pages, Aligned pg.1
  nodup : (pages.map Prod.fst).Nodup
  data : ∀ o, t.data o = true ↔ o ∈ pages.map Prod.fst
  holds : ∀ pg ∈ pages, ∃ blk, t.cache pg.1 = some blk ∧ HoldsRows blk pg.2
  linked : Fwd (nextOf t) (pages.map Prod.fst)
  root : (pages.map Prod.fst).head? = ofOffset t.schema.header.dataRoot
  last : (pages.map Prod.fst).getLast? = ofOffset t.schema.header.dataOffset

/-- Blocks of rows, and what is handed out when there is to be another one. -/
structure Rooms (t : Ddl.Table) (pages : List Page) (fs : List ℤ) (lim : ℤ) : Prop extends Pages t pages where
  pool : Pool (tree t) fs lim
  outside : Outside (pages.map Prod.fst) fs lim

/-- One block is another one, and rows are counted. -/
structure Changed (t : Ddl.Table) (o : ℤ) (blk : Block) (t' : Ddl.Table) : Prop where
  cache : t'.cache = Function.update t.cache o (some blk)
  disk : t'.disk = t.disk
  data : t'.data = t.data
  index : t'.schema.index = t.schema.index
  header : ∃ n g, t'.schema.header = { t.schema.header with rowCount := n, generation := g }

theorem changed_committed (t : Ddl.Table) (o : ℤ) (blk : Block) : Changed t o blk (Table.committed (Table.withBlock t o blk) o) := by
  rw [Table.committed]
  split
  · exact ⟨rfl, rfl, rfl, rfl, _, _, rfl⟩
  · exact ⟨rfl, rfl, rfl, rfl, _, _, rfl⟩

variable {pages A B : List Page} {rows rows' : List (ℕ × RowBytes)} {blk' : Block}

/-- The rows of one block change. -/
theorem Rooms.change (h : Rooms t (A ++ (o, rows) :: B) fs lim) (hc : Changed t o blk' t') (hblk : t.cache o = some blk)
    (hrows : HoldsRows blk' rows') (hnext : blk'.next = blk.next) : Rooms t' (A ++ (o, rows') :: B) fs lim := by
  obtain ⟨n, g, hheader⟩ := hc.header
  have hoffsets : (A ++ (o, rows') :: B).map Prod.fst = (A ++ (o, rows) :: B).map Prod.fst := by simp
  have hnd := h.nodup
  have hother : ∀ pg ∈ A ++ B, pg.1 ≠ o := fun pg hpg e => by
    simp only [List.map_append, List.map_cons, List.nodup_append, List.nodup_cons, List.mem_map, List.mem_cons] at hnd
    rcases List.mem_append.mp hpg with hpg | hpg
    · exact hnd.2.2 pg.1 ⟨pg, hpg, rfl⟩ o (.inl rfl) e
    · exact hnd.2.1.1 ⟨pg, hpg, e⟩
  have ho : o ∈ (A ++ (o, rows) :: B).map Prod.fst := by simp
  refine ⟨⟨?_, ?_, ?_, ?_, ?_, ?_, ?_, ?_⟩, ?_, ?_⟩
  · rw [hc.index]
    exact h.names
  · intro pg hpg
    obtain ⟨pg', hpg', he⟩ := List.mem_map.mp (hoffsets ▸ List.mem_map_of_mem hpg)
    exact he ▸ h.aligned pg' hpg'
  · rw [hoffsets]
    exact hnd
  · rw [hc.data, hoffsets]
    exact h.data
  · intro pg hpg
    rw [hc.cache]
    rcases List.mem_append.mp hpg with hpg | hpg
    · rw [Function.update_of_ne (hother pg (List.mem_append_left _ hpg))]
      exact h.holds pg (List.mem_append_left _ hpg)
    · rcases List.mem_cons.mp hpg with rfl | hpg
      · exact ⟨blk', Function.update_self .., hrows⟩
      · rw [Function.update_of_ne (hother pg (List.mem_append_right _ hpg))]
        exact h.holds pg (List.mem_append_right _ (List.mem_cons_of_mem _ hpg))
  · rw [hoffsets]
    refine h.linked.congr fun a _ => ?_
    rw [nextOf, nextOf, hc.cache]
    by_cases ha : a = o
    · rw [ha, Function.update_self, hblk]
      simp [hnext]
    · rw [Function.update_of_ne ha]
  · rw [hoffsets, hheader]
    exact h.root
  · rw [hoffsets, hheader]
    exact h.last
  · refine h.pool.congr ((congrArg Ddl.Header.nextOffset hheader).trans rfl) ((congrArg Ddl.Header.freeTail hheader).trans rfl) fun f hf => ⟨?_, ?_⟩
    · show t'.cache f = t.cache f
      rw [hc.cache, Function.update_of_ne fun e : f = o => h.outside.notMem o ho (e ▸ hf)]
    · exact congrFun hc.disk f
  · rw [hoffsets]
    exact h.outside

/-- There is another block, behind the others. -/
theorem Rooms.extend (h : Rooms t pages fs lim) (hf : Fresh t (stream fs lim 0) (restFree fs) (restLim fs lim) t')
    {c : ℤ → Option Block} (hholds : ∀ pg ∈ pages ++ [(stream fs lim 0, [])], ∃ blk, c pg.1 = some blk ∧ HoldsRows blk pg.2)
    (hlinked : Fwd (nextOf { t' with cache := c }) (pages.map Prod.fst ++ [stream fs lim 0])) (hc : ∀ g ∈ restFree fs, c g = t'.cache g) :
    Rooms { t' with cache := c } (pages ++ [(stream fs lim 0, [])]) (restFree fs) (restLim fs lim) := by
  have hout := h.outside.cons h.pool
  have hnew := h.outside.stream_zero
  have hal := h.pool.aligned_zero
  have hoff : ofOffset (stream fs lim 0) = some (stream fs lim 0) := if_neg (not_lt.mpr hal.1)
  have hroot := h.root
  generalize stream fs lim 0 = f at *
  have hoffsets : (pages ++ [(f, [])]).map Prod.fst = pages.map Prod.fst ++ [f] := by simp
  refine ⟨⟨?_, ?_, ?_, ?_, hholds, ?_, ?_, ?_⟩, ?_, ?_⟩
  · show (t'.schema.index.map Ddl.Index.name).Nodup
    rw [hf.index]
    exact h.names
  · intro pg hpg
    rcases List.mem_append.mp hpg with hpg | hpg
    · exact h.aligned pg hpg
    · obtain rfl := List.mem_singleton.mp hpg
      exact hal
  · rw [hoffsets]
    exact List.nodup_append.mpr ⟨h.nodup, List.nodup_singleton f, fun a ha b hb => by
      rintro rfl
      exact hnew (List.mem_singleton.mp hb ▸ ha)⟩
  · intro o
    show t'.data o = true ↔ _
    rw [hf.data, hoffsets, List.mem_append, List.mem_singleton, ← h.data]
    by_cases ho : o = f
    · simp [ho]
    · simp [ho]
  · rw [hoffsets]
    exact hlinked
  · show _ = ofOffset t'.schema.header.dataRoot
    rw [hoffsets, hf.dataRoot]
    cases pages with
    | nil =>
      have hneg : t.schema.header.dataRoot < 0 := by
        by_contra hneg
        simp [ofOffset, hneg] at hroot
      rw [if_pos hneg, hoff]
      rfl
    | cons pg pages =>
      have hneg : ¬t.schema.header.dataRoot < 0 := fun hneg => by simp [ofOffset, hneg] at hroot
      rw [if_neg hneg, ← hroot]
      rfl
  · show _ = ofOffset t'.schema.header.dataOffset
    rw [hoffsets, hf.dataOffset, hoff, List.getLast?_concat]
  · exact hf.pool.congr rfl rfl fun g hg => ⟨hc g hg, rfl⟩
  · rw [hoffsets]
    exact hout.mono fun u hu => by
      rcases List.mem_append.mp hu with hu | hu
      · exact List.mem_cons_of_mem _ hu
      · exact List.mem_singleton.mp hu ▸ List.mem_cons_self

/-! ### Rows -/

/-- The rows that have not been removed, with their places, in the order in which they are read. -/
def live (pages : List Page) : List (RowIterator × RowBytes) :=
  pages.flatMap fun pg => pg.2.map fun x => (⟨x.1, pg.1⟩, x.2)

/-- The bytes of the row are in the buffer. -/
structure RowBytes.Of (r : RowBytes) (row : Buffer) : Prop where
  bound : r.bytes.length ≤ row.bound
  bytes : slice row.bytes 0 r.bytes.length = r.bytes

theorem backing_run {row : Buffer} (h : r.Of row) : ∃ buf b, backing row = .ok buf b ∧ r.In buf := by
  have hsix := r.six
  have hb := h.bound
  have htake : slice row.bytes 0 2 = r.bytes.take 2 := by
    rw [← h.bytes, slice, slice, ← List.map_take, List.take_range, Nat.min_eq_left (by omega)]
  obtain ⟨b₀, hseek, hbound₀, hbytes₀⟩ : ∃ b, seek 0 row = .ok () b ∧ b.bound = row.bound ∧ b.bytes = row.bytes :=
    ⟨_, (seek_ok (p := 0)).mpr ⟨Nat.zero_le _, rfl⟩, rfl, rfl⟩
  obtain ⟨b₁, hsize, hbound₁, hbytes₁⟩ : ∃ b, Dml.rowSize b₀ = .ok (r.bytes.length : ℤ) b ∧ b.bound = row.bound ∧ b.bytes = row.bytes := by
    refine ⟨_, bind_ok.mpr ⟨(), _, (seek_ok (p := 0)).mpr ⟨Nat.zero_le _, rfl⟩, bind_ok.mpr ⟨_, _, getAll_ok.mpr ⟨?_, rfl, rfl⟩,
      pure_ok.mpr ⟨?_, rfl⟩⟩⟩, hbound₀, hbytes₀⟩
    · show 0 + 2 ≤ b₀.bound
      omega
    · show toInt16 (slice b₀.bytes 0 2) = _
      rw [hbytes₀, htake, r.size]
  obtain ⟨b₂, hend, hindex₂, hbytes₂⟩ : ∃ b, seek r.bytes.length b₁ = .ok () b ∧ b.index = r.bytes.length ∧ b.bytes = row.bytes :=
    ⟨_, seek_ok.mpr ⟨hbound₁ ▸ hb, rfl⟩, rfl, hbytes₁⟩
  refine ⟨_, _, (bind_run hseek).trans ((bind_run hsize).trans ((bind_run hend).trans rfl)), hindex₂, rfl, ?_⟩
  show slice b₂.bytes 0 r.bytes.length = r.bytes
  rw [hbytes₂, h.bytes]

theorem HoldsRows.congr (h : HoldsRows blk rows) (hhead : blk'.head = blk.head) (hfirst : blk'.rowHead = blk.rowHead)
    (hlast : blk'.rowTail = blk.rowTail) (hbytes : blk'.bytes = blk.bytes) : HoldsRows blk' rows := by
  have hraw : ∀ i, 24 ≤ i → raw blk' i = raw blk i := fun i hi => by rw [raw_area _ hi, raw_area _ hi, hbytes]
  have hlink : ∀ s, ∀ a ∈ 0 :: rows.map Prod.fst, link s blk' a = link s blk a := fun s a ha => by
    obtain ⟨hs1, hs2⟩ := s.pos_bounds
    rw [link, link]
    by_cases h0 : a = 0
    · rw [if_pos h0, if_pos h0]
      cases s
      · exact hfirst
      · exact hlast
    · have := (h.position ha).resolve_left h0
      rw [if_neg h0, if_neg h0]
      exact congrArg toInt16 (slice_congr fun i hi _ => hraw i (by omega))
  refine ⟨⟨by rw [hhead]; exact h.room, by rw [hhead]; exact h.bounds, h.order, fun x hx i hi hfield => ?_⟩, ?_⟩
  · have := (h.bounds x hx).1
    rw [hraw _ (by omega)]
    exact h.stores x hx i hi hfield
  · exact h.ring.congr (hlink .next) (hlink .prev)

theorem next_setLink (s : Side) (p : ℕ) (v : ℤ) (blk : Block) : (setLink s p v blk).next = blk.next := by
  rw [setLink]
  split
  · cases s <;> rfl
  · rfl

theorem next_appendRow (q : ℕ) (l : List ℕ) (blk : Block) : (appendRow q l blk).next = blk.next := by
  simp only [appendRow, next_setLink]
  rfl

theorem next_unlinkRow (q : ℕ) (blk : Block) : (unlinkRow q blk).next = blk.next := by
  simp only [unlinkRow, next_setLink]

/-- A row that fits is put into the last block. -/
theorem Rooms.place {buf : Buffer} (h : Rooms t (A ++ [(o, rows)]) fs lim) (hblk : t.cache o = some blk) (hbuf : r.In buf)
    (hfits : (r.bytes.length : ℤ) ≤ blk.head.rem) : ∃ (q : ℕ) (t' : Ddl.Table), placeRow o buf t = .ok (q : ℤ) t' ∧
      Rooms t' (A ++ [(o, rows ++ [(q, r)])]) fs lim := by
  obtain ⟨blk', hblk', hrows⟩ := h.holds (o, rows) (by simp)
  obtain rfl : blk = blk' := by simpa [hblk] using hblk'
  obtain ⟨q, hq⟩ : ∃ q : ℕ, (q : ℤ) = 32768 - blk.head.rem := ⟨(32768 - blk.head.rem).toNat, Int.toNat_of_nonneg (by have := hrows.room; omega)⟩
  exact ⟨q, _, placeRow_run hblk hrows hbuf hq hfits,
    h.change (changed_committed t o _) hblk (hrows.append hq hfits) (next_appendRow ..)⟩

theorem live_append (A B : List Page) : live (A ++ B) = live A ++ live B := List.flatMap_append

theorem live_place (A : List Page) (o : ℤ) (rows : List (ℕ × RowBytes)) (q : ℕ) (r : RowBytes) :
    live (A ++ [(o, rows ++ [(q, r)])]) = live (A ++ [(o, rows)]) ++ [(⟨q, o⟩, r)] := by
  simp [live]

theorem forall_place {x : ℕ × RowBytes} (h : ∀ pg ∈ A, pg.2 ≠ []) : ∀ pg ∈ A ++ [(o, rows ++ [x])], pg.2 ≠ [] := by
  intro pg hpg
  rcases List.mem_append.mp hpg with hpg | hpg
  · exact h pg hpg
  · rw [List.mem_singleton.mp hpg]
    exact List.append_ne_nil_of_right_ne_nil _ (List.cons_ne_nil _ _)

/-- A row is put behind all others, and no block is left without rows. -/
theorem Rooms.store {row : Buffer} (h : Rooms t pages fs lim) (hrow : r.Of row) (hr : r.bytes.length ≤ 32744) :
    ∃ (o : ℤ) (q : ℕ) (buf : Buffer) (t' : Ddl.Table) (pages' : List Page) (fs' : List ℤ) (lim' : ℤ), storeRow row t = .ok (o, (q : ℤ), buf) t' ∧
      Rooms t' pages' fs' lim' ∧ live pages' = live pages ++ [(⟨q, o⟩, r)] ∧
      ((∀ pg ∈ pages, pg.2 ≠ []) → ∀ pg ∈ pages', pg.2 ≠ []) := by
  obtain ⟨buf, b, hbacking, hbuf⟩ := backing_run hrow
  have hbytes (t : Ddl.Table) : onRow backing row t = .ok buf t := by
    rw [onRow, hbacking]
    rfl
  obtain ⟨t₁, hnew, hf⟩ := newBlock_run h.names h.pool
  have hlast := h.last
  have hextend := @Rooms.extend t t₁ fs lim pages h hf
  have hout := h.outside.stream_zero
  have hnotin : stream fs lim 0 ∉ restFree fs := (h.outside.cons h.pool).notMem _ List.mem_cons_self
  obtain ⟨fblk, hfblk, hfrows, hfnext, hfrem⟩ := hf.block
  have hfinv : stream fs lim 0 ≠ invalidSiblingRef := by
    have := h.pool.aligned_zero.1
    rw [invalidSiblingRef]
    omega
  have hother : ∀ o ∈ pages.map Prod.fst, o ≠ stream fs lim 0 := fun o ho e => hout (e ▸ ho)
  generalize stream fs lim 0 = f at *
  rcases List.eq_nil_or_concat pages with rfl | ⟨A, ⟨o, rows⟩, rfl⟩
  · -- the first block of rows
    have hneg : t.schema.header.dataOffset < 0 := by
      by_contra hneg
      simp [ofOffset, hneg] at hlast
    have h₁ : Rooms t₁ ([] ++ [(f, [])]) (restFree fs) (restLim fs lim) := by
      refine hextend (c := t₁.cache) (fun pg hpg => ?_) ⟨?_, trivial⟩ fun _ _ => rfl
      · obtain rfl := List.mem_singleton.mp hpg
        exact ⟨fblk, hfblk, hfrows⟩
      · simp [nextOf, hfblk, hfnext]
    obtain ⟨q, t', hplace, h'⟩ := h₁.place hfblk hbuf (by omega)
    refine ⟨f, q, buf, t', _, _, _, ?_, h', by simp [live], fun _ => by simp⟩
    rw [storeRow, get_bind, if_pos hneg, bind_run hnew]
    dsimp only
    rw [bind_run (hbytes t₁), bind_run (block_run hfblk), hbuf.bound, if_neg (by omega), bind_run hplace]
    rfl
  · rw [List.concat_eq_append] at *
    have hmem : (o, rows) ∈ A ++ [(o, rows)] := by simp
    obtain ⟨blk, hblk, hrows⟩ := h.holds _ hmem
    rw [List.map_append, List.map_singleton, List.getLast?_concat] at hlast
    obtain ⟨hneg, ho⟩ := ofOffset_eq_some.mp hlast.symm
    have hget := getData_run h.names (h.aligned _ hmem) ((h.data o).mpr (by simp))
    rw [storeRow, get_bind, if_neg (not_lt.mpr hneg), ho, bind_run hget]
    dsimp only
    rw [bind_run (hbytes t), bind_run (block_run hblk), hbuf.bound]
    by_cases hfits : blk.head.rem < r.bytes.length
    · -- the row goes into a new block
      have hof : o ≠ f := hother o (by simp)
      have hA : ∀ pg ∈ A, pg.1 ≠ o := fun pg hpg e => by
        have hnd := h.nodup
        rw [List.map_append, List.nodup_append] at hnd
        exact hnd.2.2 pg.1 (List.mem_map_of_mem hpg) o (by simp) e
      have hAf : ∀ pg ∈ A, pg.1 ≠ f := fun pg hpg => hother pg.1 (List.mem_map_of_mem (List.mem_append_left _ hpg))
      have hblk₁ : t₁.cache o = some blk := (hf.cache o hof).trans hblk
      obtain ⟨b₁, hb₁⟩ : ∃ b, b = { blk with next := f } := ⟨_, rfl⟩
      obtain ⟨b₂, hb₂⟩ : ∃ b, b = { fblk with prev := o } := ⟨_, rfl⟩
      have hcf : (Table.withBlock t₁ o b₁).cache f = some fblk := (Function.update_of_ne hof.symm ..).trans hfblk
      have h₁ : Rooms (Table.withBlock (Table.withBlock t₁ o b₁) f b₂) ((A ++ [(o, rows)]) ++ [(f, [])]) (restFree fs) (restLim fs lim) := by
        refine hextend (c := Function.update (Function.update t₁.cache o (some b₁)) f (some b₂)) (fun pg hpg => ?_) ?_ fun g hg => ?_
        · rcases List.mem_append.mp hpg with hpg | hpg
          · rcases List.mem_append.mp hpg with hpg | hpg
            · obtain ⟨b, hb, hbrows⟩ := h.holds pg (List.mem_append_left _ hpg)
              rw [Function.update_of_ne (hAf pg hpg), Function.update_of_ne (hA pg hpg), hf.cache _ (hAf pg hpg)]
              exact ⟨b, hb, hbrows⟩
            · obtain rfl := List.mem_singleton.mp hpg
              rw [Function.update_of_ne hof, Function.update_self]
              exact ⟨b₁, rfl, hb₁ ▸ hrows.congr rfl rfl rfl rfl⟩
          · obtain rfl := List.mem_singleton.mp hpg
            rw [Function.update_self]
            exact ⟨b₂, rfl, hb₂ ▸ hfrows.congr rfl rfl rfl rfl⟩
        · have hlinked := h.linked
          rw [List.map_append, List.map_singleton] at hlinked ⊢
          rw [List.append_assoc]
          refine hlinked.insert ?_ ?_ ?_ fun b hb hbo => ?_
          · simpa using h.nodup
          · show ((Function.update (Function.update t₁.cache o (some b₁)) f (some b₂)) o).bind _ = _
            rw [Function.update_of_ne hof, Function.update_self, hb₁]
            exact if_neg hfinv
          · have hend : nextOf t o = none := hlinked.next
            show ((Function.update (Function.update t₁.cache o (some b₁)) f (some b₂)) f).bind _ = _
            rw [Function.update_self, hb₂, hend]
            exact if_pos hfnext
          · have hbf : b ≠ f := hother b (by simpa using hb)
            show ((Function.update (Function.update t₁.cache o (some b₁)) f (some b₂)) b).bind _ = (t.cache b).bind _
            rw [Function.update_of_ne hbf, Function.update_of_ne hbo, hf.cache b hbf]
        · have hgf : g ≠ f := fun e => hnotin (e ▸ hg)
          have hgo : g ≠ o := fun e => h.outside.notMem o (by simp) (e ▸ List.mem_of_mem_tail hg)
          rw [Function.update_of_ne hgf, Function.update_of_ne hgo]
      obtain ⟨q, t', hplace, h'⟩ := h₁.place (withBlock_cache ..) hbuf (by rw [hb₂]; show _ ≤ fblk.head.rem; omega)
      refine ⟨f, q, buf, t', _, _, _, ?_, h', ?_, fun hne => forall_place hne⟩
      · rw [if_pos hfits, bind_run hnew, bind_run (modifyBlock_run hblk₁ _), ← hb₁, bind_run (modifyBlock_run hcf _), ← hb₂, bind_run hplace]
        rfl
      · rw [live_place, live_append]
        simp [live]
    · obtain ⟨q, t', hplace, h'⟩ := h.place hblk hbuf (not_lt.mp hfits)
      refine ⟨o, q, buf, t', _, _, _, ?_, h', live_place .., fun hne => forall_place fun pg hpg => hne pg (List.mem_append_left _ hpg)⟩
      rw [if_neg hfits, bind_run hplace]
      rfl

/-- A row is among those of its block. -/
theorem live_split {L R : List (RowIterator × RowBytes)} {x : RowIterator × RowBytes} (hl : live pages = L ++ x :: R) :
    ∃ A B C D y o, pages = A ++ (o, C ++ y :: D) :: B ∧ x = (⟨y.1, o⟩, y.2) ∧
      L = live A ++ C.map (fun y => (⟨y.1, o⟩, y.2)) ∧ R = D.map (fun y => (⟨y.1, o⟩, y.2)) ++ live B := by
  induction pages generalizing L with
  | nil => simp [live] at hl
  | cons pg pages ih =>
    obtain ⟨o, rows⟩ := pg
    have hcons : live ((o, rows) :: pages) = rows.map (fun y => ((⟨y.1, o⟩ : RowIterator), y.2)) ++ live pages := by simp [live]
    rw [hcons] at hl
    rcases List.append_eq_append_iff.mp hl with ⟨L', rfl, hl'⟩ | ⟨M, hrows, hM⟩
    · obtain ⟨A, B, C, D, y, o', rfl, hx, rfl, hR⟩ := ih hl'
      exact ⟨(o, rows) :: A, B, C, D, y, o', rfl, hx, by simp [live], hR⟩
    · cases M with
      | nil =>
        obtain ⟨A, B, C, D, y, o', rfl, hx, hL, hR⟩ := @ih [] (by simpa using hM.symm)
        refine ⟨(o, rows) :: A, B, C, D, y, o', rfl, hx, ?_, hR⟩
        rw [List.append_nil] at hrows
        rw [← hrows, ← List.append_nil (List.map _ rows), hL]
        simp [live]
      | cons m M =>
        obtain ⟨rfl, rfl⟩ := List.cons.inj hM
        obtain ⟨C, E, rfl, rfl, hE⟩ := List.map_eq_append_iff.mp hrows
        obtain ⟨y, D, rfl, rfl, rfl⟩ := List.map_eq_cons_iff.mp hE
        exact ⟨[], pages, C, D, y, o, rfl, rfl, by simp [live], rfl⟩

/-- A row is taken out of its block. -/
theorem Rooms.unlinkRow {C D : List (ℕ × RowBytes)} {y : ℕ × RowBytes} (h : Rooms t (A ++ (o, C ++ y :: D) :: B) fs lim) :
    ∃ t', unlinkRowAt y.1 o t = .ok () t' ∧ Rooms t' (A ++ (o, C ++ D) :: B) fs lim := by
  have hmem : (o, C ++ y :: D) ∈ A ++ (o, C ++ y :: D) :: B := by simp
  obtain ⟨blk, hblk, hrows⟩ := h.holds _ hmem
  have hget : onTree (do deref (← getData o)) t = .ok o t := getData_run h.names (h.aligned _ hmem) ((h.data o).mpr (by simp))
  have hc := changed_committed t o (Rows.unlinkRow y.1 blk)
  obtain ⟨n, g, hheader⟩ := hc.header
  obtain ⟨t', hrun, hc'⟩ : ∃ t', unlinkRowAt y.1 o t = .ok () t' ∧ Changed t o (Rows.unlinkRow y.1 blk) t' := by
    refine ⟨_, (bind_run hget).trans ((bind_run (unlinkIn_run hblk hrows)).trans rfl), hc.cache, hc.disk, hc.data, hc.index, n - 1, g + 1, ?_⟩
    exact congrArg (fun hdr => ({ hdr with rowCount := hdr.rowCount - 1, generation := hdr.generation + 1 } : Ddl.Header)) hheader
  exact ⟨t', hrun, h.change hc' hblk hrows.unlink (next_unlinkRow ..)⟩

/-- A row is taken out from among the others. -/
theorem Rooms.unlink {L R : List (RowIterator × RowBytes)} {x : RowIterator × RowBytes} (h : Rooms t pages fs lim)
    (hl : live pages = L ++ x :: R) : ∃ t' pages', unlinkRowAt x.1.position x.1.offset t = .ok () t' ∧
      Rooms t' pages' fs lim ∧ live pages' = L ++ R := by
  obtain ⟨A, B, C, D, y, o, rfl, rfl, rfl, rfl⟩ := live_split hl
  obtain ⟨t', hrun, h'⟩ := h.unlinkRow
  exact ⟨t', A ++ (o, C ++ D) :: B, hrun, h', by simp [live]⟩

end RedB.Rows
