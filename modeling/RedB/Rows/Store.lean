import RedB.Rows.Block

/-!
# The rows of a table

`tree::insert` puts a row into the block that receives rows, or into a new block when that one has too
little room, and links it with the rows of the block; the end of `tree::remove` unlinks a row. What is
thrown leaves behind what has been done before it.

In memory this is what `HoldsRows` says of blocks (`placeRow_run`, `unlinkIn_run`).
-/

namespace RedB.Rows

open Runs Buffer Ddl Rings

/-! ### Blocks of data objects -/

/-- `dt->m_buffer` -/
def block (dt : ℤ) : TableM Block := fun t =>
  match t.cache dt with
  | some blk => .ok blk t
  | none => .error (.tree .nullPtr) t

/-- The table with another block. -/
def Table.withBlock (t : Ddl.Table) (dt : ℤ) (blk : Block) : Ddl.Table := { t with cache := Function.update t.cache dt (some blk) }

/-- Fields in the header of the block change. -/
def modifyBlock (dt : ℤ) (f : Block → Block) : TableM Unit := do
  let blk ← block dt
  modify fun t => Table.withBlock t dt (f blk)

/-- Something is done to the bytes of the block. -/
def onBytes {α : Type} (dt : ℤ) (x : BufferM α) : TableM α := do
  let blk ← block dt
  match x (blockBuffer blk) with
  | .ok a b => do
    modify fun t => Table.withBlock t dt (withBytes blk b.bytes)
    pure a
  | .error e b => do
    modify fun t => Table.withBlock t dt (withBytes blk b.bytes)
    throw (.row e)

/-- `dt->m_buffer.get_int16(p)` -/
def getField (dt p : ℤ) : TableM ℤ := do
  let blk ← block dt
  field blk p

/-- `dt->m_buffer.put_int16(p, v)`, behind the header. -/
def putField (dt p v : ℤ) : TableM Unit := onBytes dt do
  seek p
  putInt16 v

/-- A field of the row at `row`, unless that is zero. -/
def putLink (dt row pos v : ℤ) : TableM Unit := if row ≠ 0 then putField dt (row + pos) v else pure ()

/-- `dt->m_buffer.put(n, buf)`, and where the index is then. -/
def putBuffer (n : ℤ) (buf : Buffer) : BufferM ℕ := fun b =>
  match putRestAt n ⟨b, buf⟩ with
  | .ok _ s => .ok s.dst.index s.dst
  | .error e s => .error e s.dst

/-- `data::commit` -/
def commit (dt : ℤ) : TableM Unit :=
  modify fun t => if dt ∈ t.flushList then t else { t with flushList := t.flushList ++ [dt] }

/-! ### A row is put into a block -/

/-- The part of `tree::insert` that puts the row into the block at `dt`, up to the commit. -/
def placeRow (dt : ℤ) (buf : Buffer) : TableM ℤ := do
  let blk ← block dt
  let position := bufferSz - blk.head.rem
  let index ← onBytes dt (putBuffer position buf)
  modifyBlock dt fun blk => { blk with head := .data (bufferSz - index) }
  modifyBlock dt fun blk => if blk.rowHead = 0 then { blk with rowHead := asInt16 position } else blk
  let blk ← block dt
  putField dt (position + rowPrevPos) blk.rowTail
  putField dt (position + rowNextPos) 0
  putLink dt blk.rowTail rowNextPos position
  modifyBlock dt fun blk => { blk with rowTail := asInt16 position }
  commit dt
  pure position

/-- The part of `tree::remove` that unlinks the row at `position` of the block at `dt`, up to the commit. -/
def unlinkIn (dt position : ℤ) : TableM Unit := do
  let rowPrev ← getField dt (position + rowPrevPos)
  let rowNext ← getField dt (position + rowNextPos)
  putLink dt rowPrev rowNextPos rowNext
  putLink dt rowNext rowPrevPos rowPrev
  modifyBlock dt fun blk => if blk.rowHead = position then { blk with rowHead := asInt16 rowNext } else blk
  modifyBlock dt fun blk => if blk.rowTail = position then { blk with rowTail := asInt16 rowPrev } else blk
  commit dt

/-- `row::rewind` and `row::backing` -/
def backing : BufferM Buffer := do
  seek 0
  let size ← Dml.rowSize
  seek size
  trip
  get

/-- Something is done to a buffer of a row. -/
def onRow {α : Type} (x : BufferM α) (row : Buffer) : TableM α :=
  ofExcept .row <| match x row with
    | .ok a _ => .ok a
    | .error e _ => .error e

/-- `new_data(next_offset(true))` -/
def newBlock : TableM ℤ := onTree (do newData (← nextOffset true))

/-- `tree::insert`, up to the commit of the block: the block and the position of the row, and its bytes. -/
def storeRow (row : Buffer) : TableM (ℤ × ℤ × Buffer) := do
  let t ← get
  let dt ← if t.schema.header.dataOffset < 0 then newBlock else onTree (do deref (← getData t.schema.header.dataOffset))
  let buf ← onRow backing row
  let blk ← block dt
  if blk.head.rem < buf.bound then do
    let dt' ← newBlock
    modifyBlock dt fun blk => { blk with next := dt' }
    modifyBlock dt' fun blk => { blk with prev := dt }
    let position ← placeRow dt' buf
    pure (dt', position, buf)
  else do
    let position ← placeRow dt buf
    pure (dt, position, buf)

/-- The end of `tree::remove`, for a row that an index has led to. -/
def unlinkRowAt (position offset : ℤ) : TableM Unit := do
  let dt ← onTree (do deref (← getData offset))
  unlinkIn dt position
  modify fun t => { t with schema := { t.schema with header :=
    { t.schema.header with rowCount := t.schema.header.rowCount - 1, generation := t.schema.header.generation + 1 } } }

/-! ### Steps on a block -/

variable {t t' : Ddl.Table} {dt : ℤ} {blk : Block} {p q : ℕ} {rows A B : List (ℕ × RowBytes)} {r : RowBytes}

@[simp] theorem withBlock_cache (t : Ddl.Table) (dt : ℤ) (blk : Block) : (Table.withBlock t dt blk).cache dt = some blk :=
  Function.update_self ..

@[simp] theorem withBlock_withBlock (t : Ddl.Table) (dt : ℤ) (blk blk' : Block) :
    Table.withBlock (Table.withBlock t dt blk) dt blk' = Table.withBlock t dt blk' := by
  simp [Table.withBlock, Function.update_idem]

theorem withBlock_self (h : t.cache dt = some blk) : Table.withBlock t dt blk = t := by
  rw [Table.withBlock, ← h, Function.update_eq_self]

theorem block_run (h : t.cache dt = some blk) : block dt t = .ok blk t := by
  rw [block, h]

theorem modifyBlock_run (h : t.cache dt = some blk) (f : Block → Block) :
    modifyBlock dt f t = .ok () (Table.withBlock t dt (f blk)) := bind_run (block_run h)

theorem onBytes_run {α : Type} {x : BufferM α} {a : α} {b : Buffer} {l : List ℕ} (h : t.cache dt = some blk) (hp : 24 ≤ p)
    (hx : x (blockBuffer blk) = .ok a b) (hb : b.bytes = written (raw blk) p l) :
    onBytes dt x t = .ok a (Table.withBlock t dt (putBytes blk p l)) := by
  rw [onBytes, bind_run (block_run h), hx]
  dsimp only
  rw [hb, withBytes_written hp]
  rfl

theorem seek_run (blk : Block) (hp : p ≤ 32768) : ∃ b, seek p (blockBuffer blk) = .ok () b ∧ b.index = p ∧ b.bound = 32768 ∧ b.bytes = raw blk :=
  ⟨_, seek_ok.mpr ⟨hp, rfl⟩, rfl, rfl, rfl⟩

theorem putField_run (h : t.cache dt = some blk) (hp : 24 ≤ p) (hp' : p + 2 ≤ 32768) {n v : ℤ} (hn : n = p) :
    putField dt n v t = .ok () (Table.withBlock t dt (putBytes blk p (int16Bytes v))) := by
  subst hn
  obtain ⟨b, hseek, hindex, hbound, hbytes⟩ := seek_run blk (show p ≤ 32768 by omega)
  have hput : ∃ b', putInt16 v b = .ok () b' ∧ b'.bytes = written b.bytes b.index (int16Bytes v) :=
    ⟨_, putAll_ok.mpr ⟨by rw [hindex, hbound]; exact hp', rfl⟩, rfl⟩
  obtain ⟨b', hput, hbytes'⟩ := hput
  exact onBytes_run h hp (bind_ok.mpr ⟨(), b, hseek, hput⟩) (by rw [hbytes', hindex, hbytes])

theorem field_run (blk : Block) (hp : p + 2 ≤ 32768) {n : ℤ} (hn : n = p) (t : Ddl.Table) :
    field blk n t = .ok (toInt16 (slice (raw blk) p 2)) t := by
  subst hn
  obtain ⟨b, hseek, hindex, hbound, hbytes⟩ := seek_run blk (show p ≤ 32768 by omega)
  have hget : ∃ b', getInt16 b = .ok (toInt16 (slice b.bytes b.index 2)) b' :=
    ⟨_, bind_ok.mpr ⟨_, _, getAll_ok.mpr ⟨by rw [hindex, hbound]; exact hp, rfl, rfl⟩, pure_ok.mpr ⟨rfl, rfl⟩⟩⟩
  obtain ⟨b', hget⟩ := hget
  rw [field, bind_run hseek, hget, hindex, hbytes]
  rfl

theorem getField_run (h : t.cache dt = some blk) (s : Side) (hp : 24 ≤ p) (hp' : p + 6 ≤ 32768) {n : ℤ} (hn : n = (p + s.pos : ℕ)) :
    getField dt n t = .ok (link s blk p) t := by
  have hs := s.pos_bounds
  rw [getField, bind_run (block_run h), field_run blk (by omega) hn, link, if_neg (by omega)]

/-- A link of a row is put. -/
theorem putField_link (h : t.cache dt = some blk) (s : Side) (hp : 24 ≤ p) (hp' : p + 6 ≤ 32768) {n : ℤ} (hn : n = (p + s.pos : ℕ)) (v : ℤ) :
    putField dt n v t = .ok () (Table.withBlock t dt (setLink s p v blk)) := by
  have hs := s.pos_bounds
  rw [putField_run h (by omega) (by omega) hn, setLink, if_neg (by omega)]

/-- A link is put unless the row is none. -/
theorem putLink_run (h : t.cache dt = some blk) (s : Side) (hp : p = 0 ∨ 24 ≤ p) (hp' : p + 6 ≤ 32768) {n : ℤ} (hn : n = s.pos) (v : ℤ) :
    putLink dt p n v t = .ok () (Table.withBlock t dt (if p = 0 then blk else setLink s p v blk)) := by
  rw [putLink]
  by_cases h0 : p = 0
  · subst h0
    rw [if_neg (by simp), if_pos rfl, withBlock_self h]
    rfl
  · rw [if_pos (by exact_mod_cast h0), if_neg h0]
    exact putField_link h s (hp.resolve_left h0) hp' (by rw [hn]; push_cast; rfl) v

theorem asInt16_of_lt (hp : p < 32768) : asInt16 p = p := toInt16_int16Bytes (Int.natCast_nonneg p) (by omega)

/-- A buffer with the bytes of a row, none of them read. -/
structure RowBytes.In (r : RowBytes) (buf : Buffer) : Prop where
  bound : buf.bound = r.bytes.length
  index : buf.index = 0
  bytes : slice buf.bytes 0 r.bytes.length = r.bytes

theorem putBuffer_run {buf : Buffer} (h : t.cache dt = some blk) (hbuf : r.In buf) (hq : 24 ≤ q) (hq' : q + r.bytes.length ≤ 32768) {n : ℤ}
    (hn : n = q) : onBytes dt (putBuffer n buf) t = .ok (q + r.bytes.length) (Table.withBlock t dt (putBytes blk q r.bytes)) := by
  subst hn
  obtain ⟨b₀, hseek, hindex, hbound, hbytes⟩ := seek_run blk (show q ≤ 32768 by omega)
  have hdst : b₀.remaining = 32768 - q := by rw [remaining, hbound, hindex]
  have hsrc : buf.remaining = r.bytes.length := by rw [remaining, hbuf.bound, hbuf.index, Nat.sub_zero]
  obtain ⟨s', hrun, hbehind⟩ := @copyBytes_ok ⟨b₀, buf⟩ r.bytes.length (by rw [hdst]; omega) hsrc.ge
  have hrest : putRestAt q ⟨blockBuffer blk, buf⟩ = .ok () s' := by
    rw [putRestAt, bind_run (onDst_ok hseek), putRest, get_bind]
    dsimp only
    rw [hsrc, hdst, if_neg (by omega)]
    exact hrun
  refine onBytes_run h hq (b := s'.dst) ?_ ?_
  · rw [putBuffer, hrest]
    dsimp only
    rw [hbehind.dstIndex]
    exact congrArg (fun i => EStateM.Result.ok (i + r.bytes.length) s'.dst) hindex
  · rw [hbehind.bytes]
    dsimp only
    rw [hindex, hbytes, hbuf.index, hbuf.bytes]

/-! ### Rows of a block -/

/-- The table behind a commit. -/
def Table.committed (t : Ddl.Table) (dt : ℤ) : Ddl.Table :=
  if dt ∈ t.flushList then t else { t with flushList := t.flushList ++ [dt] }

/-- A row that fits is put behind the others. -/
theorem placeRow_run {buf : Buffer} (h : t.cache dt = some blk) (hrows : HoldsRows blk rows) (hbuf : r.In buf)
    (hq : (q : ℤ) = 32768 - blk.head.rem) (hfits : (r.bytes.length : ℤ) ≤ blk.head.rem) :
    placeRow dt buf t = .ok (q : ℤ) (Table.committed (Table.withBlock t dt (appendRow q r.bytes blk)) dt) := by
  have hroom := hrows.room
  have hsix := r.six
  have hposition : bufferSz - blk.head.rem = q := hq.symm
  have hq24 : 24 ≤ q := by omega
  have hq6 : q + 6 ≤ 32768 := by omega
  have hput := putBuffer_run h hbuf hq24 (by omega) hposition
  rw [placeRow, bind_run (block_run h), bind_run hput, bind_run (modifyBlock_run (withBlock_cache ..) _), withBlock_withBlock]
  have hhead : ({ putBytes blk q r.bytes with head := .data (bufferSz - ((q + r.bytes.length : ℕ) : ℤ)) } : Block) = putRowBytes q r.bytes blk := by
    rw [putRowBytes, show bufferSz - ((q + r.bytes.length : ℕ) : ℤ) = blk.head.rem - r.bytes.length by rw [bufferSz]; omega]
  have hT : (rows.map Prod.fst).getLastD 0 = 0 ∨ 24 ≤ (rows.map Prod.fst).getLastD 0 := hrows.position List.getLastD_mem_cons
  have hT' := hrows.position_room List.getLastD_mem_cons
  have htail := hrows.tail
  generalize hlast : (rows.map Prod.fst).getLastD 0 = last at hT hT' htail
  -- the block with its first row
  obtain ⟨b, hb⟩ : ∃ b, b = if (putRowBytes q r.bytes blk).rowHead = 0 then { putRowBytes q r.bytes blk with rowHead := (q : ℤ) }
    else putRowBytes q r.bytes blk := ⟨_, rfl⟩
  have hbtail : b.rowTail = last := by
    rw [← htail, hb]
    split <;> rfl
  rw [hhead, bind_run (modifyBlock_run (withBlock_cache ..) _), withBlock_withBlock, bind_run (block_run (withBlock_cache ..)), hposition,
    asInt16_of_lt (show q < 32768 by omega), ← hb, hbtail,
    bind_run (putField_link (withBlock_cache ..) .prev hq24 hq6 (by rw [rowPrevPos, Side.pos]; push_cast; rfl) _), withBlock_withBlock,
    bind_run (putField_link (withBlock_cache ..) .next hq24 hq6 (by rw [rowNextPos, Side.pos]; push_cast; rfl) _), withBlock_withBlock,
    bind_run (putLink_run (withBlock_cache ..) .next hT hT' (show rowNextPos = (Side.next.pos : ℤ) from rfl) _), withBlock_withBlock,
    bind_run (modifyBlock_run (withBlock_cache ..) _), withBlock_withBlock]
  have hblock : ∀ c, c = appendRow q r.bytes blk → (do commit dt; pure (q : ℤ) : TableM ℤ) (Table.withBlock t dt c) =
      .ok (q : ℤ) (Table.committed (Table.withBlock t dt (appendRow q r.bytes blk)) dt) := by
    rintro c rfl
    rfl
  refine hblock _ ?_
  have hq0 : q ≠ 0 := by omega
  have hltail : (link .prev blk 0).toNat = last := by
    show blk.rowTail.toNat = last
    rw [htail, Int.toNat_natCast]
  by_cases h0 : last = 0
  · have hhead0 : (putRowBytes q r.bytes blk).rowHead = 0 := hrows.head_eq_zero_iff.mpr (by rw [htail, h0]; rfl)
    rw [if_pos hhead0] at hb
    subst hb
    simp [appendRow, hltail, h0, setLink, Side.setOwn, putBytes, hq0]
  · have hhead0 : (putRowBytes q r.bytes blk).rowHead ≠ 0 := fun e => h0 (by exact_mod_cast htail.symm.trans (hrows.head_eq_zero_iff.mp e))
    rw [if_neg hhead0] at hb
    subst hb
    simp [appendRow, hltail, h0, setLink, Side.setOwn]

/-- A row is unlinked from the others. -/
theorem unlinkIn_run {x : ℕ × RowBytes} (h : t.cache dt = some blk) (hrows : HoldsRows blk (A ++ x :: B)) :
    unlinkIn dt x.1 t = .ok () (Table.committed (Table.withBlock t dt (Rows.unlinkRow x.1 blk)) dt) := by
  obtain ⟨hprev, hnext⟩ := hrows.links
  have hx24 := (hrows.bounds x (by simp)).1
  have hxm : x.1 ∈ 0 :: (A ++ x :: B).map Prod.fst := by simp
  have hpm : (A.map Prod.fst).getLastD 0 ∈ 0 :: (A ++ x :: B).map Prod.fst := by
    have hmem := List.getLastD_mem_cons (l := A.map Prod.fst) (a := 0)
    rw [List.map_append, ← List.cons_append]
    exact List.mem_append_left _ hmem
  have hnm : (B.map Prod.fst).headD 0 ∈ 0 :: (A ++ x :: B).map Prod.fst := by
    cases B <;> simp
  have hfirst := hrows.isFirst
  have hlast := hrows.isLast
  have hP := hrows.position hpm
  have hN := hrows.position hnm
  have hP' := hrows.position_room hpm
  have hN' := hrows.position_room hnm
  have hX' := hrows.position_room hxm
  have hsame : unlinkRow x.1 blk = setLink .prev (link .next blk x.1).toNat (link .prev blk x.1).toNat
    (setLink .next (link .prev blk x.1).toNat (link .next blk x.1).toNat blk) := rfl
  rw [hprev, hnext, Int.toNat_natCast, Int.toNat_natCast] at hsame
  generalize (A.map Prod.fst).getLastD 0 = P at *
  generalize (B.map Prod.fst).headD 0 = N at *
  rw [unlinkIn, bind_run (getField_run h .prev hx24 hX' (by rw [rowPrevPos, Side.pos]; push_cast; rfl)), hprev,
    bind_run (getField_run h .next hx24 hX' (by rw [rowNextPos, Side.pos]; push_cast; rfl)), hnext,
    bind_run (putLink_run h .next hP hP' (show rowNextPos = (Side.next.pos : ℤ) from rfl) _),
    bind_run (putLink_run (withBlock_cache ..) .prev hN hN' (show rowPrevPos = (Side.prev.pos : ℤ) from rfl) _), withBlock_withBlock,
    bind_run (modifyBlock_run (withBlock_cache ..) _), withBlock_withBlock,
    bind_run (modifyBlock_run (withBlock_cache ..) _), withBlock_withBlock, asInt16_of_lt (by omega), asInt16_of_lt (by omega)]
  have hblock : ∀ c, c = unlinkRow x.1 blk → commit dt (Table.withBlock t dt c) =
      .ok () (Table.committed (Table.withBlock t dt (unlinkRow x.1 blk)) dt) := by
    rintro c rfl
    rfl
  refine hblock _ ?_
  rw [hsame]
  have hx0 : (x.1 : ℤ) ≠ 0 := by omega
  by_cases hP0 : P = 0
  · have hhead := hfirst.mpr hP0
    by_cases hN0 : N = 0
    · have htail := hlast.mpr hN0
      simp [hP0, hN0, setLink, Side.setOwn, hhead, htail]
    · have htail : blk.rowTail ≠ x.1 := fun e => hN0 (hlast.mp e)
      simp [hP0, hN0, setLink, Side.setOwn, putBytes, hhead, htail]
  · have hhead : blk.rowHead ≠ x.1 := fun e => hP0 (hfirst.mp e)
    by_cases hN0 : N = 0
    · have htail := hlast.mpr hN0
      simp [hP0, hN0, setLink, Side.setOwn, putBytes, hhead, htail]
    · have htail : blk.rowTail ≠ x.1 := fun e => hN0 (hlast.mp e)
      simp [hP0, hN0, setLink, putBytes, hhead, htail]

end RedB.Rows
