import RedB.Ddl.AddIndex
import RedB.Theory.Rings

/-!
# Rows in a block

The rows of a block lie one behind the other, from the end of the header on, and the block counts what
remains behind the last one. A row begins with its size and the positions of the rows before and behind
it that have not been removed; the block has the positions of the first and the last one of these. A
position of zero stands for the block itself, so that the block and its rows are a ring (`HoldsRows`).

A row is put behind the others, and a row is unlinked, without a change of the others (`HoldsRows.append`,
`HoldsRows.unlink`).
-/

namespace RedB.Rows

open Runs Buffer Ddl Rings

/-! ### The bytes of a block -/

/-- The bytes of a block, as its buffer has them. -/
def raw (blk : Block) : ℕ → ℕ := fun p => (blk.byteAt p).val

/-- A block whose bytes have been changed. -/
def withBytes (blk : Block) (bytes : ℕ → ℕ) : Block :=
  let blk' := if (List.range 24).map bytes = blk.header.map Fin.val then blk
    else blk.setHeader (((List.range 24).map bytes).map (Fin.ofNat 256))
  { blk' with bytes := fun p => if p < 24 then blk.bytes p else Fin.ofNat 256 (bytes p) }

/-- A block with some bytes behind its header replaced. -/
def putBytes (blk : Block) (p : ℕ) (l : List ℕ) : Block :=
  { blk with bytes := fun i => if p ≤ i ∧ i < p + l.length then Fin.ofNat 256 (l.getD (i - p) 0) else blk.bytes i }

/-- A number as it is read back from two bytes. -/
def asInt16 (v : ℤ) : ℤ := toInt16 (int16Bytes v)

variable {blk : Block} {p q : ℕ} {l : List ℕ}

theorem length_header (blk : Block) : blk.header.length = 24 := by
  simp [Block.header]

theorem raw_header (blk : Block) : (List.range 24).map (raw blk) = blk.header.map Fin.val := by
  refine List.ext_getElem (by rw [List.length_map, List.length_map, length_header, List.length_range]) fun i hi _ => ?_
  have hi' : i < 24 := by simpa using hi
  rw [List.getElem_map, List.getElem_map, List.getElem_range, raw, Block.byteAt, if_pos hi', List.getD_eq_getElem?_getD,
    List.getElem?_eq_getElem (by rw [length_header]; exact hi'), Option.getD_some]

theorem raw_area (blk : Block) (h : 24 ≤ p) : raw blk p = (blk.bytes p).val := by
  rw [raw, Block.byteAt, if_neg (Nat.not_lt.mpr h)]

/-- What has been written, byte by byte. -/
theorem written_apply (bytes : ℕ → ℕ) (p : ℕ) (l : List ℕ) (i : ℕ) :
    written bytes p l i = if p ≤ i ∧ i < p + l.length then l.getD (i - p) 0 else bytes i := by
  split
  · rename_i h
    obtain ⟨k, rfl⟩ := Nat.exists_eq_add_of_le h.1
    have hk : k < l.length := by omega
    have hslice := congrArg (fun l' => l'.getD k 0) (slice_written bytes l p)
    simp only [List.getD_eq_getElem?_getD, slice, List.getElem?_map, List.getElem?_range hk, Option.map_some, Option.getD_some] at hslice
    rw [hslice, Nat.add_sub_cancel_left, List.getD_eq_getElem?_getD]
  · exact written_outside bytes l (by omega)

/-- A write behind the header. -/
theorem withBytes_written (hp : 24 ≤ p) : withBytes blk (written (raw blk) p l) = putBytes blk p l := by
  have hheader : (List.range 24).map (written (raw blk) p l) = blk.header.map Fin.val := by
    rw [← raw_header]
    refine List.map_congr_left fun i hi => written_outside _ _ (.inl ?_)
    have := List.mem_range.mp hi
    omega
  rw [withBytes, if_pos hheader, putBytes]
  congr 1
  funext i
  rw [written_apply]
  by_cases hi : i < 24
  · rw [if_pos hi, if_neg (by omega)]
  · rw [if_neg hi]
    split
    · rfl
    · rw [raw_area blk (Nat.not_lt.mp hi)]
      exact Fin.ofNat_val_eq_self _

theorem raw_putBytes (hp : 24 ≤ p) (i : ℕ) :
    raw (putBytes blk p l) i = if p ≤ i ∧ i < p + l.length then l.getD (i - p) 0 % 256 else raw blk i := by
  by_cases hi : i < 24
  · rw [if_neg (by omega), raw, raw, Block.byteAt, Block.byteAt, if_pos hi, if_pos hi]
    rfl
  · rw [raw_area _ (Nat.not_lt.mp hi), raw_area _ (Nat.not_lt.mp hi)]
    show (if p ≤ i ∧ i < p + l.length then Fin.ofNat 256 (l.getD (i - p) 0) else blk.bytes i).val = _
    by_cases hin : p ≤ i ∧ i < p + l.length
    · rw [if_pos hin, if_pos hin]
      rfl
    · rw [if_neg hin, if_neg hin]

theorem raw_putBytes_outside (hp : 24 ≤ p) {i : ℕ} (h : i < p ∨ p + l.length ≤ i) : raw (putBytes blk p l) i = raw blk i := by
  rw [raw_putBytes hp, if_neg (by omega)]

theorem raw_putBytes_inside (hp : 24 ≤ p) (hl : ∀ v ∈ l, v < 256) {i : ℕ} (hi : i < l.length) :
    raw (putBytes blk p l) (p + i) = l[i] := by
  rw [raw_putBytes hp, if_pos (by omega), Nat.add_sub_cancel_left, List.getD_eq_getElem?_getD, List.getElem?_eq_getElem hi,
    Option.getD_some, Nat.mod_eq_of_lt (hl _ (List.getElem_mem hi))]

theorem mem_int16Bytes {v : ℤ} : ∀ x ∈ int16Bytes v, x < 256 := by
  intro x hx
  simp only [int16Bytes, List.mem_cons, List.not_mem_nil, or_false] at hx
  omega

/-- A number is read where it has been put. -/
theorem field_putBytes (hp : 24 ≤ p) (v : ℤ) : slice (raw (putBytes blk p (int16Bytes v))) p 2 = int16Bytes v := by
  refine List.ext_getElem (by rw [length_slice, length_int16Bytes]) fun i hi hi' => ?_
  rw [← @raw_putBytes_inside blk p _ hp mem_int16Bytes i hi']
  simp [slice]

theorem field_putBytes_outside (hp : 24 ≤ p) (h : q + 2 ≤ p ∨ p + l.length ≤ q) :
    slice (raw (putBytes blk p l)) q 2 = slice (raw blk) q 2 :=
  slice_congr fun i hi hi' => raw_putBytes_outside hp (by omega)

/-! ### Rows -/

/-- The bytes of a row. -/
structure RowBytes where
  bytes : List ℕ
  /-- The size is recorded. -/
  size : toInt16 (bytes.take 2) = bytes.length
  /-- There is room for the fields of a row. -/
  six : 6 ≤ bytes.length
  byte : ∀ v ∈ bytes, v < 256

theorem RowBytes.lt (r : RowBytes) : r.bytes.length < 32768 := by
  have h := r.size
  unfold toInt16 at h
  dsimp only at h
  split at h
  · omega
  · obtain ⟨a, b, l, hl⟩ : ∃ a b l, r.bytes = a :: b :: l := by
      have := r.six
      match hb : r.bytes with
      | [] => simp [hb] at this
      | [_] => simp [hb] at this
      | a :: b :: l => exact ⟨a, b, l, rfl⟩
    have ha := r.byte a (by simp [hl])
    have hb := r.byte b (by simp [hl])
    simp only [hl, List.take_succ_cons, List.take_zero, List.getD_cons_zero, List.getD_cons_succ] at h
    omega

/-- The bytes of the row are at position `p`, apart from the positions of other rows. -/
def Stores (bytes : ℕ → ℕ) (p : ℕ) (r : RowBytes) : Prop :=
  ∀ i (h : i < r.bytes.length), i < 2 ∨ 6 ≤ i → bytes (p + i) = r.bytes[i]

/-- The two directions in which the rows of a block are linked. -/
inductive Side where
  | next
  | prev
deriving DecidableEq

/-- `ROW_NEXT_POS` and `ROW_PREV_POS` -/
def Side.pos : Side → ℕ
  | .next => 4
  | .prev => 2

/-- The first row of the block, and the last one. -/
def Side.own : Side → Block → ℤ
  | .next => Block.rowHead
  | .prev => Block.rowTail

def Side.setOwn : Side → ℤ → Block → Block
  | .next, v, blk => { blk with rowHead := v }
  | .prev, v, blk => { blk with rowTail := v }

/-- The position that a row refers to, or that the block does for a position of zero. -/
def link (s : Side) (blk : Block) (p : ℕ) : ℤ := if p = 0 then s.own blk else toInt16 (slice (raw blk) (p + s.pos) 2)

/-- The block with one of these positions changed. -/
def setLink (s : Side) (p : ℕ) (v : ℤ) (blk : Block) : Block :=
  if p = 0 then s.setOwn v blk else putBytes blk (p + s.pos) (int16Bytes v)

/-- The position of a row, or of the block itself. -/
def Position (p : ℕ) : Prop := p = 0 ∨ 24 ≤ p

/-- Positions of which the fields are not the same bytes. -/
def Apart (p q : ℕ) : Prop := p = 0 ∨ q = 0 ∨ p + 6 ≤ q ∨ q + 6 ≤ p

theorem Side.pos_bounds (s : Side) : 2 ≤ s.pos ∧ s.pos ≤ 4 := by
  cases s <;> exact ⟨by decide, by decide⟩

theorem raw_setOwn (s : Side) (v : ℤ) {i : ℕ} (hi : 24 ≤ i) : raw (s.setOwn v blk) i = raw blk i := by
  rw [raw_area _ hi, raw_area _ hi]
  cases s <;> rfl

theorem own_setOwn (s s' : Side) (v : ℤ) : s'.own (s.setOwn v blk) = if s' = s then v else s'.own blk := by
  cases s <;> cases s' <;> rfl

theorem own_putBytes (s : Side) : s.own (putBytes blk p l) = s.own blk := by
  cases s <;> rfl

theorem rem_setLink (s : Side) (p : ℕ) (v : ℤ) : (setLink s p v blk).head = blk.head := by
  rw [setLink]
  split
  · cases s <;> rfl
  · rfl

/-- Nothing is changed but the one position. -/
theorem link_setLink {s s' : Side} {v : ℤ} (hp : Position p) (hq : Position q) (ha : p = q ∨ Apart p q) (h0 : 0 ≤ v) (hv : v < 32768) :
    link s' (setLink s p v blk) q = if s' = s ∧ q = p then v else link s' blk q := by
  obtain ⟨hs1, hs2⟩ := s.pos_bounds
  obtain ⟨hs1', hs2'⟩ := s'.pos_bounds
  rw [link, link, setLink]
  by_cases hq0 : q = 0
  · rw [if_pos hq0, if_pos hq0]
    by_cases hp0 : p = 0
    · rw [if_pos hp0, own_setOwn, hq0, hp0]
      simp only [and_true]
    · rw [if_neg hp0, own_putBytes, if_neg (fun h => hp0 (h.2.symm.trans hq0))]
  · have hq24 := hq.resolve_left hq0
    rw [if_neg hq0, if_neg hq0]
    by_cases hp0 : p = 0
    · rw [if_pos hp0, if_neg fun h => hq0 (h.2.trans hp0)]
      exact congrArg toInt16 (slice_congr fun i hi _ => raw_setOwn s v (by omega))
    · have hp24 := hp.resolve_left hp0
      rw [if_neg hp0]
      by_cases hsame : s' = s ∧ q = p
      · obtain ⟨rfl, rfl⟩ := hsame
        rw [if_pos ⟨rfl, rfl⟩, field_putBytes (by omega), toInt16_int16Bytes h0 hv]
      · rw [if_neg hsame, field_putBytes_outside (by omega)]
        rw [length_int16Bytes]
        rcases ha with rfl | ha | ha | ha
        · have hne : s' ≠ s := fun e => hsame ⟨e, rfl⟩
          have hpos : s'.pos + 2 ≤ s.pos ∨ s.pos + 2 ≤ s'.pos := by
            cases s <;> cases s' <;> first | exact absurd rfl hne | decide
          omega
        · exact absurd ha hp0
        · exact absurd ha hq0
        · omega

/-- What a row has besides its links does not change. -/
theorem stores_setLink {s : Side} {v : ℤ} {r : RowBytes} (h : Stores (raw blk) q r) (hq : 24 ≤ q)
    (ha : p = 0 ∨ p = q ∨ p + 6 ≤ q ∨ q + r.bytes.length ≤ p) (hp : Position p) : Stores (raw (setLink s p v blk)) q r := by
  obtain ⟨hs1, hs2⟩ := s.pos_bounds
  intro i hi hfield
  rw [← h i hi hfield, setLink]
  by_cases hp0 : p = 0
  · rw [if_pos hp0]
    exact raw_setOwn s v (by omega)
  · have hp24 := hp.resolve_left hp0
    rw [if_neg hp0]
    refine raw_putBytes_outside (by omega) ?_
    rw [length_int16Bytes]
    omega

/-! ### Blocks of rows -/

/-- Where the rows of a block are, and what they have. -/
structure Layout (blk : Block) (rows : List (ℕ × RowBytes)) : Prop where
  room : 0 ≤ blk.head.rem ∧ blk.head.rem ≤ 32744
  bounds : ∀ x ∈ rows, 24 ≤ x.1 ∧ (x.1 : ℤ) + x.2.bytes.length + blk.head.rem ≤ 32768
  /-- The rows are in order. -/
  order : rows.Pairwise fun x y => x.1 + x.2.bytes.length ≤ y.1
  stores : ∀ x ∈ rows, Stores (raw blk) x.1 x.2

/-- A block with some rows, the first one put there before the others. -/
structure HoldsRows (blk : Block) (rows : List (ℕ × RowBytes)) : Prop extends Layout blk rows where
  ring : RingOf (link .next blk) (link .prev blk) (fun p : ℕ => (p : ℤ)) 0 (rows.map Prod.fst)

variable {rows A B : List (ℕ × RowBytes)} {x y : ℕ × RowBytes}

theorem Layout.lt (h : Layout blk rows) (hx : x ∈ rows) : x.1 < 32768 := by
  have := (h.bounds x hx).2
  have := h.room.1
  have := x.2.six
  omega

theorem Layout.apart (h : Layout blk rows) (hx : x ∈ rows) (hy : y ∈ rows) :
    x.1 = y.1 ∨ x.1 + x.2.bytes.length ≤ y.1 ∨ y.1 + y.2.bytes.length ≤ x.1 := by
  refine List.Pairwise.forall_of_forall_of_flip
    (R := fun x y : ℕ × RowBytes => x.1 = y.1 ∨ x.1 + x.2.bytes.length ≤ y.1 ∨ y.1 + y.2.bytes.length ≤ x.1)
    (fun x _ => .inl rfl) (h.order.imp ?_) (h.order.imp ?_) hx hy
  · exact fun hxy => .inr (.inl hxy)
  · exact fun hxy => .inr (.inr hxy)

theorem Layout.positions (h : Layout blk rows) : (0 :: rows.map Prod.fst).Nodup := by
  refine List.nodup_cons.mpr ⟨fun h0 => ?_, ?_⟩
  · obtain ⟨x, hx, hx0⟩ := List.mem_map.mp h0
    have := (h.bounds x hx).1
    omega
  · rw [List.Nodup, List.pairwise_map]
    refine h.order.imp fun {x y} hxy => ?_
    have := x.2.six
    omega

theorem Layout.position (h : Layout blk rows) (hp : p ∈ 0 :: rows.map Prod.fst) : Position p := by
  rcases List.mem_cons.mp hp with rfl | hp
  · exact .inl rfl
  · obtain ⟨x, hx, rfl⟩ := List.mem_map.mp hp
    exact .inr (h.bounds x hx).1

theorem Layout.position_lt (h : Layout blk rows) (hp : p ∈ 0 :: rows.map Prod.fst) : p < 32768 := by
  rcases List.mem_cons.mp hp with rfl | hp
  · decide
  · obtain ⟨x, hx, rfl⟩ := List.mem_map.mp hp
    exact h.lt hx

theorem Layout.positions_apart (h : Layout blk rows) (hp : p ∈ 0 :: rows.map Prod.fst) (hq : q ∈ 0 :: rows.map Prod.fst) :
    p = q ∨ Apart p q := by
  rcases List.mem_cons.mp hp with rfl | hp
  · exact .inr (.inl rfl)
  rcases List.mem_cons.mp hq with rfl | hq
  · exact .inr (.inr (.inl rfl))
  obtain ⟨x, hx, rfl⟩ := List.mem_map.mp hp
  obtain ⟨y, hy, rfl⟩ := List.mem_map.mp hq
  have := x.2.six
  have := y.2.six
  rcases h.apart hx hy with hxy | hxy | hxy
  · exact .inl hxy
  · exact .inr (.inr (.inr (.inl (by omega))))
  · exact .inr (.inr (.inr (.inr (by omega))))

theorem Layout.position_room (h : Layout blk rows) (hp : p ∈ 0 :: rows.map Prod.fst) : p + 6 ≤ 32768 := by
  rcases List.mem_cons.mp hp with rfl | hp
  · decide
  · obtain ⟨x, hx, rfl⟩ := List.mem_map.mp hp
    have := (h.bounds x hx).2
    have := h.room.1
    have := x.2.six
    omega

/-- A change of links of the block or of its rows. -/
theorem Layout.setLink (h : Layout blk rows) (s : Side) (hp : p ∈ 0 :: rows.map Prod.fst) (v : ℤ) :
    Layout (setLink s p v blk) rows where
  room := by
    rw [rem_setLink]
    exact h.room
  bounds := by
    rw [rem_setLink]
    exact h.bounds
  order := h.order
  stores x hx := by
    refine stores_setLink (h.stores x hx) (h.bounds x hx).1 ?_ (h.position hp)
    rcases List.mem_cons.mp hp with rfl | hp
    · exact .inl rfl
    · obtain ⟨y, hy, rfl⟩ := List.mem_map.mp hp
      have := y.2.six
      rcases h.apart hy hx with hxy | hxy | hxy
      · exact .inr (.inl hxy)
      · exact .inr (.inr (.inl (by omega)))
      · exact .inr (.inr (.inr hxy))

/-- What is read of the links behind a change of one of them. -/
theorem Layout.link_setLink (h : Layout blk rows) (s s' : Side) (hp : p ∈ 0 :: rows.map Prod.fst) (hq : q ∈ 0 :: rows.map Prod.fst)
    {v : ℕ} (hv : v ∈ 0 :: rows.map Prod.fst) :
    link s' (Rows.setLink s p v blk) q = if s' = s ∧ q = p then (v : ℤ) else link s' blk q :=
  Rows.link_setLink (h.position hp) (h.position hq) (h.positions_apart hp hq) (Int.natCast_nonneg v) (by
    have := h.position_lt hv
    omega)

/-! ### A row is put behind the others -/

/-- The block with the bytes of a row at `q`, where its rows have ended. -/
def putRowBytes (q : ℕ) (l : List ℕ) (blk : Block) : Block :=
  { putBytes blk q l with head := .data (blk.head.rem - l.length) }

/-- The block with a row at `q` behind the others. -/
def appendRow (q : ℕ) (l : List ℕ) (blk : Block) : Block :=
  let tail := (link .prev blk 0).toNat
  setLink .prev 0 q (setLink .next tail q (setLink .next q 0 (setLink .prev q tail (putRowBytes q l blk))))

/-- A new block. -/
theorem holdsRows_nil (hrem : blk.head.rem = 32744) (hhead : blk.rowHead = 0) (htail : blk.rowTail = 0) : HoldsRows blk [] where
  room := by omega
  bounds := by simp
  order := List.Pairwise.nil
  stores := by simp
  ring := ringOf_nil.mpr ⟨hhead, htail⟩

section Append

variable {r : RowBytes}

theorem Layout.append (h : Layout blk rows) (hq : (q : ℤ) = 32768 - blk.head.rem) (hr : (r.bytes.length : ℤ) ≤ blk.head.rem) :
    Layout (putRowBytes q r.bytes blk) (rows ++ [(q, r)]) := by
  obtain ⟨hroom, hroom'⟩ := h.room
  have hrem : (putRowBytes q r.bytes blk).head.rem = blk.head.rem - r.bytes.length := rfl
  have hq24 : 24 ≤ q := by omega
  have hraw : ∀ i, 24 ≤ i → raw (putRowBytes q r.bytes blk) i = raw (putBytes blk q r.bytes) i := fun i hi => by
    rw [raw_area _ hi, raw_area _ hi]
    rfl
  refine ⟨by omega, fun x hx => ?_, ?_, fun x hx => ?_⟩
  · rcases List.mem_append.mp hx with hx | hx
    · have := h.bounds x hx
      omega
    · obtain rfl := List.mem_singleton.mp hx
      dsimp only
      omega
  · refine List.pairwise_append.mpr ⟨h.order, List.pairwise_singleton _ _, fun x hx y hy => ?_⟩
    obtain rfl := List.mem_singleton.mp hy
    have := h.bounds x hx
    dsimp only
    omega
  · intro i hi hfield
    rcases List.mem_append.mp hx with hx | hx
    · have := h.bounds x hx
      rw [hraw _ (by omega), raw_putBytes_outside hq24 (by omega)]
      exact h.stores x hx i hi hfield
    · obtain rfl := List.mem_singleton.mp hx
      dsimp only at hi ⊢
      rw [hraw _ (by omega), raw_putBytes_inside hq24 r.byte hi]

theorem link_putRowBytes (s : Side) (hp : p = 0 ∨ 24 ≤ p ∧ p + 6 ≤ q) (hq : 24 ≤ q) : link s (putRowBytes q l blk) p = link s blk p := by
  obtain ⟨hs1, hs2⟩ := s.pos_bounds
  rw [link, link]
  rcases hp with rfl | ⟨hp, hpq⟩
  · rw [if_pos rfl, if_pos rfl]
    cases s <;> rfl
  · rw [if_neg (by omega), if_neg (by omega)]
    refine congrArg toInt16 (slice_congr fun i hi hi' => ?_)
    have hraw : raw (putRowBytes q l blk) i = raw (putBytes blk q l) i := by
      rw [raw_area _ (by omega), raw_area _ (by omega)]
      rfl
    rw [hraw, raw_putBytes_outside hq (by omega)]

/-- A row is put behind the others. -/
theorem HoldsRows.append (h : HoldsRows blk rows) (hq : (q : ℤ) = 32768 - blk.head.rem) (hr : (r.bytes.length : ℤ) ≤ blk.head.rem) :
    HoldsRows (appendRow q r.bytes blk) (rows ++ [(q, r)]) := by
  have hroom := h.room
  have hl0 := h.toLayout.append hq hr
  have hlast : link .prev blk 0 = ((rows.map Prod.fst).getLastD 0 : ℕ) := h.ring.last
  have htail : (link .prev blk 0).toNat = (rows.map Prod.fst).getLastD 0 := by rw [hlast, Int.toNat_natCast]
  have hmem : ∀ p ∈ 0 :: rows.map Prod.fst, p ∈ 0 :: (rows ++ [(q, r)]).map Prod.fst := fun p hp => by
    rw [List.map_append, ← List.cons_append]
    exact List.mem_append_left _ hp
  have hqm : q ∈ 0 :: (rows ++ [(q, r)]).map Prod.fst := by simp
  have h0m : 0 ∈ 0 :: (rows ++ [(q, r)]).map Prod.fst := List.mem_cons_self
  have htm : (rows.map Prod.fst).getLastD 0 ∈ 0 :: (rows ++ [(q, r)]).map Prod.fst := by
    refine hmem _ ?_
    exact List.getLastD_mem_cons
  have hl1 := hl0.setLink .prev hqm ((rows.map Prod.fst).getLastD 0 : ℕ)
  have hl2 := hl1.setLink .next hqm (0 : ℕ)
  have hl3 := hl2.setLink .next htm (q : ℕ)
  have hl4 := hl3.setLink .prev h0m (q : ℕ)
  have hqn : q ∉ 0 :: rows.map Prod.fst := fun hmem => by
    have hnd := hl0.positions
    rw [List.map_append, ← List.cons_append] at hnd
    exact List.disjoint_of_nodup_append hnd hmem (by simp)
  have hput := h.ring.put h.positions hqn
  rw [appendRow, htail]
  show HoldsRows (setLink .prev 0 q (setLink .next _ q (setLink .next q (0 : ℕ) (setLink .prev q _ _)))) _
  refine ⟨hl4, ?_⟩
  rw [List.map_append]
  refine hput.congr (fun a ha => ?_) fun a ha => ?_
  all_goals
    have ha' : a ∈ 0 :: (rows ++ [(q, r)]).map Prod.fst := by rwa [List.map_append]
    have hold : a ≠ q → ∀ s, link s (putRowBytes q r.bytes blk) a = link s blk a := fun hne s => by
      refine link_putRowBytes s ?_ (by omega)
      rcases List.mem_cons.mp ha' with rfl | ham
      · exact .inl rfl
      · obtain ⟨x, hx, rfl⟩ := List.mem_map.mp ham
        rcases List.mem_append.mp hx with hx | hx
        · have := h.bounds x hx
          have := x.2.six
          exact .inr (by omega)
        · obtain rfl := List.mem_singleton.mp hx
          exact absurd rfl hne
    simp only [hl3.link_setLink .prev _ h0m ha' hqm, hl2.link_setLink .next _ htm ha' hqm, hl1.link_setLink .next _ hqm ha' h0m,
      hl0.link_setLink .prev _ hqm ha' htm, Function.update_apply, reduceCtorEq, false_and, true_and, if_false]
    by_cases haq : a = q
    · simp only [if_pos haq]
    · simp only [if_neg haq, hold haq]

end Append

/-! ### A row is unlinked -/

/-- The block without the row at `q`. -/
def unlinkRow (q : ℕ) (blk : Block) : Block :=
  let prev := (link .prev blk q).toNat
  let next := (link .next blk q).toNat
  setLink .prev next prev (setLink .next prev next blk)

theorem Layout.sublist {rows' : List (ℕ × RowBytes)} (h : Layout blk rows) (hs : rows'.Sublist rows) : Layout blk rows' where
  room := h.room
  bounds x hx := h.bounds x (hs.subset hx)
  order := h.order.sublist hs
  stores x hx := h.stores x (hs.subset hx)

/-- What a row refers to. -/
theorem HoldsRows.links (h : HoldsRows blk (A ++ x :: B)) :
    link .prev blk x.1 = ((A.map Prod.fst).getLastD 0 : ℕ) ∧ link .next blk x.1 = ((B.map Prod.fst).headD 0 : ℕ) := by
  have hring := h.ring
  rw [List.map_append, List.map_cons] at hring
  exact ⟨hring.prev, hring.next⟩

theorem HoldsRows.head (h : HoldsRows blk rows) : blk.rowHead = ((rows.map Prod.fst).headD 0 : ℕ) := h.ring.first

theorem HoldsRows.tail (h : HoldsRows blk rows) : blk.rowTail = ((rows.map Prod.fst).getLastD 0 : ℕ) := h.ring.last

/-- There is a first row if and only if there is a last one. -/
theorem HoldsRows.head_eq_zero_iff (h : HoldsRows blk rows) : blk.rowHead = 0 ↔ blk.rowTail = 0 := by
  rw [h.head, h.tail]
  cases rows with
  | nil => exact Iff.rfl
  | cons a l =>
    have hpos : ∀ p ∈ (a :: l).map Prod.fst, p ≠ 0 := fun p hp e => (List.nodup_cons.mp h.positions).1 (e ▸ hp)
    rw [List.map_cons, List.headD_cons, List.getLastD_cons]
    have ha := hpos a.1 List.mem_cons_self
    have hl := hpos _ (List.getLastD_mem_cons (l := l.map Prod.fst) (a := a.1))
    exact ⟨fun e => absurd (by exact_mod_cast e) ha, fun e => absurd (by exact_mod_cast e) hl⟩

/-- The first row is the one without a row before it. -/
theorem HoldsRows.isFirst (h : HoldsRows blk (A ++ x :: B)) : blk.rowHead = x.1 ↔ (A.map Prod.fst).getLastD 0 = 0 := by
  have hnd := h.positions
  rw [h.head]
  cases A with
  | nil => simp
  | cons a A =>
    rw [List.map_append, List.map_cons, List.cons_append, List.headD_cons, List.getLastD_cons]
    have hmem := List.getLastD_mem_cons (l := A.map Prod.fst) (a := a.1)
    refine ⟨fun e => ?_, fun e => ?_⟩
    · have hax : a.1 = x.1 := by exact_mod_cast e
      simp [hax] at hnd
    · rw [e] at hmem
      simp only [List.map_append, List.map_cons, List.cons_append, List.nodup_cons, List.mem_cons, List.mem_append, not_or] at hnd
      rcases List.mem_cons.mp hmem with h0 | h0
      · exact absurd h0 hnd.1.1
      · exact absurd h0 hnd.1.2.1

/-- The last row is the one without a row behind it. -/
theorem HoldsRows.isLast (h : HoldsRows blk (A ++ x :: B)) : blk.rowTail = x.1 ↔ (B.map Prod.fst).headD 0 = 0 := by
  have hnd := h.positions
  rw [h.tail]
  cases B with
  | nil => simp
  | cons b B =>
    have hend : ((A ++ x :: b :: B).map Prod.fst).getLastD 0 = (B.map Prod.fst).getLastD b.1 := by
      simp [List.getLastD_eq_getLast?, List.getLast?_append, List.getLast?_cons]
    rw [hend, List.map_cons, List.headD_cons]
    have hmem := List.getLastD_mem_cons (l := B.map Prod.fst) (a := b.1)
    simp only [List.map_append, List.map_cons, List.nodup_cons, List.mem_cons, List.mem_append, not_or, List.nodup_append] at hnd
    refine ⟨fun e => ?_, fun e => absurd e.symm hnd.1.2.2.1⟩
    have he : (B.map Prod.fst).getLastD b.1 = x.1 := by exact_mod_cast e
    rw [he] at hmem
    exact absurd (List.mem_cons.mp hmem) (not_or.mpr hnd.2.2.1.1)

/-- A row is taken out from among the others. -/
theorem HoldsRows.unlink (h : HoldsRows blk (A ++ x :: B)) : HoldsRows (Rows.unlinkRow x.1 blk) (A ++ B) := by
  obtain ⟨hprev, hnext⟩ := h.links
  have hl0 := h.toLayout.sublist ((List.Sublist.refl A).append (List.sublist_cons_self x B))
  have hpm : (A.map Prod.fst).getLastD 0 ∈ 0 :: (A ++ B).map Prod.fst := by
    have hmem := List.getLastD_mem_cons (l := A.map Prod.fst) (a := 0)
    rw [List.map_append, ← List.cons_append]
    exact List.mem_append_left _ hmem
  have hnm : (B.map Prod.fst).headD 0 ∈ 0 :: (A ++ B).map Prod.fst := by
    cases B with
    | nil => exact List.mem_cons_self
    | cons y B => simp
  have hl1 := hl0.setLink .next hpm ((B.map Prod.fst).headD 0 : ℕ)
  have hl2 := hl1.setLink .prev hnm ((A.map Prod.fst).getLastD 0 : ℕ)
  have hring := h.ring
  have hnodup := h.positions
  rw [List.map_append, List.map_cons] at hring hnodup
  have hout := hring.takeOut hnodup
  rw [Rows.unlinkRow, hprev, hnext, Int.toNat_natCast, Int.toNat_natCast]
  refine ⟨hl2, ?_⟩
  rw [List.map_append]
  refine hout.congr (fun a ha => ?_) fun a ha => ?_
  all_goals
    have ha' : a ∈ 0 :: (A ++ B).map Prod.fst := by rwa [List.map_append]
    simp only [hl1.link_setLink .prev _ hnm ha' hpm, hl0.link_setLink .next _ hpm ha' hnm, Function.update_apply, reduceCtorEq,
      false_and, true_and, if_false, hprev, hnext]

end RedB.Rows
