import RedB.Dml.Append
import RedB.Storage.Block
import RedB.Storage.Buffer
import Mathlib.Algebra.Order.BigOperators.Group.List

/-!
# Rows in bytes

A row is a buffer: its size in two bytes, the positions of the rows before and behind it in
the block, two bytes each, then a byte for the size of each column, and the values. `Holds`
says that a buffer has the bytes of a row; an append to the buffer is an append to the row
(`appendText_holds`) while the size of the row fits two bytes, and what the buffer returns for
a column is what the row does (`valueAt_holds`).

A row that is copied into a block and out of it has the values that were appended if and only
if the size fits two bytes and the sizes of all values fit one (`rowCodec_iff`).
-/

namespace RedB.Dml

open Runs Buffer

/-- `COLUMN_SIZE_POS`, with a byte for each column. -/
def headerSize (n : ℕ) : ℕ := columnSizePos + n

/-- `row::init`, of a row of `n` columns. -/
def initRow (n : ℕ) : BufferM Unit := do
  clear
  seek 0
  putInt16 (headerSize n)
  seek 2
  putInt16 0
  seek 4
  putInt16 0

/-- `row::size` -/
def rowSize : BufferM ℤ := do
  seek 0
  getInt16

/-- `row::size`, of a new size. -/
def setRowSize (value : ℤ) : BufferM Unit := do
  seek 0
  putInt16 value

/-- The end of `row::append`: a value that has been made is put behind the others. -/
def appendText (i : ℕ) (text : Text) : BufferM Unit := do
  let size ← rowSize
  seek size
  putAll (text.map Char.toNat)
  let b ← get
  setRowSize b.index
  seek (columnSizePos + i : ℕ)
  put (text.length % 256)

/-- `row::append`, for a column that there is. -/
def appendValue (A : Arith) (col : Column) (i : ℕ) (value : Text) : BufferM Text :=
  if col.accepts A value then
    match col.store A value with
    | none => throw .number
    | some text => do
        appendText i text
        pure text
  else throw .value

/-- `row::append`, for the columns from `i` on: the values that have been stored. -/
def appendAll (A : Arith) : List Column → ℕ → List Text → BufferM (List Text)
  | [], _, _ => pure []
  | _ :: _, _, [] => throw .value
  | col :: cols, i, value :: values => do
      let text ← appendValue A col i value
      let texts ← appendAll A cols (i + 1) values
      pure (text :: texts)

/-- A row that is made, column by column. -/
def buildRow (A : Arith) (cols : List Column) (values : List Text) : BufferM (List Text) := do
  initRow cols.length
  appendAll A cols 0 values

/-- `row::value_at`, of a row of `n` columns. -/
def valueAt (n i : ℕ) : BufferM Text := do
  seek columnSizePos
  let sizes ← getAll i
  let size ← getByte
  seek (headerSize n + sizes.sum : ℕ)
  let l ← getAll size
  pure (l.map Char.ofNat)

/-- `row::backing`: the bytes of the row. -/
def backing : BufferM (List ℕ) := do
  let size ← rowSize
  seek size
  trip
  let b ← get
  getAll b.bound

/-- The bytes of a row in a block, as `row::copy_row` reads them. -/
def readRow (position : ℕ) : BufferM (List ℕ) := do
  seek position
  let size ← getInt16
  let b ← get
  seek (b.index - 2)
  getAll size.toNat

/-- `row::copy_row`, with the bytes that it reads. -/
def copyRow (l : List ℕ) : BufferM Unit := do
  clear
  putAll l
  trip

/-- `tree::make_row` -/
def makeRowBuffer (cols : List Column) (bytes : ℕ → ℕ) : Buffer := Buffer.make (headerSize cols.length + capacity cols) bytes

/-- `buffer::put`, of the bytes of a row at a position. -/
def putRow (position : ℕ) (l : List ℕ) : BufferM Unit := do
  seek position
  putAll l

/-- A row that is put into a block at a position and copied from there, into a new row. -/
def throughBlock (row block new : Buffer) (position : ℕ) : Option Buffer := do
  let (l, _) ← result (backing row)
  let (_, block) ← result (putRow position l block)
  let (l, _) ← result (readRow position block)
  let (_, row) ← result (copyRow l new)
  some row

/-- A block of a table. -/
structure BlockBuffer extends Buffer where
  size_eq : size = 32768
  bound_eq : bound = size

/-- A row comes back from every position of every block with room for it, with the values that
have been appended, and its size is recorded. -/
structure RoundTrips (cols : List Column) (texts : List Text) (row : Buffer) : Prop where
  recorded : ∃ row', rowSize row = .ok (headerSize cols.length + texts.flatten.length : ℕ) row'
  back : ∀ (block : BlockBuffer) (bytes : ℕ → ℕ) (position : ℕ),
    position + (headerSize cols.length + texts.flatten.length) ≤ block.size →
      ∃ row', throughBlock row block.toBuffer (makeRowBuffer cols bytes) position = some row' ∧
        ∀ i (h : i < texts.length), ∃ row'', valueAt cols.length i row' = .ok texts[i] row''

/-! ### Texts in a row -/

/-- Texts of less than 256 characters are read back. -/
theorem valueAt_ofTexts {texts : List Text} (h : ∀ text ∈ texts, text.length < 256) {i : ℕ} (hi : i < texts.length) :
    (Row.ofTexts texts).valueAt i = texts[i] := by
  have hsizes : (Row.ofTexts texts).sizes = texts.map List.length :=
    List.map_congr_left fun text ht => Nat.mod_eq_of_lt (h text ht)
  have hsum : ((texts.map List.length).take i).sum = (texts.take i).flatten.length := by
    rw [List.length_flatten, List.map_take]
  have hsize : (texts.map List.length).getD i 0 = texts[i].length := by
    rw [List.getD_eq_getElem?_getD, List.getElem?_map, List.getElem?_eq_getElem hi]
    rfl
  have hdata : texts.flatten = (texts.take i).flatten ++ (texts[i] ++ (texts.drop (i + 1)).flatten) := by
    rw [← List.flatten_cons, ← List.flatten_append, ← List.drop_eq_getElem_cons hi, List.take_append_drop]
  rw [Row.valueAt, hsizes, hsum, hsize]
  show (texts.flatten.drop _).take _ = _
  rw [hdata, List.drop_left' rfl, List.take_left' rfl]

theorem length_valueAt_lt (texts : List Text) (i : ℕ) : ((Row.ofTexts texts).valueAt i).length < 256 := by
  have hlt : (Row.ofTexts texts).sizes.getD i 0 < 256 := by
    rw [List.getD_eq_getElem?_getD]
    cases hi : (Row.ofTexts texts).sizes[i]? with
    | none => decide
    | some x =>
      obtain ⟨text, -, rfl⟩ := List.mem_map.mp (List.mem_of_getElem? hi)
      exact Nat.mod_lt _ (by decide)
  exact lt_of_le_of_lt (List.length_take_le ..) hlt

/-- A row has its texts if and only if they are short. -/
theorem valueAt_ofTexts_iff (texts : List Text) :
    (∀ i (h : i < texts.length), (Row.ofTexts texts).valueAt i = texts[i]) ↔ ∀ text ∈ texts, text.length < 256 := by
  refine ⟨fun h text ht => ?_, fun h i hi => valueAt_ofTexts h hi⟩
  obtain ⟨i, hi, rfl⟩ := List.getElem_of_mem ht
  rw [← h i hi]
  exact length_valueAt_lt texts i

/-! ### Buffers of rows -/

/-- A buffer with the bytes of a row. -/
structure Holds (b : Buffer) (r : Row) : Prop where
  size : slice b.bytes 0 2 = int16Bytes (headerSize r.sizes.length + r.data.length : ℕ)
  sizes : slice b.bytes columnSizePos r.sizes.length = r.sizes
  data : slice b.bytes (headerSize r.sizes.length) r.data.length = r.data.map Char.toNat
  fits : headerSize r.sizes.length + r.data.length ≤ b.bound
  small : headerSize r.sizes.length + r.data.length < 32768

@[simp] theorem Row.put_length (r : Row) (i : ℕ) (text : Text) : (r.put i text).sizes.length = r.sizes.length :=
  List.length_set ..

theorem Row.put_data_length (r : Row) (i : ℕ) (text : Text) : (r.put i text).data.length = r.data.length + text.length :=
  List.length_append ..

variable {b b' : Buffer} {r : Row}

theorem rowSize_ok {v : ℤ} : rowSize b = .ok v b' ↔
    ∃ h : 2 ≤ b.bound, toInt16 (slice b.bytes 0 2) = v ∧ { b with index := 2, index_le := h } = b' := by
  rw [rowSize, bind_ok]
  constructor
  · rintro ⟨_, s, hs, hg⟩
    obtain ⟨_, rfl⟩ := seek_ok.mp hs
    obtain ⟨l, s, hl, hp⟩ := bind_ok.mp hg
    obtain ⟨h, rfl, rfl⟩ := getAll_ok.mp hl
    obtain ⟨rfl, rfl⟩ := pure_ok.mp hp
    exact ⟨h, rfl, rfl⟩
  · rintro ⟨h, rfl, rfl⟩
    exact ⟨(), _, seek_ok.mpr ⟨Nat.zero_le _, rfl⟩, bind_ok.mpr ⟨_, _, getAll_ok.mpr ⟨h, rfl, rfl⟩, pure_ok.mpr ⟨rfl, rfl⟩⟩⟩

/-- The size of a row. -/
theorem Holds.rowSize (h : Holds b r) : ∃ hb : 2 ≤ b.bound,
    rowSize b = .ok (headerSize r.sizes.length + r.data.length : ℕ) { b with index := 2, index_le := hb } := by
  have hb : 2 ≤ b.bound := by
    have := h.fits
    simp only [headerSize, columnSizePos] at this
    omega
  refine ⟨hb, rowSize_ok.mpr ⟨hb, ?_, rfl⟩⟩
  rw [h.size, toInt16_int16Bytes (Int.natCast_nonneg _) (by exact_mod_cast h.small)]

/-- What an append does to the bytes of a row. -/
theorem appendText_ok {i : ℕ} {text : Text} {u : Unit} (h : Holds b r) (hi : i < r.sizes.length) :
    appendText i text b = .ok u b' ↔ ∃ hb : headerSize r.sizes.length + r.data.length + text.length ≤ b.bound,
      { b with
        bytes := Function.update (written (written b.bytes (headerSize r.sizes.length + r.data.length) (text.map Char.toNat)) 0
          (int16Bytes (headerSize r.sizes.length + r.data.length + text.length : ℕ))) (columnSizePos + i) (text.length % 256)
        index := columnSizePos + i + 1
        index_le := by simp only [headerSize] at hb; omega } = b' := by
  obtain ⟨hb, hsize⟩ := h.rowSize
  rw [appendText, bind_run hsize, bind_ok]
  constructor
  · rintro ⟨_, s, hs, hrest⟩
    obtain ⟨_, rfl⟩ := seek_ok.mp hs
    obtain ⟨_, s, hs, hrest⟩ := bind_ok.mp hrest
    obtain ⟨hfits, rfl⟩ := putAll_ok.mp hs
    rw [get_bind, setRowSize, bind_ok] at hrest
    obtain ⟨_, s, hs, hrest⟩ := hrest
    obtain ⟨_, s', hs', hs⟩ := bind_ok.mp hs
    obtain ⟨_, rfl⟩ := seek_ok.mp hs'
    obtain ⟨_, rfl⟩ := putAll_ok.mp hs
    obtain ⟨_, s, hs, hput⟩ := bind_ok.mp hrest
    obtain ⟨_, rfl⟩ := seek_ok.mp hs
    obtain ⟨_, rfl⟩ := put_ok.mp hput
    rw [List.length_map] at hfits
    refine ⟨hfits, Buffer.ext rfl rfl rfl ?_⟩
    dsimp only
    rw [List.length_map]
  · rintro ⟨hfits, rfl⟩
    simp only [headerSize, columnSizePos] at hfits hb
    refine ⟨(), _, seek_ok.mpr ⟨h.fits, rfl⟩, bind_ok.mpr ⟨(), _, putAll_ok.mpr ⟨?_, rfl⟩, ?_⟩⟩
    · rw [List.length_map]
      exact hfits
    · rw [get_bind, setRowSize, bind_ok]
      refine ⟨(), _, bind_ok.mpr ⟨(), _, seek_ok.mpr ⟨Nat.zero_le _, rfl⟩, putAll_ok.mpr ⟨hb, rfl⟩⟩,
        bind_ok.mpr ⟨(), _, seek_ok.mpr ⟨?_, rfl⟩, put_ok.mpr ⟨?_, ?_⟩⟩⟩
      · simp only [columnSizePos]
        omega
      · simp only [columnSizePos]
        omega
      · refine Buffer.ext rfl rfl rfl ?_
        dsimp only
        rw [List.length_map]

/-- An append to a buffer is an append to its row. -/
theorem appendText_holds {i : ℕ} {text : Text} {u : Unit} (h : Holds b r) (hi : i < r.sizes.length)
    (hs : headerSize r.sizes.length + r.data.length + text.length < 32768) (ha : appendText i text b = .ok u b') :
    Holds b' (r.put i text) ∧ b'.bound = b.bound := by
  obtain ⟨hb, rfl⟩ := (appendText_ok h hi).mp ha
  refine ⟨⟨?_, ?_, ?_, ?_, ?_⟩, rfl⟩
  · rw [Row.put_length, Row.put_data_length, ← Nat.add_assoc]
    show slice (written _ _ [_]) _ _ = _
    rw [slice_frame _ _ (Or.inl (by simp only [columnSizePos]; omega))]
    exact slice_written _ (int16Bytes _) 0
  · rw [Row.put_length]
    show slice (Function.update _ _ _) _ _ = r.sizes.set i _
    rw [slice_update, slice_frame _ _ (Or.inr (by simp [columnSizePos])), slice_frame _ _ (Or.inl (by simp only [headerSize]; omega)),
      h.sizes]
  · rw [Row.put_length, Row.put_data_length, slice_add]
    show slice (written _ _ [_]) _ _ ++ slice (written _ _ [_]) _ _ = (r.data ++ text).map _
    have hpos : columnSizePos + i + 1 ≤ headerSize r.sizes.length := by simp only [headerSize]; omega
    have hhead : 0 + 2 ≤ headerSize r.sizes.length := by simp only [headerSize, columnSizePos]; omega
    rw [slice_frame _ _ (Or.inr hpos), slice_frame _ _ (Or.inr hhead), slice_frame _ _ (Or.inl le_rfl), h.data,
      slice_frame _ _ (Or.inr (hpos.trans (Nat.le_add_right ..))), slice_frame _ _ (Or.inr (hhead.trans (Nat.le_add_right ..))), List.map_append]
    exact congrArg _ ((congrArg (slice _ _) (List.length_map _).symm).trans (slice_written ..))
  · rw [Row.put_length, Row.put_data_length, ← Nat.add_assoc]
    exact hb
  · rw [Row.put_length, Row.put_data_length, ← Nat.add_assoc]
    exact hs

/-- A new row. Its column sizes are what there was in memory. -/
theorem initRow_bytes {n : ℕ} {u : Unit} (hi : initRow n b = .ok u b') :
    b'.bytes = written (written (written b.bytes 0 (int16Bytes (headerSize n))) 2 (int16Bytes 0)) 4 (int16Bytes 0) ∧
      b'.bound = b.size := by
  rw [initRow, clear, modify_bind] at hi
  obtain ⟨_, s, hs, hi⟩ := bind_ok.mp hi
  obtain ⟨_, rfl⟩ := seek_ok.mp hs
  obtain ⟨_, s, hs, hi⟩ := bind_ok.mp hi
  obtain ⟨_, rfl⟩ := putAll_ok.mp hs
  obtain ⟨_, s, hs, hi⟩ := bind_ok.mp hi
  obtain ⟨_, rfl⟩ := seek_ok.mp hs
  obtain ⟨_, s, hs, hi⟩ := bind_ok.mp hi
  obtain ⟨_, rfl⟩ := putAll_ok.mp hs
  obtain ⟨_, s, hs, hi⟩ := bind_ok.mp hi
  obtain ⟨_, rfl⟩ := seek_ok.mp hs
  obtain ⟨_, rfl⟩ := putAll_ok.mp hi
  exact ⟨rfl, rfl⟩

theorem initRow_holds {n : ℕ} {u : Unit} (hn : headerSize n < 32768) (hb : headerSize n ≤ b.size) (hi : initRow n b = .ok u b') :
    Holds b' { sizes := slice b.bytes columnSizePos n, data := [] } ∧ b'.bound = b.size := by
  obtain ⟨hbytes, hbound⟩ := initRow_bytes hi
  refine ⟨⟨?_, ?_, rfl, ?_, ?_⟩, hbound⟩
  · rw [hbytes, slice_frame _ _ (Or.inl (by decide)), slice_frame _ _ (Or.inl (by decide))]
    simp only [length_slice]
    exact slice_written _ (int16Bytes _) 0
  · simp only [length_slice]
    have hpos : ∀ p ≤ 4, ∀ v, p + (int16Bytes v).length ≤ columnSizePos := fun p hp v => by
      rw [length_int16Bytes, columnSizePos]
      omega
    rw [hbytes, slice_frame _ _ (Or.inr (hpos 4 le_rfl 0)), slice_frame _ _ (Or.inr (hpos 2 (by decide) 0)),
      slice_frame _ _ (Or.inr (hpos 0 (by decide) _))]
  · simp only [length_slice]
    exact hbound ▸ hb
  · simp only [length_slice]
    exact hn

/-- The bytes of a buffer that has the row, in another buffer. -/
theorem Holds.copy (h : Holds b r) (hbound : headerSize r.sizes.length + r.data.length ≤ b'.bound)
    (hc : slice b'.bytes 0 (headerSize r.sizes.length + r.data.length) = slice b.bytes 0 (headerSize r.sizes.length + r.data.length)) :
    Holds b' r := by
  have hpart : ∀ p n, p + n ≤ headerSize r.sizes.length + r.data.length → slice b'.bytes p n = slice b.bytes p n := fun p n hp => by
    have hp' := slice_part b'.bytes (p := 0) hp
    have hp'' := slice_part b.bytes (p := 0) hp
    rw [Nat.zero_add] at hp' hp''
    rw [hp', hp'', hc]
  refine ⟨?_, ?_, ?_, hbound, h.small⟩
  · rw [hpart _ _ (by simp only [headerSize, columnSizePos]; omega), h.size]
  · rw [hpart _ _ (by simp only [headerSize]; omega), h.sizes]
  · rw [hpart _ _ le_rfl, h.data]

/-- What a buffer returns for a column is what its row does. -/
theorem Holds.valueAt (h : Holds b r) {i : ℕ} (hi : i < r.sizes.length) (hsum : (r.sizes.take (i + 1)).sum ≤ r.data.length) :
    ∃ b', valueAt r.sizes.length i b = .ok (r.valueAt i) b' := by
  have hfits := h.fits
  have hsplit : (r.sizes.take (i + 1)).sum = (r.sizes.take i).sum + r.sizes[i] := by
    rw [List.take_succ_eq_append_getElem hi, List.sum_append, List.sum_singleton]
  have hsize : b.bytes (columnSizePos + i) = r.sizes[i] := by
    have := congrArg (fun l : List ℕ => l[i]?) h.sizes
    simpa only [slice, List.getElem?_map, List.getElem?_range hi, Option.map_some, List.getElem?_eq_getElem hi, Option.some.injEq]
      using this
  have htake : slice b.bytes columnSizePos i = r.sizes.take i := by
    have := slice_part b.bytes (p := columnSizePos) (n := r.sizes.length) (m := 0) (k := i) (by omega)
    rw [Nat.add_zero, List.drop_zero, h.sizes] at this
    exact this
  have hdata : slice b.bytes (headerSize r.sizes.length + (r.sizes.take i).sum) r.sizes[i] = (r.valueAt i).map Char.toNat := by
    rw [slice_part b.bytes (n := r.data.length) (by omega), h.data, Row.valueAt, List.getD_eq_getElem?_getD, List.getElem?_eq_getElem hi,
      Option.getD_some, List.map_take, List.map_drop]
  have hback : ((r.valueAt i).map Char.toNat).map Char.ofNat = r.valueAt i := by
    rw [List.map_map]
    exact (List.map_congr_left fun c _ => Char.ofNat_toNat c).trans (List.map_id _)
  have hend : headerSize r.sizes.length + (r.sizes.take i).sum + r.sizes[i] ≤ b.bound := by omega
  have hpos : columnSizePos + i + 1 ≤ b.bound := by
    simp only [headerSize] at hfits
    omega
  exact ⟨_, bind_ok.mpr ⟨(), _, seek_ok.mpr ⟨by omega, rfl⟩, bind_ok.mpr ⟨_, _, getAll_ok.mpr ⟨Nat.le_of_succ_le hpos, htake, rfl⟩,
    bind_ok.mpr ⟨r.sizes[i], _, getByte_ok.mpr ⟨hpos, hsize, rfl⟩, bind_ok.mpr ⟨(), _, seek_ok.mpr ⟨Nat.le_of_add_right_le hend, rfl⟩,
      bind_ok.mpr ⟨_, _, getAll_ok.mpr ⟨hend, hdata, rfl⟩, pure_ok.mpr ⟨hback, rfl⟩⟩⟩⟩⟩⟩⟩

/-! ### Rows made column by column -/

/-- A row that has these texts, before there are texts for the last columns. -/
def Row.part (texts : List Text) (rest : List ℕ) : Row :=
  { sizes := texts.map (fun text => text.length % 256) ++ rest, data := texts.flatten }

theorem Row.part_nil (texts : List Text) : Row.part texts [] = Row.ofTexts texts := by
  rw [Row.part, Row.ofTexts, List.append_nil]

theorem Row.part_put (texts : List Text) (size : ℕ) (sizes : List ℕ) (text : Text) :
    (Row.part texts (size :: sizes)).put texts.length text = Row.part (texts ++ [text]) sizes := by
  have hl : (texts.map fun text => text.length % 256).length = texts.length := List.length_map ..
  rw [Row.put, Row.part, Row.part, List.set_append_right _ _ hl.le, hl, Nat.sub_self, List.set_cons_zero, List.map_append,
    List.append_assoc, List.flatten_append, List.flatten_singleton]
  rfl

variable {A : Arith} {i : ℕ} {values texts : List Text}

theorem appendValue_ok {col : Column} {value text : Text} :
    appendValue A col i value b = .ok text b' ↔ col.take A value = some text ∧ appendText i text b = .ok () b' := by
  rw [appendValue, Column.take]
  split
  · cases hs : col.store A value with
    | none => simp [throw_ok]
    | some text' =>
      rw [bind_ok]
      constructor
      · rintro ⟨_, s, hs, hp⟩
        obtain ⟨rfl, rfl⟩ := pure_ok.mp hp
        exact ⟨rfl, hs⟩
      · rintro ⟨ht, ha⟩
        obtain rfl := Option.some.inj ht
        exact ⟨(), b', ha, pure_ok.mpr ⟨rfl, rfl⟩⟩
  · simp [throw_ok]

theorem appendAll_cons {col : Column} {cols : List Column} {value : Text} :
    appendAll A (col :: cols) i (value :: values) b = .ok texts b' ↔ ∃ text rest s,
      col.take A value = some text ∧ appendText i text b = .ok () s ∧ appendAll A cols (i + 1) values s = .ok rest b' ∧
        texts = text :: rest := by
  rw [appendAll, bind_ok]
  constructor
  · rintro ⟨text, s, hs, hrest⟩
    obtain ⟨ht, ha⟩ := appendValue_ok.mp hs
    obtain ⟨rest, s', hs', hp⟩ := bind_ok.mp hrest
    obtain ⟨rfl, rfl⟩ := pure_ok.mp hp
    exact ⟨text, rest, s, ht, ha, hs', rfl⟩
  · rintro ⟨text, rest, s, ht, ha, hrest, rfl⟩
    exact ⟨text, s, appendValue_ok.mpr ⟨ht, ha⟩, bind_ok.mpr ⟨rest, b', hrest, pure_ok.mpr ⟨rfl, rfl⟩⟩⟩

/-- The values that are put into a row are what the columns make of them. -/
theorem appendAll_storeAll {cols : List Column} (h : appendAll A cols i values b = .ok texts b') :
    storeAll A cols values = some texts ∧ texts.length = cols.length := by
  induction cols generalizing i values texts b with
  | nil =>
    obtain ⟨rfl, -⟩ := pure_ok.mp h
    exact ⟨rfl, rfl⟩
  | cons col cols ih =>
    cases values with
    | nil => exact (throw_ok.mp h).elim
    | cons value values =>
      obtain ⟨text, rest, s, ht, -, hrest, rfl⟩ := appendAll_cons.mp h
      obtain ⟨hstore, hlen⟩ := ih hrest
      exact ⟨by rw [storeAll, ht, Option.bind_eq_bind, Option.bind_some, hstore]; rfl, congrArg (· + 1) hlen⟩

/-- The size of a row is an `int16_t`, whatever it is. -/
def Sized (b : Buffer) : Prop := ∃ v, slice b.bytes 0 2 = int16Bytes v

theorem appendText_sized {text : Text} {u : Unit} (h : appendText i text b = .ok u b') : Sized b' := by
  obtain ⟨_, s, -, h⟩ := bind_ok.mp h
  obtain ⟨_, s, -, h⟩ := bind_ok.mp h
  obtain ⟨_, s, -, h⟩ := bind_ok.mp h
  rw [get_bind, setRowSize] at h
  obtain ⟨_, s', hs', h⟩ := bind_ok.mp h
  obtain ⟨_, s'', hs'', hp⟩ := bind_ok.mp hs'
  obtain ⟨_, rfl⟩ := seek_ok.mp hs''
  obtain ⟨_, rfl⟩ := putAll_ok.mp hp
  obtain ⟨_, s, hs, h⟩ := bind_ok.mp h
  obtain ⟨_, rfl⟩ := seek_ok.mp hs
  obtain ⟨_, rfl⟩ := put_ok.mp h
  refine ⟨_, (slice_frame _ [text.length % 256] (Or.inl ?_)).trans (slice_written _ (int16Bytes _) 0)⟩
  simp only [columnSizePos]
  omega

theorem appendAll_sized {cols : List Column} (hb : Sized b) (h : appendAll A cols i values b = .ok texts b') : Sized b' := by
  induction cols generalizing i values texts b with
  | nil => exact (pure_ok.mp h).2 ▸ hb
  | cons col cols ih =>
    cases values with
    | nil => exact (throw_ok.mp h).elim
    | cons value values =>
      obtain ⟨text, rest, s, -, ha, hrest, -⟩ := appendAll_cons.mp h
      exact ih (appendText_sized ha) hrest

/-- A row is made: by induction on the columns that are left. -/
theorem appendAll_holds {cols : List Column} {pre : List Text} {sizes : List ℕ} (hb : Holds b (Row.part pre sizes))
    (hsizes : sizes.length = cols.length) (h : appendAll A cols pre.length values b = .ok texts b')
    (hs : headerSize (pre.length + cols.length) + (pre.flatten.length + texts.flatten.length) < 32768) :
    Holds b' (Row.ofTexts (pre ++ texts)) ∧ b'.bound = b.bound := by
  induction cols generalizing pre sizes values texts b with
  | nil =>
    obtain ⟨rfl, rfl⟩ := pure_ok.mp h
    obtain rfl := List.length_eq_zero_iff.mp hsizes
    rw [List.append_nil, ← Row.part_nil]
    exact ⟨hb, rfl⟩
  | cons col cols ih =>
    cases values with
    | nil => exact (throw_ok.mp h).elim
    | cons value values =>
      obtain ⟨text, rest, s, ht, ha, hrest, rfl⟩ := appendAll_cons.mp h
      cases sizes with
      | nil => cases hsizes
      | cons size sizes =>
        have hlen : (Row.part pre (size :: sizes)).sizes.length = pre.length + (col :: cols).length := by
          rw [← hsizes]
          show (pre.map _ ++ _).length = _
          rw [List.length_append, List.length_map]
        have hcols : (col :: cols).length = cols.length + 1 := rfl
        obtain ⟨hs', hbound⟩ := appendText_holds hb (by rw [hlen]; omega) (by
          rw [hlen]
          show _ + pre.flatten.length + _ < _
          rw [List.flatten_cons, List.length_append] at hs
          omega) ha
        rw [Row.part_put] at hs'
        have hlen' : (pre ++ [text]).length = pre.length + 1 := List.length_append
        obtain ⟨hrow, hbound'⟩ := ih hs' (by simpa using hsizes) (by rw [hlen']; exact hrest) (by
          rw [hlen', List.flatten_append, List.flatten_singleton, List.length_append]
          rw [List.flatten_cons, List.length_append] at hs
          rw [hcols] at hs
          rwa [Nat.add_assoc, Nat.add_comm 1, Nat.add_assoc])
        rw [List.append_assoc] at hrow
        exact ⟨hrow, hbound'.trans hbound⟩

theorem Row.part_length (texts : List Text) (sizes : List ℕ) :
    (Row.part texts sizes).sizes.length = texts.length + sizes.length := by
  rw [Row.part, List.length_append, List.length_map]

/-- There is room for all values: the row is made. -/
theorem appendAll_run {cols : List Column} {pre : List Text} {sizes : List ℕ} (hb : Holds b (Row.part pre sizes))
    (hsizes : sizes.length = cols.length) (h : storeAll A cols values = some texts)
    (hs : headerSize (pre.length + cols.length) + (pre.flatten.length + texts.flatten.length) < 32768)
    (hbound : headerSize (pre.length + cols.length) + (pre.flatten.length + texts.flatten.length) ≤ b.bound) :
    ∃ b', appendAll A cols pre.length values b = .ok texts b' := by
  induction cols generalizing pre sizes values texts b with
  | nil =>
    obtain rfl := Option.some.inj h
    exact ⟨b, rfl⟩
  | cons col cols ih =>
    cases values with
    | nil => cases h
    | cons value values =>
      obtain ⟨text, ht, h'⟩ := Option.bind_eq_some_iff.mp h
      obtain ⟨rest, hrest, hcons⟩ := Option.bind_eq_some_iff.mp h'
      obtain rfl := Option.some.inj hcons
      cases sizes with
      | nil => cases hsizes
      | cons size sizes =>
        have hlen : (Row.part pre (size :: sizes)).sizes.length = pre.length + (col :: cols).length := by
          rw [Row.part_length, hsizes]
        have hdata : (Row.part pre (size :: sizes)).data.length = pre.flatten.length := rfl
        have hcols : (col :: cols).length = cols.length + 1 := rfl
        rw [List.flatten_cons, List.length_append] at hs hbound
        have hi : pre.length < (Row.part pre (size :: sizes)).sizes.length := by omega
        obtain ⟨s, ha⟩ : ∃ s, appendText pre.length text b = .ok () s :=
          ⟨_, (appendText_ok hb hi).mpr ⟨by rw [hlen, hdata]; omega, rfl⟩⟩
        obtain ⟨hs', hbound'⟩ := appendText_holds hb hi (by rw [hlen, hdata]; omega) ha
        rw [Row.part_put] at hs'
        have hlen' : (pre ++ [text]).length = pre.length + 1 := List.length_append
        have hflat : (pre ++ [text]).flatten.length = pre.flatten.length + text.length := by
          rw [List.flatten_append, List.flatten_singleton, List.length_append]
        have hsucc : pre.length + 1 + cols.length = pre.length + (col :: cols).length := by omega
        obtain ⟨b', hb'⟩ := ih hs' (Nat.succ.inj hsizes) hrest (by rw [hlen', hflat, hsucc]; omega)
          (by rw [hlen', hflat, hsucc, hbound']; omega)
        rw [hlen'] at hb'
        exact ⟨b', appendAll_cons.mpr ⟨text, rest, s, ht, ha, hb', rfl⟩⟩

/-- The row of the values, in bytes. -/
theorem buildRow_holds {cols : List Column} (bytes : ℕ → ℕ) (h : makeRow A cols values = some r)
    (hs : headerSize cols.length + r.data.length < 32768) :
    ∃ texts row, buildRow A cols values (makeRowBuffer cols bytes) = .ok texts row ∧ r = Row.ofTexts texts ∧ Holds row r := by
  obtain ⟨texts, hstore, hmade⟩ := Option.bind_eq_some_iff.mp h
  split at hmade
  · rename_i hcap
    obtain rfl := Option.some.inj hmade
    have hs' : headerSize cols.length + texts.flatten.length < 32768 := hs
    obtain ⟨b₀, hinit⟩ : ∃ b₀, initRow cols.length (makeRowBuffer cols bytes) = .ok () b₀ := by
      have hsix : 6 ≤ headerSize cols.length + capacity cols := by
        simp only [headerSize, columnSizePos]
        omega
      exact ⟨_, bind_ok.mpr ⟨(), _, modify_ok.mpr rfl, bind_ok.mpr ⟨(), _, seek_ok.mpr ⟨Nat.zero_le _, rfl⟩,
        bind_ok.mpr ⟨(), _, putAll_ok.mpr ⟨show 2 ≤ headerSize cols.length + capacity cols by omega, rfl⟩,
        bind_ok.mpr ⟨(), _, seek_ok.mpr ⟨show 2 ≤ headerSize cols.length + capacity cols by omega, rfl⟩,
        bind_ok.mpr ⟨(), _, putAll_ok.mpr ⟨show 4 ≤ headerSize cols.length + capacity cols by omega, rfl⟩,
        bind_ok.mpr ⟨(), _, seek_ok.mpr ⟨show 4 ≤ headerSize cols.length + capacity cols by omega, rfl⟩,
        putAll_ok.mpr ⟨show 6 ≤ headerSize cols.length + capacity cols by omega, rfl⟩⟩⟩⟩⟩⟩⟩⟩
    obtain ⟨h₀, hb₀⟩ := initRow_holds (by omega) (Nat.le_add_right (headerSize cols.length) (capacity cols)) hinit
    have htotal : headerSize (([] : List Text).length + cols.length) + (([] : List Text).flatten.length + texts.flatten.length) =
        headerSize cols.length + texts.flatten.length := by
      rw [List.flatten_nil, List.length_nil, List.length_nil, Nat.zero_add, Nat.zero_add]
    have hlen : (slice bytes columnSizePos cols.length).length = cols.length := length_slice ..
    have hpart : Holds b₀ (Row.part [] (slice bytes columnSizePos cols.length)) := h₀
    obtain ⟨row, hrow⟩ := appendAll_run hpart hlen hstore (by rwa [htotal])
      (by rw [htotal, hb₀]; exact Nat.add_le_add_left hcap _)
    exact ⟨texts, row, bind_ok.mpr ⟨(), b₀, hinit, hrow⟩, rfl, (appendAll_holds hpart hlen hrow (by rwa [htotal])).1⟩
  · cases hmade

/-! ### Through a block -/

theorem result_ok {α : Type} {r : EStateM.Result Fault Buffer α} {a : α} {s : Buffer} (h : r = .ok a s) : result r = some (a, s) := by
  rw [h, result]

theorem Holds.backing (h : Holds b r) : ∃ b', backing b = .ok (slice b.bytes 0 (headerSize r.sizes.length + r.data.length)) b' := by
  obtain ⟨hb, hsize⟩ := h.rowSize
  exact ⟨_, bind_ok.mpr ⟨_, _, hsize, bind_ok.mpr ⟨(), _, seek_ok.mpr ⟨h.fits, rfl⟩, bind_ok.mpr ⟨(), _, modify_ok.mpr rfl,
    bind_ok.mpr ⟨_, _, get_ok.mpr ⟨rfl, rfl⟩, getAll_ok.mpr ⟨(Nat.zero_add _).le, rfl, rfl⟩⟩⟩⟩⟩⟩

/-- A row that is copied from a block is the row that has been put there. -/
theorem Holds.throughBlock (h : Holds b r) (block new : Buffer) (position : ℕ) (hbound : block.bound = block.size)
    (hroom : position + (headerSize r.sizes.length + r.data.length) ≤ block.size)
    (hnew : headerSize r.sizes.length + r.data.length ≤ new.size) :
    ∃ row, throughBlock b block new position = some row ∧ Holds row r := by
  obtain ⟨b₁, hbacking⟩ := h.backing
  have hlen : (slice b.bytes 0 (headerSize r.sizes.length + r.data.length)).length = headerSize r.sizes.length + r.data.length :=
    length_slice ..
  have htwo : 2 ≤ headerSize r.sizes.length + r.data.length := by
    simp only [headerSize, columnSizePos]
    omega
  have hsize : toInt16 (slice b.bytes 0 2) = (headerSize r.sizes.length + r.data.length : ℕ) := by
    rw [h.size, toInt16_int16Bytes (Int.natCast_nonneg _) (by exact_mod_cast h.small)]
  generalize hl : slice b.bytes 0 (headerSize r.sizes.length + r.data.length) = l at hbacking hlen
  have hput : ∃ block', putRow position l block = .ok () block' ∧ block'.bound = block.bound ∧
      block'.bytes = written block.bytes position l :=
    ⟨_, bind_ok.mpr ⟨(), _, seek_ok.mpr ⟨by omega, rfl⟩, putAll_ok.mpr ⟨by dsimp only; omega, rfl⟩⟩, rfl, rfl⟩
  obtain ⟨block', hput, hbound', hbytes'⟩ := hput
  have hfirst : slice block'.bytes position 2 = slice b.bytes 0 2 := by
    have hp := slice_part block'.bytes (p := position) (n := l.length) (m := 0) (k := 2) (by omega)
    have hq := slice_part b.bytes (p := 0) (n := headerSize r.sizes.length + r.data.length) (m := 0) (k := 2) (by omega)
    rw [Nat.add_zero, hbytes', slice_written] at hp
    rw [Nat.add_zero, hl] at hq
    rw [hq, ← hp, hbytes']
  have hread : ∃ block'', readRow position block' = .ok l block'' := by
    have hroom' : position + 2 ≤ block'.bound := by omega
    have hroom'' : position + (headerSize r.sizes.length + r.data.length) ≤ block'.bound := by omega
    have hslice : slice block'.bytes position (headerSize r.sizes.length + r.data.length) = l := by
      rw [hbytes', ← hlen, slice_written]
    exact ⟨_, bind_ok.mpr ⟨(), _, seek_ok.mpr ⟨by omega, rfl⟩,
      bind_ok.mpr ⟨_, _, bind_ok.mpr ⟨_, _, getAll_ok.mpr ⟨hroom', hfirst, rfl⟩, pure_ok.mpr ⟨hsize, rfl⟩⟩,
      bind_ok.mpr ⟨_, _, get_ok.mpr ⟨rfl, rfl⟩,
      bind_ok.mpr ⟨(), _, (seek_to (p := position) (by dsimp only; omega)).mpr ⟨by dsimp only; omega, rfl⟩,
      getAll_ok.mpr ⟨hroom'', hslice, rfl⟩⟩⟩⟩⟩⟩
  obtain ⟨block'', hread⟩ := hread
  have hcopy : ∃ row, copyRow l new = .ok () row ∧ row.bound = l.length ∧ row.bytes = written new.bytes 0 l :=
    ⟨_, bind_ok.mpr ⟨(), _, modify_ok.mpr rfl, bind_ok.mpr ⟨(), _, putAll_ok.mpr ⟨by dsimp only; omega, rfl⟩, modify_ok.mpr rfl⟩⟩,
      Nat.zero_add _, rfl⟩
  obtain ⟨row, hcopy, hbound, hbytes⟩ := hcopy
  refine ⟨row, ?_, h.copy (by omega) ?_⟩
  · simp only [Dml.throughBlock, result_ok hbacking, result_ok hput, result_ok hread, result_ok hcopy, Option.bind_eq_bind,
      Option.bind_some]
  · rw [hbytes, hl, ← hlen, slice_written]

theorem initRow_sized {n : ℕ} {u : Unit} (h : initRow n b = .ok u b') : Sized b' := by
  obtain ⟨hbytes, -⟩ := initRow_bytes h
  refine ⟨headerSize n, ?_⟩
  rw [hbytes, slice_frame _ _ (Or.inl (by decide)), slice_frame _ _ (Or.inl (by decide))]
  exact slice_written _ (int16Bytes _) 0

/-- A row of these texts, in a buffer of the table, goes through every block. -/
theorem Holds.roundTrips {cols : List Column} (h : Holds b (Row.ofTexts texts)) (hlen : texts.length = cols.length)
    (hbound : headerSize cols.length + texts.flatten.length ≤ headerSize cols.length + capacity cols) :
    RoundTrips cols texts b ↔ ∀ text ∈ texts, text.length < 256 := by
  have hsizes : (Row.ofTexts texts).sizes.length = cols.length := (List.length_map _).trans hlen
  have hsum : ∀ i, ((Row.ofTexts texts).sizes.take i).sum ≤ (Row.ofTexts texts).data.length := fun i => by
    show ((texts.map _).take i).sum ≤ texts.flatten.length
    rw [List.length_flatten, ← List.map_take, ← List.take_append_drop i texts, List.map_append, List.sum_append,
      List.take_append_drop]
    exact (List.sum_le_sum fun text _ => Nat.mod_le ..).trans (Nat.le_add_right ..)
  rw [← valueAt_ofTexts_iff]
  constructor
  · intro hr i hi
    -- in an empty block
    obtain ⟨row', hthrough, hvalues⟩ := hr.back ⟨Buffer.make 32768 fun _ => 0, rfl, rfl⟩ (fun _ => 0) 0 (by
      have := h.small
      rw [hsizes] at this
      show 0 + (_ + (Row.ofTexts texts).data.length) ≤ 32768
      omega)
    obtain ⟨row, hthrough', hrow⟩ := h.throughBlock (Buffer.make 32768 fun _ => 0) (makeRowBuffer cols fun _ => 0) 0 rfl (by
        have := h.small
        show _ ≤ 32768
        omega) (by
        rw [hsizes]
        exact hbound)
    obtain rfl := Option.some.inj (hthrough.symm.trans hthrough')
    obtain ⟨row'', hvalue⟩ := hvalues i hi
    obtain ⟨rowᵢ, hvalue'⟩ := hrow.valueAt (i := i) (by rw [hsizes, ← hlen]; exact hi) (hsum _)
    rw [hsizes, hvalue] at hvalue'
    exact ((EStateM.Result.ok.inj hvalue').1).symm
  · intro hshort
    refine ⟨?_, fun block bytes position hroom => ?_⟩
    · obtain ⟨hb, hsize⟩ := h.rowSize
      rw [hsizes] at hsize
      exact ⟨_, hsize⟩
    · obtain ⟨row, hthrough, hrow⟩ := h.throughBlock block.toBuffer (makeRowBuffer cols bytes) _ block.bound_eq
        (by rw [hsizes]; exact hroom) (by rw [hsizes]; exact hbound)
      refine ⟨row, hthrough, fun i hi => ?_⟩
      obtain ⟨row', hvalue⟩ := hrow.valueAt (i := i) (by rw [hsizes, ← hlen]; exact hi) (hsum _)
      rw [hsizes, hshort i hi] at hvalue
      exact ⟨row', hvalue⟩

/-- A row that is made comes back from every block if and only if its size fits two bytes and the
sizes of all its values fit one. -/
theorem rowCodec_iff (A : Arith) (cols : List Column) (values texts : List Text) (bytes : ℕ → ℕ) (row : Buffer)
    (h : buildRow A cols values (makeRowBuffer cols bytes) = .ok texts row) :
    RoundTrips cols texts row ↔
      headerSize cols.length + texts.flatten.length < 32768 ∧ ∀ text ∈ texts, text.length < 256 := by
  obtain ⟨_, b₀, hinit, hall⟩ := bind_ok.mp h
  obtain ⟨-, hlen⟩ := appendAll_storeAll hall
  have hholds : headerSize cols.length + texts.flatten.length < 32768 →
      (RoundTrips cols texts row ↔ ∀ text ∈ texts, text.length < 256) := fun hs => by
    obtain ⟨h₀, hb₀⟩ := initRow_holds (by omega) (Nat.le_add_right (headerSize cols.length) (capacity cols)) hinit
    obtain ⟨hrow, hb⟩ := @appendAll_holds _ _ _ _ _ _ [] (slice bytes columnSizePos cols.length) h₀ (length_slice ..) hall (by
      rw [List.flatten_nil, List.length_nil, List.length_nil, Nat.zero_add, Nat.zero_add]
      exact hs)
    refine hrow.roundTrips hlen ?_
    have hfits := hrow.fits
    have hsizes : (Row.ofTexts ([] ++ texts)).sizes.length = cols.length := (List.length_map _).trans hlen
    rw [hb, hb₀, hsizes] at hfits
    exact hfits
  refine ⟨fun hr => ?_, fun ⟨hs, hshort⟩ => (hholds hs).mpr hshort⟩
  -- what is recorded is an `int16_t`
  obtain ⟨row', hrec⟩ := hr.recorded
  obtain ⟨v, hv⟩ := appendAll_sized (initRow_sized hinit) hall
  obtain ⟨-, hsize, -⟩ := rowSize_ok.mp hrec
  have hlt := toInt16_int16Bytes_lt v
  rw [hv] at hsize
  have hs : headerSize cols.length + texts.flatten.length < 32768 := by omega
  exact ⟨hs, (hholds hs).mp hr⟩

/-- A column of texts. -/
def varcharColumn (name : Char) (size : ℕ) : Column :=
  { name := [name], type := .varchar, size := size, prec := 0, enumList := [], isAutoInc := false, isNotNull := false,
    isPrimary := false, isUnique := false, autoInc := 0 }

/-- A row of two short texts. -/
theorem rowCodec_short :
    ∃ row, buildRow wholeNumbers [varcharColumn 'a' 8, varcharColumn 'b' 20] ["ann".toList, "hello, world".toList]
        (makeRowBuffer [varcharColumn 'a' 8, varcharColumn 'b' 20] fun _ => 0) = .ok ["ann".toList, "hello, world".toList] row ∧
      RoundTrips [varcharColumn 'a' 8, varcharColumn 'b' 20] ["ann".toList, "hello, world".toList] row := by
  obtain ⟨texts, row, hrow, ht, -⟩ := @buildRow_holds (Row.ofTexts ["ann".toList, "hello, world".toList]) wholeNumbers
    ["ann".toList, "hello, world".toList] [varcharColumn 'a' 8, varcharColumn 'b' 20] (fun _ => 0) (by decide) (by decide)
  obtain ⟨hstore, -⟩ := appendAll_storeAll (bind_ok.mp hrow).choose_spec.choose_spec.2
  obtain rfl := Option.some.inj (hstore.symm.trans (show _ = some ["ann".toList, "hello, world".toList] by decide))
  exact ⟨row, hrow, (rowCodec_iff wholeNumbers _ _ _ _ row hrow).mpr (by decide)⟩

/-- A text of 256 characters is lost: its size is zero in a byte. -/
theorem rowCodec_long : ¬∀ (A : Arith) (cols : List Column) (values texts : List Text) (bytes : ℕ → ℕ) (row : Buffer),
    buildRow A cols values (makeRowBuffer cols bytes) = .ok texts row → RoundTrips cols texts row := by
  intro h
  have hmade : makeRow wholeNumbers [varcharColumn 'a' 300] [List.replicate 256 'a'] = some (Row.ofTexts [List.replicate 256 'a']) := by
    decide +kernel
  obtain ⟨texts, row, hrow, ht, hholds⟩ := buildRow_holds (fun _ => 0) hmade (by decide +kernel)
  obtain ⟨hstore, -⟩ := appendAll_storeAll (bind_ok.mp hrow).choose_spec.choose_spec.2
  obtain rfl := Option.some.inj (hstore.symm.trans (show _ = some [List.replicate 256 'a'] by decide +kernel))
  have hshort := (hholds.roundTrips rfl (by decide +kernel)).mp (h _ _ _ _ _ _ hrow) _ (List.mem_singleton_self _)
  rw [List.length_replicate] at hshort
  exact absurd hshort (by decide)

end RedB.Dml
