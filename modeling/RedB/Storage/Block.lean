import Mathlib.Data.List.Lex
import Mathlib.Order.Fin.Basic
import Mathlib.Data.Int.Notation
import Mathlib.Tactic.Ring

/-!
# Blocks

A table file is an array of blocks of `BUFFER_SZ` bytes. A block holds either a
node of an index or rows of the table. Both kinds begin with a 24 byte header
(`btree/const.h`):

    node:  0 is-leaf (1) | 2 num-key (2) | 4 prev-sibling (8) | 12 next-sibling (8)
    data:  0 remaining (4)              | 4 prev-sibling (8) | 12 next-sibling (8)
           20 row-head (2) | 22 row-tail (2)

Behind the header a node has its element vector: slot `n` is an 8 byte offset
followed by `key_size` key bytes. In a leaf the offset is the row's combined
block-offset/row-position, in a non-leaf it is child-offset `n`. Behind the header
of a data block come the rows.

## The model

The header fields, the element vector and the row area are kept as separate
fields of a `Block`; offsets are unbounded integers. The first four header bytes
are read one way by nodes and another way by data blocks, so the field `head`
remembers who wrote them and both readings are defined on both (`Head`). The row
area is bytes, and the header is laid out in bytes again for code that reads a
row field below the row area (`Block.byteAt`).
-/

namespace RedB

/-- `uint8_t`. -/
abbrev Byte := Fin 256

instance neZero_256 : NeZero 256 := ⟨by decide⟩

/-- A key: a `std::string`, compared byte by byte as `char_traits<char>` does. -/
abbrev Key := List Byte

/-- `BUFFER_SZ`. Every schema header is constructed with this block size and nothing
changes it, so it also stands for `get_header().block_size()`. -/
def bufferSz : ℤ := 32768

/-- `NODE_HDR_SZ`. -/
def nodeHdrSz : ℤ := 24

/-- `ELEMENT_VECTOR_POS`. -/
def elementVectorPos : ℤ := nodeHdrSz

/-- `CHILD_OFFSET_SZ`, and equally `BLOCK_OFFSET_SZ`. -/
def childOffsetSz : ℤ := 8

/-- `DATA_HDR_SZ`. -/
def dataHdrSz : ℤ := 24

/-- `ROW_SIZE_POS`. -/
def rowSizePos : ℤ := 0

/-- `ROW_PREV_POS`. -/
def rowPrevPos : ℤ := 2

/-- `ROW_NEXT_POS`. -/
def rowNextPos : ℤ := 4

/-- `COLUMN_SIZE_POS`. -/
def columnSizePos : ℕ := 6

/-- `INVALID_SIBLING_REF`, the least `int64_t`. -/
def invalidSiblingRef : ℤ := -2 ^ 63

/-! ### The b-tree calculator -/

/-- `bcalc`: computes the order of an index from its key size. -/
structure Bcalc where
  /-- `m_key_size`. -/
  keySize : ℕ

/-- `bcalc::order`: how many vector elements of a non-leaf node fit in a block. -/
def Bcalc.order (bc : Bcalc) : ℕ := (32768 - (24 + 8)) / (8 + bc.keySize)

/-- The vector elements that `order` counts, and one more child-offset, fit in a block. -/
theorem Bcalc.order_mul_le (bc : Bcalc) : bc.order * (8 + bc.keySize) ≤ 32736 :=
  Nat.div_mul_le_self _ _

/-! ### Big-endian integers -/

/-- The `n` bytes of `v`, most significant first, as `put_int16`, `put_int32` and
`put_int64` store it. -/
def beBytes (n : ℕ) (v : ℤ) : List Byte :=
  (List.range n).map fun i => Fin.ofNat 256 (v / 256 ^ (n - 1 - i) % 256).toNat

/-- The signed integer stored in a list of bytes. -/
def ofBe (l : List Byte) : ℤ :=
  let u : ℤ := l.foldl (fun a b => a * 256 + (b.val : ℤ)) 0
  if 2 * u < 256 ^ l.length then u else u - 256 ^ l.length

@[simp] theorem length_beBytes (n : ℕ) (v : ℤ) : (beBytes n v).length = n := by simp [beBytes]

/-- An `int16_t` is read back as it was stored. -/
theorem ofBe_beBytes_two {v : ℤ} (h : -32768 ≤ v) (h' : v < 32768) : ofBe (beBytes 2 v) = v := by
  simp [ofBe, beBytes, List.range_succ]
  omega

/-! ### Slots and headers -/

/-- A slot of the element vector: an offset and the key bytes written so far. -/
structure Slot where
  /-- The 8 byte offset. -/
  ref : ℤ
  /-- The key bytes; bytes never written are zero and are left out at the end. -/
  key : Key
  deriving DecidableEq

/-- `get_varchar(position, k_size)` on the key part of a slot. -/
def readKey (k : ℕ) (key : Key) : Key := (key ++ List.replicate k 0).take k

/-- `put_varchar(position, key)` over the key part of a slot: a shorter key leaves the
bytes behind it as they were. -/
def writeKey (k : ℕ) (old key : Key) : Key := key ++ (readKey k old).drop key.length

theorem readKey_of_length {k : ℕ} {key : Key} (h : key.length = k) : readKey k key = key := by
  simp [readKey, ← h]

theorem writeKey_of_length {k : ℕ} {old key : Key} (h : key.length = k) : writeKey k old key = key := by
  simp [writeKey, readKey, h]

/-- The first four bytes of a block. -/
inductive Head where
  /-- Written by `node::commit`: is-leaf and num-key. -/
  | node (isLeaf : Bool) (numKey : ℤ)
  /-- Written as the remaining field of a data block. -/
  | data (rem : ℤ)
  deriving DecidableEq

/-- The byte at `IS_LEAF_POS`. -/
def Head.isLeaf : Head → Bool
  | .node b _ => b
  | .data rem => rem / 2 ^ 24 % 256 ≠ 0

/-- The `int16_t` at `NUM_KEY_POS`. -/
def Head.numKey : Head → ℤ
  | .node _ n => n
  | .data rem => if rem % 65536 < 32768 then rem % 65536 else rem % 65536 - 65536

/-- The `int32_t` at `REM_POS`. -/
def Head.rem : Head → ℤ
  | .node b n => (if b then 2 ^ 24 else 0) + n % 65536
  | .data rem => rem

/-- A block. -/
structure Block where
  /-- The first four bytes. -/
  head : Head
  /-- The field at `PREV_SIBLING_POS`. -/
  prev : ℤ
  /-- The field at `NEXT_SIBLING_POS`. -/
  next : ℤ
  /-- The field at `ROW_HEAD_POS`. -/
  rowHead : ℤ
  /-- The field at `ROW_TAIL_POS`. -/
  rowTail : ℤ
  /-- The element vector. -/
  slots : ℕ → Slot
  /-- The row area, by position in the block. -/
  bytes : ℕ → Byte

/-- `alloc_block`: a block of zero bytes. -/
def Block.zero : Block where
  head := .data 0
  prev := 0
  next := 0
  rowHead := 0
  rowTail := 0
  slots := fun _ => ⟨0, []⟩
  bytes := fun _ => 0

/-! ### Row fields -/

/-- The header of a block as bytes. -/
def Block.header (b : Block) : List Byte :=
  beBytes 4 b.head.rem ++ beBytes 8 b.prev ++ beBytes 8 b.next ++ beBytes 2 b.rowHead ++
    beBytes 2 b.rowTail

/-- The block with the given header bytes. -/
def Block.setHeader (b : Block) (l : List Byte) : Block :=
  { b with
    head := .data (ofBe (l.take 4))
    prev := ofBe ((l.drop 4).take 8)
    next := ofBe ((l.drop 12).take 8)
    rowHead := ofBe ((l.drop 20).take 2)
    rowTail := ofBe ((l.drop 22).take 2) }

/-- The byte at position `p`. -/
def Block.byteAt (b : Block) (p : ℕ) : Byte := if p < 24 then b.header.getD p 0 else b.bytes p

/-- `buffer::put(p, value)`. -/
def Block.setByte (b : Block) (p : ℕ) (v : Byte) : Block :=
  if p < 24 then b.setHeader (b.header.set p v) else { b with bytes := Function.update b.bytes p v }

/-- The bytes at positions `p, …, p + n - 1`. -/
def Block.bytesAt (b : Block) (p n : ℕ) : List Byte := (List.range n).map fun i => b.byteAt (p + i)

/-- The block with the bytes `l` put at position `p`, one after the other. -/
def Block.setBytes (b : Block) (p : ℕ) : List Byte → Block
  | [] => b
  | v :: l => (b.setByte p v).setBytes (p + 1) l

end RedB
