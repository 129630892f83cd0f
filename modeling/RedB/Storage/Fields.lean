import RedB.Storage.Buffer
import Mathlib.Tactic.IntervalCases

/-!
# Integers in buffers

An integer is put into a buffer byte by byte: a mask takes a byte out of the unsigned integer of the
same bits, and a shift moves it to the right. It is read back the other way round, and the shifts of
all bytes are put together. The masks are declared as signed constants, but are used as unsigned ones
of the same bits. `BYTE_ORDER` is `LITTLE_ENDIAN`, as on the machines that the program is made for.

Whatever the width, what has been put at a position is read from it, its first byte is the most
significant one, and neither other bytes nor fields of other bytes change (`field_kept`).
-/

namespace RedB

open Runs

namespace Buffer

/-! ### Masks and shifts -/

def MASK_16_BYTE_0 : BitVec 16 := 0x00FF
def MASK_16_BYTE_1 : BitVec 16 := 0xFF00

def MASK_32_BYTE_0 : BitVec 32 := 0x000000FF
def MASK_32_BYTE_1 : BitVec 32 := 0x0000FF00
def MASK_32_BYTE_2 : BitVec 32 := 0x00FF0000
def MASK_32_BYTE_3 : BitVec 32 := 0xFF000000

def MASK_64_BYTE_0 : BitVec 64 := 0x00000000000000FF
def MASK_64_BYTE_1 : BitVec 64 := 0x000000000000FF00
def MASK_64_BYTE_2 : BitVec 64 := 0x0000000000FF0000
def MASK_64_BYTE_3 : BitVec 64 := 0x00000000FF000000
def MASK_64_BYTE_4 : BitVec 64 := 0x000000FF00000000
def MASK_64_BYTE_5 : BitVec 64 := 0x0000FF0000000000
def MASK_64_BYTE_6 : BitVec 64 := 0x00FF000000000000
def MASK_64_BYTE_7 : BitVec 64 := 0xFF00000000000000

/-- `bits::shift_right` -/
def shiftRight {w : ℕ} (shift : ℕ) (value mask : BitVec w) : BitVec 8 := ((value &&& mask) >>> shift).setWidth 8

/-- `bits::shift_left` -/
def shiftLeft (w shift : ℕ) (value : BitVec 8) : BitVec w := value.setWidth w <<< shift

/-- `bits::to_uint16` -/
def toUint16 (b0 b1 : BitVec 8) : BitVec 16 := shiftLeft 16 8 b1 ||| shiftLeft 16 0 b0

/-- `bits::to_uint32` -/
def toUint32 (b0 b1 b2 b3 : BitVec 8) : BitVec 32 :=
  shiftLeft 32 24 b3 ||| shiftLeft 32 16 b2 ||| shiftLeft 32 8 b1 ||| shiftLeft 32 0 b0

/-- `bits::to_uint64` -/
def toUint64 (b0 b1 b2 b3 b4 b5 b6 b7 : BitVec 8) : BitVec 64 :=
  shiftLeft 64 56 b7 ||| shiftLeft 64 48 b6 ||| shiftLeft 64 40 b5 ||| shiftLeft 64 32 b4 |||
    shiftLeft 64 24 b3 ||| shiftLeft 64 16 b2 ||| shiftLeft 64 8 b1 ||| shiftLeft 64 0 b0

/-! ### Integers of three widths -/

/-- The widths of integers in buffers. -/
inductive Width where
  | int16 | int32 | int64
deriving DecidableEq, Repr

/-- The bits of an integer. -/
def Width.bits : Width → ℕ
  | .int16 => 16
  | .int32 => 32
  | .int64 => 64

/-- The bytes of an integer. -/
def Width.bytes : Width → ℕ
  | .int16 => 2
  | .int32 => 4
  | .int64 => 8

/-- `int16_t`, `int32_t` and `int64_t` -/
def Width.Value : Width → Type
  | .int16 => Int16
  | .int32 => Int32
  | .int64 => Int64

/-- `bits::mutate`, to the unsigned integer of the same bits. -/
def Width.mutate : {w : Width} → w.Value → BitVec w.bits
  | .int16, v => Int16.toBitVec v
  | .int32, v => Int32.toBitVec v
  | .int64, v => Int64.toBitVec v

/-- The signed integer of these bits. -/
def Width.ofBits : {w : Width} → BitVec w.bits → w.Value
  | .int16, v => Int16.ofBitVec v
  | .int32, v => Int32.ofBitVec v
  | .int64, v => Int64.ofBitVec v

/-- The shifts and masks, in the order in which bytes are put. -/
def Width.masks : (w : Width) → List (ℕ × BitVec w.bits)
  | .int16 => [(8, MASK_16_BYTE_1), (0, MASK_16_BYTE_0)]
  | .int32 => [(24, MASK_32_BYTE_3), (16, MASK_32_BYTE_2), (8, MASK_32_BYTE_1), (0, MASK_32_BYTE_0)]
  | .int64 =>
    [(56, MASK_64_BYTE_7), (48, MASK_64_BYTE_6), (40, MASK_64_BYTE_5), (32, MASK_64_BYTE_4), (24, MASK_64_BYTE_3),
      (16, MASK_64_BYTE_2), (8, MASK_64_BYTE_1), (0, MASK_64_BYTE_0)]

/-- `bits::to_int16`, `bits::to_int32` and `bits::to_int64` of bytes in the order of the buffer. -/
def Width.compose : (w : Width) → (ℕ → BitVec 8) → w.Value
  | .int16, b => Int16.ofBitVec (toUint16 (b 1) (b 0))
  | .int32, b => Int32.ofBitVec (toUint32 (b 3) (b 2) (b 1) (b 0))
  | .int64, b => Int64.ofBitVec (toUint64 (b 7) (b 6) (b 5) (b 4) (b 3) (b 2) (b 1) (b 0))

/-- Bytes of an integer are put one after the other. -/
def putMasked {w : ℕ} (value : BitVec w) : List (ℕ × BitVec w) → BufferM Unit
  | [] => pure ()
  | (shift, mask) :: masks => do
      put (shiftRight shift value mask).toNat
      putMasked value masks

/-- `buffer::put_int16 (int32_t n, int16_t value)` and its siblings -/
def putInt (w : Width) (n : ℤ) (value : w.Value) : BufferM Unit := do
  seek n
  putMasked (Width.mutate value) w.masks

/-- `buffer::get (int32_t n)` -/
def getByteAt (n : ℤ) : BufferM ℕ := do
  seek n
  getByte

/-- The bytes at `i, …, i + k - 1`, each read at its position. -/
def getBytesAt (i : ℕ) : ℕ → BufferM (List ℕ)
  | 0 => pure []
  | k + 1 => do
      let l ← getBytesAt i k
      let value ← getByteAt (i + k : ℕ)
      pure (l ++ [value])

/-- `buffer::get_int16 (int32_t n)` and its siblings -/
def getInt (w : Width) (n : ℤ) : BufferM w.Value := do
  seek n
  let b ← get
  let l ← getBytesAt b.index w.bytes
  seek (b.index + w.bytes : ℕ)
  pure (w.compose fun i => BitVec.ofNat 8 (l.getD i 0))

/-- `buffer::put_int16 (int32_t n, int16_t value)` -/
def putInt16At (n : ℤ) (value : Int16) : BufferM Unit := putInt .int16 n value

/-- `buffer::put_int32 (int32_t n, int32_t value)` -/
def putInt32At (n : ℤ) (value : Int32) : BufferM Unit := putInt .int32 n value

/-- `buffer::put_int64 (int32_t n, int64_t value)` -/
def putInt64At (n : ℤ) (value : Int64) : BufferM Unit := putInt .int64 n value

/-- `buffer::get_int16 (int32_t n)` -/
def getInt16At (n : ℤ) : BufferM Int16 := getInt .int16 n

/-- `buffer::get_int32 (int32_t n)` -/
def getInt32At (n : ℤ) : BufferM Int32 := getInt .int32 n

/-- `buffer::get_int64 (int32_t n)` -/
def getInt64At (n : ℤ) : BufferM Int64 := getInt .int64 n

/-! ### Bytes of integers -/

theorem Width.bits_eq (w : Width) : w.bits = 8 * w.bytes := by
  cases w <;> rfl

/-- The shift of byte `i`. -/
def Width.shift (w : Width) (i : ℕ) : ℕ := 8 * (w.bytes - 1 - i)

theorem Width.shift_add_le (w : Width) {i : ℕ} (h : i < w.bytes) : w.shift i + 8 ≤ w.bits := by
  rw [Width.shift, w.bits_eq]
  omega

/-- Byte `i` of an integer, the most significant one first. -/
def Width.byteOf {w : Width} (value : w.Value) (i : ℕ) : BitVec 8 :=
  (Width.mutate value >>> w.shift i).setWidth 8

/-- All bytes of an integer, the most significant one first. -/
def Width.bytesOf {w : Width} (value : w.Value) : List ℕ := (List.range w.bytes).map fun i => (Width.byteOf value i).toNat

@[simp] theorem Width.length_bytesOf {w : Width} (value : w.Value) : (Width.bytesOf value).length = w.bytes := by
  rw [Width.bytesOf, List.length_map, List.length_range]

/-- A mask at its shift takes a byte out. -/
theorem shiftRight_eq {w shift : ℕ} (value : BitVec w) {mask : BitVec w} (h : mask = 255#w <<< shift) (hw : shift + 8 ≤ w) :
    shiftRight shift value mask = (value >>> shift).setWidth 8 := by
  subst h
  refine BitVec.eq_of_getLsbD_eq fun i hi => ?_
  have h255 : (255#w).getLsbD i = true := by
    rw [BitVec.getLsbD_ofNat, decide_eq_true (by omega : i < w), Bool.true_and]
    interval_cases i <;> rfl
  simp only [shiftRight, BitVec.getLsbD_setWidth, BitVec.getLsbD_ushiftRight, BitVec.getLsbD_and, BitVec.getLsbD_shiftLeft,
    Nat.add_sub_cancel_left, h255, decide_eq_true (by omega : shift + i < w), decide_eq_false (by omega : ¬shift + i < shift),
    Bool.not_false, Bool.and_true]

/-- The byte at a shift is put back to its place. -/
theorem getLsbD_shiftLeft_byte {w : ℕ} (value : BitVec w) (shift j : ℕ) (hj : j < w) :
    (shiftLeft w shift ((value >>> shift).setWidth 8)).getLsbD j = (decide (shift ≤ j ∧ j < shift + 8) && value.getLsbD j) := by
  simp only [shiftLeft, BitVec.getLsbD_shiftLeft, BitVec.getLsbD_setWidth, BitVec.getLsbD_ushiftRight, decide_eq_true hj, Bool.true_and]
  rcases Nat.lt_or_ge j shift with h | h
  · have hout : ¬(shift ≤ j ∧ j < shift + 8) := by omega
    rw [decide_eq_true h, decide_eq_false hout]
    rfl
  · rw [Nat.add_sub_cancel' h, decide_eq_false (Nat.not_lt.mpr h), decide_eq_true (by omega : j - shift < w)]
    rcases Nat.lt_or_ge j (shift + 8) with h8 | h8
    · rw [decide_eq_true (by omega : j - shift < 8), decide_eq_true (And.intro h h8)]
      rfl
    · have hout : ¬(shift ≤ j ∧ j < shift + 8) := by omega
      rw [decide_eq_false (by omega : ¬j - shift < 8), decide_eq_false hout]
      rfl

/-- Each mask is the one of its shift. -/
theorem Width.masks_eq (w : Width) : w.masks = (List.range w.bytes).map fun i => (w.shift i, 255#w.bits <<< w.shift i) := by
  cases w <;> rfl

/-- Bytes that are taken out with a list of shifts. -/
theorem putMasked_eq {w : ℕ} (value : BitVec w) (shifts : List ℕ) (h : ∀ shift ∈ shifts, shift + 8 ≤ w) :
    putMasked value (shifts.map fun shift => (shift, 255#w <<< shift)) =
      putAll (shifts.map fun shift => ((value >>> shift).setWidth 8).toNat) := by
  induction shifts with
  | nil => rfl
  | cons shift shifts ih =>
    rw [List.map_cons, List.map_cons, putMasked, putAll, ih fun s hs => h s (List.mem_cons_of_mem _ hs),
      shiftRight_eq value rfl (h shift List.mem_cons_self)]

/-- What is put is all bytes of the integer. -/
theorem putInt_eq (w : Width) (n : ℤ) (value : w.Value) : putInt w n value = (do
    seek n
    putAll (Width.bytesOf value)) := by
  have hshifts := putMasked_eq (Width.mutate value) ((List.range w.bytes).map w.shift) fun s hs => by
    obtain ⟨i, hi, rfl⟩ := List.mem_map.mp hs
    exact w.shift_add_le (List.mem_range.mp hi)
  rw [List.map_map, List.map_map] at hshifts
  rw [putInt, w.masks_eq]
  exact congrArg (fun x : BufferM Unit => (do
    seek n
    x)) hshifts

/-- A bit of an integer is one of its byte. -/
theorem getLsbD_compose (w : Width) (b : ℕ → BitVec 8) (j : ℕ) : (Width.mutate (w.compose b)).getLsbD j =
    (List.range w.bytes).any fun i => (shiftLeft w.bits (w.shift i) (b i)).getLsbD j := by
  cases w with
  | int16 =>
    show (toUint16 (b 1) (b 0)).getLsbD j = _
    simp only [toUint16, BitVec.getLsbD_or]
    rw [← Bool.or_false (_ || _), Bool.or_assoc]
    rfl
  | int32 =>
    show (toUint32 (b 3) (b 2) (b 1) (b 0)).getLsbD j = _
    simp only [toUint32, BitVec.getLsbD_or]
    rw [← Bool.or_false (_ || _)]
    simp only [Bool.or_assoc]
    rfl
  | int64 =>
    show (toUint64 (b 7) (b 6) (b 5) (b 4) (b 3) (b 2) (b 1) (b 0)).getLsbD j = _
    simp only [toUint64, BitVec.getLsbD_or]
    rw [← Bool.or_false (_ || _)]
    simp only [Bool.or_assoc]
    rfl

theorem Width.mutate_inj {w : Width} {value value' : w.Value} (h : Width.mutate value = Width.mutate value') : value = value' := by
  cases w with
  | int16 => exact Int16.toBitVec_inj.mp h
  | int32 => exact Int32.toBitVec_inj.mp h
  | int64 => exact Int64.toBitVec_inj.mp h

/-- An integer is composed of its bytes. -/
theorem compose_byteOf (w : Width) (value : w.Value) : w.compose (Width.byteOf value) = value := by
  refine Width.mutate_inj (BitVec.eq_of_getLsbD_eq fun j hj => ?_)
  have hbytes := w.bits_eq
  rw [getLsbD_compose, Bool.eq_iff_iff, List.any_eq_true]
  constructor
  · rintro ⟨i, -, hbit⟩
    rw [Width.byteOf, getLsbD_shiftLeft_byte _ _ _ hj, Bool.and_eq_true] at hbit
    exact hbit.2
  · intro hbit
    refine ⟨w.bytes - 1 - j / 8, List.mem_range.mpr (by omega), ?_⟩
    have hplace : w.shift (w.bytes - 1 - j / 8) ≤ j ∧ j < w.shift (w.bytes - 1 - j / 8) + 8 := by
      rw [Width.shift]
      omega
    rw [Width.byteOf, getLsbD_shiftLeft_byte _ _ _ hj, decide_eq_true hplace, hbit]
    rfl

/-- The bytes of an `int16_t` are the ones that rows and nodes put. -/
theorem bytesOf_int16 (value : Int16) : Width.bytesOf (w := .int16) value = int16Bytes value.toInt := by
  have hlt := value.toBitVec.isLt
  have hint : value.toInt = if 2 * value.toBitVec.toNat < 2 ^ 16 then (value.toBitVec.toNat : ℤ) else value.toBitVec.toNat - (2 ^ 16 : ℕ) :=
    BitVec.toInt_eq_toNat_cond value.toBitVec
  show [((value.toBitVec >>> 8).setWidth 8).toNat, ((value.toBitVec >>> 0).setWidth 8).toNat] = _
  simp only [BitVec.toNat_setWidth, BitVec.toNat_ushiftRight, Nat.shiftRight_eq_div_pow, int16Bytes, hint]
  congr 2
  · split <;> omega
  · split <;> omega

/-- An `int16_t` is put as rows and nodes put it. -/
theorem putInt16At_eq (n : ℤ) (value : Int16) : putInt16At n value = (do
    seek n
    putInt16 value.toInt) := by
  have hbytes := congrArg putAll (bytesOf_int16 value)
  exact (putInt_eq .int16 n value).trans (congrArg (fun x : BufferM Unit => (do
    seek n
    x)) hbytes)

/-! ### Runs -/

/-- What a run returns or throws. -/
def outcome {α : Type} : EStateM.Result Fault Buffer α → Except Fault α
  | .ok a _ => .ok a
  | .error e _ => .error e

variable {b b' : Buffer}

theorem getByteAt_run {n : ℕ} (h : n < b.bound) : getByteAt n b = .ok (b.bytes n) { b with index := n + 1, index_le := h } :=
  bind_ok.mpr ⟨(), _, seek_ok.mpr ⟨h.le, rfl⟩, getByte_ok.mpr ⟨h, rfl, rfl⟩⟩

theorem seek_fail {v : ℤ} (h : ¬(0 ≤ v ∧ v ≤ b.bound)) : seek v b = .error .index b := by
  rw [seek, get_bind, dif_neg h]
  rfl

/-- A byte behind the bound is refused, whatever the index was. -/
theorem getByteAt_fail {n : ℕ} (h : b.bound ≤ n) : outcome (getByteAt n b) = .error .index := by
  by_cases hn : n = b.bound
  · have hseek : seek n b = .ok () { b with index := n, index_le := hn.le } := seek_ok.mpr ⟨hn.le, rfl⟩
    have hnext : seek ((n : ℤ) + 1) { b with index := n, index_le := hn.le } = .error .index { b with index := n, index_le := hn.le } :=
      seek_fail (by dsimp only; omega)
    rw [getByteAt, bind_run hseek, getByte, get_bind, bind_throw hnext]
    rfl
  · have hseek : seek n b = .error .index b := seek_fail (by omega)
    rw [getByteAt, bind_throw hseek]
    rfl

/-- Bytes below the bound are read, and nothing changes but the index. -/
theorem getBytesAt_run {i k : ℕ} (h : i + k ≤ b.bound) :
    ∃ b', getBytesAt i k b = .ok (slice b.bytes i k) b' ∧ b'.bytes = b.bytes ∧ b'.bound = b.bound := by
  induction k with
  | zero => exact ⟨b, rfl, rfl, rfl⟩
  | succ k ih =>
    obtain ⟨b', hrun, hbytes, hbound⟩ := ih (by omega)
    have hlast := @getByteAt_run b' (i + k) (by omega)
    have hslice : slice b.bytes i (k + 1) = slice b.bytes i k ++ [b'.bytes (i + k)] := by
      rw [slice_add, slice_succ, hbytes]
      rfl
    rw [hslice]
    exact ⟨_, (bind_run hrun).trans (bind_run hlast), hbytes, hbound⟩

theorem outcome_bind_throw {α β : Type} {x : BufferM α} {f : α → BufferM β} {e : Fault} (h : outcome (x b) = .error e) :
    outcome ((x >>= f) b) = .error e := by
  cases hx : x b with
  | ok a b' =>
    rw [hx] at h
    cases h
  | error e' b' =>
    rw [hx] at h
    obtain rfl : e' = e := Except.error.inj h
    rw [bind_throw hx]
    rfl

theorem getBytesAt_fail {i k : ℕ} (hi : i ≤ b.bound) (h : b.bound < i + k) : outcome (getBytesAt i k b) = .error .index := by
  induction k with
  | zero => exact absurd hi (Nat.not_le_of_lt h)
  | succ k ih =>
    by_cases hk : b.bound < i + k
    · exact outcome_bind_throw (ih hk)
    · obtain ⟨b', hrun, -, hbound⟩ := @getBytesAt_run b i k (by omega)
      rw [getBytesAt, bind_run hrun]
      exact outcome_bind_throw (getByteAt_fail (by omega))

theorem compose_congr (w : Width) {f g : ℕ → BitVec 8} (h : ∀ i < w.bytes, f i = g i) : w.compose f = w.compose g := by
  cases w with
  | int16 => rw [Width.compose, Width.compose, h 0 (by decide), h 1 (by decide)]
  | int32 =>
    rw [Width.compose, Width.compose, h 0 (by decide), h 1 (by decide), h 2 (by decide), h 3 (by decide)]
  | int64 =>
    rw [Width.compose, Width.compose, h 0 (by decide), h 1 (by decide), h 2 (by decide), h 3 (by decide), h 4 (by decide),
      h 5 (by decide), h 6 (by decide), h 7 (by decide)]

/-- What is read depends on the bound and on the bytes of the field only. -/
theorem outcome_getInt (w : Width) (n : ℤ) (b : Buffer) : outcome (getInt w n b) =
    if 0 ≤ n ∧ n + w.bytes ≤ b.bound then .ok (w.compose fun i => BitVec.ofNat 8 (b.bytes (n.toNat + i))) else .error .index := by
  by_cases hn : 0 ≤ n ∧ n ≤ b.bound
  · obtain ⟨p, rfl⟩ := Int.eq_ofNat_of_zero_le hn.1
    have hp : p ≤ b.bound := by omega
    have hseek : seek p b = .ok () { b with index := p, index_le := hp } := seek_ok.mpr ⟨hp, rfl⟩
    rw [getInt, bind_run hseek, get_bind]
    by_cases hfits : p + w.bytes ≤ b.bound
    · obtain ⟨b', hrun, -, hbound⟩ := @getBytesAt_run { b with index := p, index_le := hp } p w.bytes hfits
      have hback : seek (p + w.bytes : ℕ) b' = .ok () _ := seek_ok.mpr ⟨hbound ▸ hfits, rfl⟩
      rw [if_pos ⟨hn.1, by omega⟩, bind_run hrun, bind_run hback]
      refine congrArg Except.ok (compose_congr w fun i hi => congrArg _ ?_)
      rw [slice, List.getD_eq_getElem?_getD, List.getElem?_map, List.getElem?_range hi]
      rfl
    · rw [if_neg (by omega)]
      exact outcome_bind_throw (getBytesAt_fail hp (Nat.lt_of_not_le hfits))
  · rw [if_neg (by omega), getInt, bind_throw (seek_fail hn)]
    rfl

/-! ### Fields -/

/-- The buffer behind an integer that is put at `n`. -/
structure Stored (w : Width) (n : ℕ) (value : w.Value) (b b' : Buffer) : Prop where
  bound : b'.bound = b.bound
  index : b'.index = n + w.bytes
  /-- The most significant byte is the first one. -/
  stored : ∀ i < w.bytes, b'.bytes (n + i) = (Width.byteOf value i).toNat
  others : ∀ i, i < n ∨ n + w.bytes ≤ i → b'.bytes i = b.bytes i

theorem putInt_stored {w : Width} {n : ℕ} (value : w.Value) (h : n + w.bytes ≤ b.bound) :
    ∃ b', putInt w n value b = .ok () b' ∧ Stored w n value b b' := by
  have hn : n ≤ b.bound := by omega
  have hseek : seek n b = .ok () { b with index := n, index_le := hn } := seek_ok.mpr ⟨hn, rfl⟩
  have hfits : n + (Width.bytesOf value).length ≤ b.bound := by
    rw [Width.length_bytesOf]
    exact h
  have hput := @putAll_ok { b with index := n, index_le := hn } _ (Width.bytesOf value) () |>.mpr ⟨hfits, rfl⟩
  refine ⟨_, (congrFun (putInt_eq w n value) b).trans ((bind_run hseek).trans hput), rfl, ?_, fun i hi => ?_, fun i hi => ?_⟩
  · exact congrArg (n + ·) (Width.length_bytesOf value)
  · have hslice := congrArg (fun l => l[i]?) (slice_written b.bytes (Width.bytesOf value) n)
    rw [Width.length_bytesOf] at hslice
    simpa [slice, Width.bytesOf, List.getElem?_range hi] using hslice
  · exact written_outside _ _ (by rw [Width.length_bytesOf]; exact hi)

/-- An integer in a buffer is read back, its most significant byte is the first one, and no other
byte and no other field changes. -/
theorem field_kept (w : Width) (b : Buffer) (n : ℕ) (value : w.Value) (h : n + w.bytes ≤ b.bound) :
    ∃ b', putInt w n value b = .ok () b' ∧ Stored w n value b b' ∧ outcome (getInt w n b') = .ok value ∧
      ∀ (w' : Width) (m : ℤ), m + w'.bytes ≤ n ∨ n + w.bytes ≤ m → outcome (getInt w' m b') = outcome (getInt w' m b) := by
  obtain ⟨b', hrun, hstored⟩ := putInt_stored value h
  refine ⟨b', hrun, hstored, ?_, fun w' m hm => ?_⟩
  · rw [outcome_getInt, if_pos ⟨by omega, by rw [hstored.bound]; omega⟩]
    refine congrArg Except.ok ((compose_congr w fun i hi => ?_).trans (compose_byteOf w value))
    rw [Int.toNat_natCast, hstored.stored i hi, BitVec.ofNat_toNat, BitVec.setWidth_eq]
  · rw [outcome_getInt, outcome_getInt, hstored.bound]
    by_cases hin : 0 ≤ m ∧ m + w'.bytes ≤ b.bound
    · rw [if_pos hin, if_pos hin]
      refine congrArg Except.ok (compose_congr w' fun i hi => ?_)
      rw [hstored.others _ (by omega)]
    · rw [if_neg hin, if_neg hin]

/-- Minus two in the middle of a buffer. -/
theorem field_kept_int16 : ∃ b', putInt .int16 2 (-2 : Int16) (make 8 id) = .ok () b' ∧ Stored .int16 2 (-2 : Int16) (make 8 id) b' ∧
    outcome (getInt .int16 2 b') = .ok (-2 : Int16) ∧ ∀ (w' : Width) (m : ℤ), m + w'.bytes ≤ (2 : ℕ) ∨ (2 : ℕ) + Width.int16.bytes ≤ m →
      outcome (getInt w' m b') = outcome (getInt w' m (make 8 id)) :=
  field_kept .int16 (make 8 id) 2 (-2 : Int16) (by decide)

end Buffer

end RedB
