import RedB.Storage.Block
import RedB.Theory.Runs
import Mathlib.Data.List.Basic
import Mathlib.Tactic.Ring

/-!
# Buffers

A buffer has an index, where the next byte is read or written, and a bound, which the index
does not pass. Bytes are natural numbers, and characters are the bytes of their codes.

What is written is read back (`slice_written`), and what lies outside of it stays as it was
(`slice_frame`).
-/

namespace RedB

open Runs

/-- `buffer` -/
@[ext] structure Buffer where
  /-- `m_size` -/
  size : ℕ
  /-- `m_bound` -/
  bound : ℕ
  /-- `m_index` -/
  index : ℕ
  /-- `m_buffer` -/
  bytes : ℕ → ℕ
  bound_le : bound ≤ size
  index_le : index ≤ bound

/-- What buffers and rows throw. -/
inductive Fault where
  /-- `ERRNO_BUF_INDEX_ERROR` -/
  | index
  /-- `ERRNO_BUF_REMAINING_ERROR` -/
  | remaining
  /-- `ERRNO_VALUE_ERROR` -/
  | value
  /-- `std::stof` or `std::stoi` -/
  | number
deriving DecidableEq, Repr

/-- A computation on a buffer. -/
abbrev BufferM := EStateM Fault Buffer

namespace Buffer

/-- A new buffer. Its bytes are what there was in memory. -/
def make (size : ℕ) (bytes : ℕ → ℕ) : Buffer where
  size := size
  bound := size
  index := 0
  bytes := bytes
  bound_le := le_rfl
  index_le := Nat.zero_le _

/-- `bbuffer::index` -/
def seek (value : ℤ) : BufferM Unit := do
  let b ← get
  if h : 0 ≤ value ∧ value ≤ b.bound then set { b with index := value.toNat, index_le := by omega } else throw .index

/-- `bbuffer::clear` -/
def clear : BufferM Unit := modify fun b => { b with bound := b.size, index := 0, bound_le := le_rfl, index_le := Nat.zero_le _ }

/-- `bbuffer::trip` -/
def trip : BufferM Unit :=
  modify fun b => { b with bound := b.index, index := 0, bound_le := b.index_le.trans b.bound_le, index_le := Nat.zero_le _ }

/-- `buffer::put`, of a byte. -/
def put (value : ℕ) : BufferM Unit := do
  let b ← get
  if h : b.index < b.bound then set { b with bytes := Function.update b.bytes b.index value, index := b.index + 1, index_le := h }
  else throw .remaining

/-- `buffer::get`, of a byte. -/
def getByte : BufferM ℕ := do
  let b ← get
  seek (b.index + 1)
  pure (b.bytes b.index)

/-- `buffer::put` and `buffer::put_varchar` -/
def putAll : List ℕ → BufferM Unit
  | [] => pure ()
  | value :: l => do
      put value
      putAll l

/-- Some bytes, of `buffer::get` and `buffer::get_varchar`. -/
def getAll : ℕ → BufferM (List ℕ)
  | 0 => pure []
  | n + 1 => do
      let value ← getByte
      let l ← getAll n
      pure (value :: l)

/-- The bytes of an `int16_t`. -/
def int16Bytes (v : ℤ) : List ℕ := [(v / 256 % 256).toNat, (v % 256).toNat]

/-- `bits::to_int16` -/
def toInt16 (l : List ℕ) : ℤ :=
  let u : ℤ := l.getD 0 0 * 256 + l.getD 1 0
  if u < 32768 then u else u - 65536

/-- `buffer::put_int16` -/
def putInt16 (v : ℤ) : BufferM Unit := putAll (int16Bytes v)

/-- `buffer::get_int16` -/
def getInt16 : BufferM ℤ := do
  let l ← getAll 2
  pure (toInt16 l)

/-! ### Bytes -/

/-- The bytes at positions `p, …, p + n - 1`. -/
def slice (bytes : ℕ → ℕ) (p n : ℕ) : List ℕ := (List.range n).map fun i => bytes (p + i)

/-- The bytes behind a write at `p`. -/
def written (bytes : ℕ → ℕ) : ℕ → List ℕ → ℕ → ℕ
  | _, [] => bytes
  | p, value :: l => written (Function.update bytes p value) (p + 1) l

@[simp] theorem length_slice (bytes : ℕ → ℕ) (p n : ℕ) : (slice bytes p n).length = n := by
  rw [slice, List.length_map, List.length_range]

@[simp] theorem slice_zero (bytes : ℕ → ℕ) (p : ℕ) : slice bytes p 0 = [] := rfl

theorem slice_add (bytes : ℕ → ℕ) (p m n : ℕ) : slice bytes p (m + n) = slice bytes p m ++ slice bytes (p + m) n := by
  rw [slice, List.range_add, List.map_append, List.map_map]
  simp only [Function.comp_def, ← Nat.add_assoc]
  rfl

theorem slice_succ (bytes : ℕ → ℕ) (p n : ℕ) : slice bytes p (n + 1) = bytes p :: slice bytes (p + 1) n := by
  rw [Nat.add_comm, slice_add]
  rfl

theorem slice_congr {bytes bytes' : ℕ → ℕ} {p n : ℕ} (h : ∀ i, p ≤ i → i < p + n → bytes i = bytes' i) :
    slice bytes p n = slice bytes' p n :=
  List.map_congr_left fun i hi => h _ (Nat.le_add_right ..) (by
    have := List.mem_range.mp hi
    omega)

/-- A part of a slice. -/
theorem slice_part (bytes : ℕ → ℕ) {p n m k : ℕ} (h : m + k ≤ n) : slice bytes (p + m) k = ((slice bytes p n).drop m).take k := by
  obtain ⟨d, rfl⟩ := Nat.exists_eq_add_of_le h
  rw [Nat.add_assoc, slice_add, List.drop_left' (length_slice ..), slice_add, List.take_left' (length_slice ..)]

theorem written_outside (bytes : ℕ → ℕ) (l : List ℕ) {p i : ℕ} (h : i < p ∨ p + l.length ≤ i) : written bytes p l i = bytes i := by
  induction l generalizing bytes p with
  | nil => rfl
  | cons value l ih =>
    rw [List.length_cons] at h
    rw [written, ih _ (by omega), Function.update_of_ne (by omega)]

/-- What has been written is read back. -/
theorem slice_written (bytes : ℕ → ℕ) (l : List ℕ) (p : ℕ) : slice (written bytes p l) p l.length = l := by
  induction l generalizing bytes p with
  | nil => rfl
  | cons value l ih =>
    rw [written, List.length_cons, slice_succ, ih, written_outside _ _ (Or.inl (Nat.lt_succ_self p)), Function.update_self]

/-- What lies outside of a write stays. -/
theorem slice_frame (bytes : ℕ → ℕ) (l : List ℕ) {p q n : ℕ} (h : q + n ≤ p ∨ p + l.length ≤ q) :
    slice (written bytes p l) q n = slice bytes q n :=
  slice_congr fun i hi hi' => written_outside bytes l (by omega)

/-- A byte that is put into a slice. -/
theorem slice_update (bytes : ℕ → ℕ) (p n i value : ℕ) :
    slice (Function.update bytes (p + i) value) p n = (slice bytes p n).set i value := by
  refine List.ext_getElem? fun j => ?_
  simp only [slice, List.getElem?_set, List.getElem?_map, List.length_map, List.length_range]
  by_cases hj : j < n
  · rw [List.getElem?_range hj, Option.map_some, Option.map_some]
    by_cases hij : i = j
    · subst hij
      rw [if_pos rfl, if_pos hj, Function.update_self]
    · rw [if_neg hij, Function.update_of_ne (by omega)]
  · rw [List.getElem?_eq_none (by rw [List.length_range]; omega), Option.map_none, Option.map_none]
    split
    · rw [if_neg (by omega)]
    · rfl

@[simp] theorem length_int16Bytes (v : ℤ) : (int16Bytes v).length = 2 := rfl

/-- An `int16_t` is put as in the header of a block. -/
theorem map_beBytes_two (v : ℤ) : (beBytes 2 v).map Fin.val = int16Bytes v := by
  simp [beBytes, int16Bytes, List.range_succ]
  omega

/-- An `int16_t` is got as in the header of a block. -/
theorem toInt16_map {l : List Byte} (h : l.length = 2) : toInt16 (l.map Fin.val) = ofBe l := by
  obtain ⟨a, b, rfl⟩ := List.length_eq_two.mp h
  have hget : (([a, b].map Fin.val).getD 0 0 : ℤ) * 256 + (([a, b].map Fin.val).getD 1 0 : ℤ) = (a.val : ℤ) * 256 + b.val := by simp
  have hfold : [a, b].foldl (fun u c => u * 256 + (c.val : ℤ)) 0 = (a.val : ℤ) * 256 + b.val := by simp
  have hpow : (256 : ℤ) ^ [a, b].length = 65536 := by norm_num
  unfold toInt16 ofBe
  dsimp only
  rw [hget, hfold, hpow]
  split <;> split <;> omega

/-- An `int16_t` is read back. -/
theorem toInt16_int16Bytes {v : ℤ} (h : 0 ≤ v) (h' : v < 32768) : toInt16 (int16Bytes v) = v := by
  rw [← map_beBytes_two, toInt16_map (length_beBytes 2 v), ofBe_beBytes_two (by omega) h']

/-- An `int16_t` is small. -/
theorem toInt16_int16Bytes_lt (v : ℤ) : toInt16 (int16Bytes v) < 32768 := by
  have h : toInt16 (int16Bytes v) = if v % 65536 < 32768 then v % 65536 else v % 65536 - 65536 := by
    have hu : ((int16Bytes v).getD 0 0 : ℤ) * 256 + ((int16Bytes v).getD 1 0 : ℤ) = v % 65536 := by
      show ((v / 256 % 256).toNat : ℤ) * 256 + ((v % 256).toNat : ℤ) = v % 65536
      omega
    unfold toInt16
    dsimp only
    rw [hu]
  rw [h]
  split <;> omega

/-! ### Runs -/

variable {b b' : Buffer}

theorem seek_ok {p : ℕ} {u : Unit} : seek p b = .ok u b' ↔ ∃ h : p ≤ b.bound, { b with index := p, index_le := h } = b' := by
  rw [seek, get_bind]
  split
  · rename_i h
    exact set_ok.trans ⟨fun h' => ⟨by omega, h'⟩, fun ⟨_, h'⟩ => h'⟩
  · rename_i h
    exact throw_ok.trans ⟨False.elim, fun ⟨h', _⟩ => absurd (And.intro (Int.natCast_nonneg p) (Int.ofNat_le.mpr h')) h⟩

theorem seek_to {v : ℤ} {p : ℕ} {u : Unit} (hv : v = p) :
    seek v b = .ok u b' ↔ ∃ h : p ≤ b.bound, { b with index := p, index_le := h } = b' := by
  subst hv
  exact seek_ok

theorem put_ok {value : ℕ} {u : Unit} : put value b = .ok u b' ↔
    ∃ h : b.index < b.bound, { b with bytes := Function.update b.bytes b.index value, index := b.index + 1, index_le := h } = b' := by
  rw [put, get_bind]
  split
  · rename_i h
    exact set_ok.trans ⟨fun h' => ⟨h, h'⟩, fun ⟨_, h'⟩ => h'⟩
  · rename_i h
    exact throw_ok.trans ⟨False.elim, fun ⟨h', _⟩ => absurd h' h⟩

theorem getByte_ok {value : ℕ} : getByte b = .ok value b' ↔
    ∃ h : b.index + 1 ≤ b.bound, b.bytes b.index = value ∧ { b with index := b.index + 1, index_le := h } = b' := by
  rw [getByte, get_bind, bind_ok]
  constructor
  · rintro ⟨_, s, hs, hp⟩
    obtain ⟨h, rfl⟩ := seek_ok.mp (by exact_mod_cast hs)
    obtain ⟨hv, rfl⟩ := pure_ok.mp hp
    exact ⟨h, hv, rfl⟩
  · rintro ⟨h, hv, rfl⟩
    exact ⟨(), _, by exact_mod_cast seek_ok.mpr ⟨h, rfl⟩, pure_ok.mpr ⟨hv, rfl⟩⟩

theorem putAll_ok {l : List ℕ} {u : Unit} : putAll l b = .ok u b' ↔ ∃ h : b.index + l.length ≤ b.bound,
    { b with bytes := written b.bytes b.index l, index := b.index + l.length, index_le := h } = b' := by
  induction l generalizing b with
  | nil => exact pure_ok.trans ⟨fun h => ⟨b.index_le, h.2⟩, fun ⟨_, h⟩ => ⟨rfl, h⟩⟩
  | cons value l ih =>
    rw [putAll, bind_ok]
    constructor
    · rintro ⟨_, s, hs, hl⟩
      obtain ⟨h, rfl⟩ := put_ok.mp hs
      obtain ⟨h', rfl⟩ := ih.mp hl
      refine ⟨by rw [List.length_cons]; dsimp only at h'; omega, ?_⟩
      congr 1
      rw [List.length_cons]
      dsimp only
      omega
    · rintro ⟨h, rfl⟩
      rw [List.length_cons] at h
      refine ⟨(), _, put_ok.mpr ⟨by omega, rfl⟩, ih.mpr ⟨by dsimp only; omega, ?_⟩⟩
      congr 1
      rw [List.length_cons]
      dsimp only
      omega

theorem getAll_ok {n : ℕ} {l : List ℕ} {b b' : Buffer} : getAll n b = .ok l b' ↔ ∃ h : b.index + n ≤ b.bound,
    slice b.bytes b.index n = l ∧ { b with index := b.index + n, index_le := h } = b' := by
  induction n generalizing b b' l with
  | zero => exact pure_ok.trans ⟨fun h => ⟨b.index_le, h⟩, fun ⟨_, h⟩ => h⟩
  | succ n ih =>
    rw [getAll, bind_ok]
    constructor
    · rintro ⟨v, s, hv, hs⟩
      obtain ⟨h, rfl, rfl⟩ := getByte_ok.mp hv
      obtain ⟨l', s', hl', hp⟩ := bind_ok.mp hs
      obtain ⟨h', rfl, rfl⟩ := ih.mp hl'
      obtain ⟨rfl, rfl⟩ := pure_ok.mp hp
      refine ⟨by dsimp only at h'; omega, slice_succ .., ?_⟩
      congr 1
      dsimp only
      omega
    · rintro ⟨h, rfl, rfl⟩
      refine ⟨_, _, getByte_ok.mpr ⟨by omega, rfl, rfl⟩, bind_ok.mpr ⟨_, _, ih.mpr ⟨by dsimp only; omega, rfl, rfl⟩,
        pure_ok.mpr ⟨(slice_succ ..).symm, ?_⟩⟩⟩
      congr 1
      dsimp only
      omega

end Buffer

end RedB
