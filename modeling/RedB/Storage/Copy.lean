import RedB.Storage.Buffer

/-!
# Copies between buffers

A buffer can be filled from another one, from a position on and with a number of bytes or with all
that are left. Each byte is taken from the one buffer and put into the other before the next one is
looked at, so a copy that fails has already moved what fits (`copyBytes_fail`).

The copies of a number of bytes refuse only what is too much for both buffers, so they are all or
nothing unless exactly one of the two is too short (`copies_iff`).
-/

namespace RedB

open Runs

namespace Buffer

/-- `bbuffer::remaining` -/
def remaining (b : Buffer) : ℕ := b.bound - b.index

/-- Two buffers, of which one is copied into the other. -/
structure Two where
  /-- What is copied to. -/
  dst : Buffer
  /-- What is copied from. -/
  src : Buffer

/-- A computation on two buffers. -/
abbrev CopyM := EStateM Fault Two

/-- What is done to the buffer that is copied to. -/
def onDst {α : Type} (x : BufferM α) : CopyM α := fun s =>
  match x s.dst with
  | .ok a b => .ok a { s with dst := b }
  | .error e b => .error e { s with dst := b }

/-- What is done to the buffer that is copied from. -/
def onSrc {α : Type} (x : BufferM α) : CopyM α := fun s =>
  match x s.src with
  | .ok a b => .ok a { s with src := b }
  | .error e b => .error e { s with src := b }

/-- `put(b.get())`, and equally `b.put(get())`. -/
def copyByte : CopyM Unit := do
  let value ← onSrc getByte
  onDst (put value)

/-- `while (size-- > 0)` with a byte in every round, and equally `while (remaining() > 0)`. -/
def copyBytes : ℕ → CopyM Unit
  | 0 => pure ()
  | n + 1 => do
      copyByte
      copyBytes n

/-- `buffer::put (int32_t n, int32_t size, buffer& b)` -/
def putSized (n size : ℤ) : CopyM Unit := do
  onDst (seek n)
  let s ← get
  if size > s.dst.remaining ∧ size > s.src.remaining then throw .remaining
  copyBytes size.toNat

/-- `buffer::get (buffer& b, int32_t n, int32_t size)` -/
def getSized (n size : ℤ) : CopyM Unit := do
  onSrc (seek n)
  let s ← get
  if size > s.src.remaining ∧ size > s.dst.remaining then throw .remaining
  copyBytes size.toNat

/-- `buffer::put (buffer& b)` -/
def putRest : CopyM Unit := do
  let s ← get
  if s.src.remaining > s.dst.remaining then throw .remaining
  copyBytes s.src.remaining

/-- `buffer::put (int32_t n, buffer& b)` -/
def putRestAt (n : ℤ) : CopyM Unit := do
  onDst (seek n)
  putRest

/-- `buffer::get (buffer& b)` -/
def getRest : CopyM Unit := do
  let s ← get
  if s.src.remaining > s.dst.remaining then throw .remaining
  copyBytes s.src.remaining

/-- `buffer::get (buffer& b, int32_t n)` -/
def getRestAt (n : ℤ) : CopyM Unit := do
  onSrc (seek n)
  getRest

/-! ### What a copy should do -/

/-- Exactly `size` bytes have been copied from position `q` of the one buffer to position `p` of the
other one, both indexes are behind them, and nothing else has changed. -/
structure Copied (p q : ℕ) (size : ℤ) (s s' : Two) : Prop where
  dstIndex : s'.dst.index = p + size
  srcIndex : s'.src.index = q + size
  moved : ∀ i : ℕ, i < size → s'.dst.bytes (p + i) = s.src.bytes (q + i)
  others : ∀ i : ℕ, i < p ∨ p + size ≤ i → s'.dst.bytes i = s.dst.bytes i
  source : s'.src.bytes = s.src.bytes
  bounds : s'.dst.bound = s.dst.bound ∧ s'.src.bound = s.src.bound

/-- All is copied, or the copy throws and no byte has changed. -/
def AllOrNothing (p q : ℕ) (size : ℤ) (s : Two) : EStateM.Result Fault Two Unit → Prop
  | .ok _ s' => Copied p q size s s'
  | .error _ s' => s'.dst.bytes = s.dst.bytes

/-- With `r` bytes left behind position `p` of the one buffer and `l` behind position `q` of the
other: both are long enough or both are too short, or the bytes that fit are there already. -/
def BothOrNeither (p q : ℕ) (r l : ℕ) (size : ℤ) (s : Two) : Prop :=
  0 ≤ size ∧ size ≤ r ∧ size ≤ l ∨ size > r ∧ size > l ∨
    0 ≤ size ∧ slice s.src.bytes q (min r l) = slice s.dst.bytes p (min r l)

/-! ### Copies byte by byte -/

variable {s s' : Two}

/-- The buffers behind `k` bytes that have been copied. -/
structure Behind (k : ℕ) (s s' : Two) : Prop where
  dstIndex : s'.dst.index = s.dst.index + k
  srcIndex : s'.src.index = s.src.index + k
  bytes : s'.dst.bytes = written s.dst.bytes s.dst.index (slice s.src.bytes s.src.index k)
  source : s'.src.bytes = s.src.bytes
  bounds : s'.dst.bound = s.dst.bound ∧ s'.src.bound = s.src.bound

/-- A byte is written, and then the ones behind it. -/
theorem written_slice_succ (bytes src : ℕ → ℕ) (p q k : ℕ) :
    written (written bytes p (slice src q 1)) (p + 1) (slice src (q + 1) k) = written bytes p (slice src q (k + 1)) := by
  rw [slice_succ src q k, slice_succ src q 0]
  rfl

theorem Behind.zero (s : Two) : Behind 0 s s := ⟨rfl, rfl, rfl, rfl, rfl, rfl⟩

theorem Behind.succ {k : ℕ} {s₁ : Two} (h : Behind 1 s s₁) (h' : Behind k s₁ s') : Behind (k + 1) s s' where
  dstIndex := by
    rw [h'.dstIndex, h.dstIndex]
    omega
  srcIndex := by
    rw [h'.srcIndex, h.srcIndex]
    omega
  bytes := by
    rw [h'.bytes, h.bytes, h.dstIndex, h.srcIndex, h.source, written_slice_succ]
  source := h'.source.trans h.source
  bounds := ⟨h'.bounds.1.trans h.bounds.1, h'.bounds.2.trans h.bounds.2⟩

theorem getByte_run {b : Buffer} (h : b.index < b.bound) :
    getByte b = .ok (b.bytes b.index) { b with index := b.index + 1, index_le := h } :=
  getByte_ok.mpr ⟨h, rfl, rfl⟩

theorem getByte_fail {b : Buffer} (h : b.bound ≤ b.index) : getByte b = .error .index b := by
  rw [getByte, get_bind]
  refine bind_throw ?_
  rw [seek, get_bind, dif_neg (by omega)]
  rfl

theorem put_run {b : Buffer} (value : ℕ) (h : b.index < b.bound) : put value b =
    .ok () { b with bytes := Function.update b.bytes b.index value, index := b.index + 1, index_le := h } :=
  put_ok.mpr ⟨h, rfl⟩

theorem put_fail {b : Buffer} (value : ℕ) (h : b.bound ≤ b.index) : put value b = .error .remaining b := by
  rw [put, get_bind, dif_neg (by omega)]
  rfl

theorem onDst_ok {α : Type} {x : BufferM α} {a : α} {b : Buffer} (h : x s.dst = .ok a b) : onDst x s = .ok a { s with dst := b } := by
  rw [onDst, h]

theorem onDst_error {α : Type} {x : BufferM α} {e : Fault} {b : Buffer} (h : x s.dst = .error e b) :
    onDst x s = .error e { s with dst := b } := by
  rw [onDst, h]

theorem onSrc_ok {α : Type} {x : BufferM α} {a : α} {b : Buffer} (h : x s.src = .ok a b) : onSrc x s = .ok a { s with src := b } := by
  rw [onSrc, h]

theorem onSrc_error {α : Type} {x : BufferM α} {e : Fault} {b : Buffer} (h : x s.src = .error e b) :
    onSrc x s = .error e { s with src := b } := by
  rw [onSrc, h]

/-- A byte is copied if there is one left in both buffers. -/
theorem copyByte_ok (hd : s.dst.index < s.dst.bound) (hs : s.src.index < s.src.bound) :
    ∃ s', copyByte s = .ok () s' ∧ Behind 1 s s' := by
  have hget := onSrc_ok (getByte_run hs)
  have hput := put_run (s.src.bytes s.src.index) hd
  refine ⟨_, (bind_run hget).trans (onDst_ok hput), ⟨rfl, rfl, ?_, rfl, rfl, rfl⟩⟩
  rw [slice_succ]
  rfl

/-- A copy that fails has changed nothing in the buffer that it copies to. -/
theorem copyByte_fail (h : s.dst.bound ≤ s.dst.index ∨ s.src.bound ≤ s.src.index) :
    ∃ e s', copyByte s = .error e s' ∧ s'.dst = s.dst := by
  rcases Nat.lt_or_ge s.src.index s.src.bound with hs | hs
  · have hd : s.dst.bound ≤ s.dst.index := h.resolve_right (Nat.not_le_of_lt hs)
    have hget := onSrc_ok (getByte_run hs)
    have hput := put_fail (s.src.bytes s.src.index) hd
    exact ⟨.remaining, _, (bind_run hget).trans (onDst_error hput), rfl⟩
  · exact ⟨.index, _, bind_throw (onSrc_error (getByte_fail hs)), rfl⟩

/-- As many bytes as are left in both buffers are copied. -/
theorem copyBytes_ok {k : ℕ} (hd : k ≤ s.dst.remaining) (hs : k ≤ s.src.remaining) :
    ∃ s', copyBytes k s = .ok () s' ∧ Behind k s s' := by
  induction k generalizing s with
  | zero => exact ⟨s, rfl, .zero s⟩
  | succ k ih =>
    rw [remaining] at hd hs
    obtain ⟨s₁, hrun, h₁⟩ := @copyByte_ok s (by omega) (by omega)
    obtain ⟨s', hrun', h'⟩ := @ih s₁
      (by rw [remaining, h₁.bounds.1, h₁.dstIndex]; omega) (by rw [remaining, h₁.bounds.2, h₁.srcIndex]; omega)
    exact ⟨s', (bind_run hrun).trans hrun', h₁.succ h'⟩

/-- A copy of more bytes than that fails behind those that fit. -/
theorem copyBytes_fail {k : ℕ} (h : min s.dst.remaining s.src.remaining < k) :
    ∃ e s', copyBytes k s = .error e s' ∧
      s'.dst.bytes = written s.dst.bytes s.dst.index (slice s.src.bytes s.src.index (min s.dst.remaining s.src.remaining)) := by
  induction k generalizing s with
  | zero => exact absurd h (Nat.not_lt_zero _)
  | succ k ih =>
    by_cases hone : s.dst.index < s.dst.bound ∧ s.src.index < s.src.bound
    · obtain ⟨s₁, hrun, h₁⟩ := copyByte_ok hone.1 hone.2
      have hmin : min s.dst.remaining s.src.remaining = min s₁.dst.remaining s₁.src.remaining + 1 := by
        simp only [remaining, h₁.bounds.1, h₁.bounds.2, h₁.dstIndex, h₁.srcIndex]
        omega
      obtain ⟨e, s', hrun', hbytes⟩ := @ih s₁ (by omega)
      refine ⟨e, s', (bind_run hrun).trans hrun', ?_⟩
      rw [hbytes, hmin, h₁.bytes, h₁.dstIndex, h₁.srcIndex, h₁.source, written_slice_succ]
    · obtain ⟨e, s', hrun, hdst⟩ := @copyByte_fail s (by omega)
      have hmin : min s.dst.remaining s.src.remaining = 0 := by
        simp only [remaining]
        omega
      refine ⟨e, s', bind_throw hrun, ?_⟩
      rw [hdst, hmin]
      rfl

/-! ### All or nothing -/

/-- Buffers that differ at most in their indexes. -/
structure Same (s t : Two) : Prop where
  dst : t.dst.bytes = s.dst.bytes ∧ t.dst.bound = s.dst.bound
  src : t.src.bytes = s.src.bytes ∧ t.src.bound = s.src.bound

theorem Behind.copied {t : Two} {k : ℕ} (h : Behind k t s') (hs : Same s t) : Copied t.dst.index t.src.index k s s' where
  dstIndex := by exact_mod_cast h.dstIndex
  srcIndex := by exact_mod_cast h.srcIndex
  moved i hi := by
    have hslice := slice_written t.dst.bytes (slice t.src.bytes t.src.index k) t.dst.index
    rw [← h.bytes, length_slice, hs.src.1] at hslice
    have := congrArg (fun l => l[i]?) hslice
    simpa [slice, List.getElem?_range (show i < k by omega)] using this
  others i hi := by
    rw [h.bytes, written_outside _ _ (by rw [length_slice]; omega), hs.dst.1]
  source := h.source.trans hs.src.1
  bounds := ⟨h.bounds.1.trans hs.dst.2, h.bounds.2.trans hs.src.2⟩

/-- Bytes that are written where they are already change nothing, and others do. -/
theorem written_eq_iff (bytes : ℕ → ℕ) (p : ℕ) (l : List ℕ) : written bytes p l = bytes ↔ l = slice bytes p l.length := by
  constructor
  · intro h
    have hslice := slice_written bytes l p
    rw [h] at hslice
    exact hslice.symm
  · intro h
    funext i
    by_cases hi : i < p ∨ p + l.length ≤ i
    · exact written_outside bytes l hi
    · have hslice := slice_written bytes l p
      obtain ⟨j, rfl⟩ := Nat.exists_eq_add_of_le (show p ≤ i by omega)
      have := congrArg (fun l => l[j]?) (hslice.trans h)
      simpa [slice, List.getElem?_range (show j < l.length by omega)] using this

/-- What follows when the index has been set: the copy is refused, or made byte by byte. -/
theorem guarded_iff {t : Two} {size : ℤ} {c : Prop} [Decidable c] (hc : c ↔ size > t.dst.remaining ∧ size > t.src.remaining)
    (hs : Same s t) : AllOrNothing t.dst.index t.src.index size s ((do
      if c then throw .remaining
      copyBytes size.toNat : CopyM Unit) t) ↔
    BothOrNeither t.dst.index t.src.index t.dst.remaining t.src.remaining size s := by
  by_cases hrefused : c
  · rw [if_pos hrefused]
    exact iff_of_true hs.dst.1 (.inr (.inl (hc.mp hrefused)))
  · rw [if_neg hrefused]
    rw [hc, not_and_or] at hrefused
    show AllOrNothing _ _ _ _ (copyBytes size.toNat t) ↔ _
    rcases lt_or_ge (min t.dst.remaining t.src.remaining) size.toNat with hshort | hfits
    · -- one of the two is too short
      obtain ⟨e, s', hrun, hbytes⟩ := copyBytes_fail hshort
      have hiff := written_eq_iff s.dst.bytes t.dst.index (slice s.src.bytes t.src.index (min t.dst.remaining t.src.remaining))
      rw [length_slice] at hiff
      rw [hrun]
      show s'.dst.bytes = s.dst.bytes ↔ _
      rw [hbytes, hs.dst.1, hs.src.1, hiff]
      constructor
      · exact fun h => .inr (.inr ⟨by omega, h⟩)
      · rintro (h | h | h)
        · omega
        · omega
        · exact h.2
    · obtain ⟨s', hrun, hbehind⟩ := copyBytes_ok (hfits.trans (min_le_left ..)) (hfits.trans (min_le_right ..))
      rw [hrun]
      show Copied t.dst.index t.src.index size s s' ↔ _
      rcases lt_or_ge size 0 with hneg | hpos
      · refine iff_of_false (fun h => ?_) ?_
        · have := h.dstIndex
          rw [hbehind.dstIndex] at this
          omega
        · rintro (h | h | h) <;> omega
      · have hcopied := hbehind.copied hs
        rw [Int.toNat_of_nonneg hpos] at hcopied
        exact iff_of_true hcopied (.inl ⟨hpos, by omega, by omega⟩)

/-- A position is refused, or it is where the index is then. -/
theorem seek_cases (n : ℤ) (b : Buffer) :
    (n < 0 ∨ b.bound < n) ∧ seek n b = .error .index b ∨
      ∃ h : n.toNat ≤ b.bound, 0 ≤ n ∧ seek n b = .ok () { b with index := n.toNat, index_le := h } := by
  by_cases h : 0 ≤ n ∧ n ≤ b.bound
  · refine .inr ⟨by omega, h.1, ?_⟩
    rw [seek, get_bind, dif_pos h]
    rfl
  · refine .inl ⟨by omega, ?_⟩
    rw [seek, get_bind, dif_neg h]
    rfl

/-- A copy of a number of bytes to a position. -/
theorem putSized_iff (n size : ℤ) (s : Two) : AllOrNothing n.toNat s.src.index size s (putSized n size s) ↔
    (n < 0 ∨ s.dst.bound < n) ∨ BothOrNeither n.toNat s.src.index (s.dst.bound - n.toNat) s.src.remaining size s := by
  rcases seek_cases n s.dst with ⟨hout, hseek⟩ | ⟨hin, hpos, hseek⟩
  · rw [putSized, bind_throw (onDst_error hseek)]
    exact iff_of_true rfl (.inl hout)
  · rw [putSized, bind_run (onDst_ok hseek), or_iff_right (by omega)]
    exact @guarded_iff s _ size _ _ Iff.rfl ⟨⟨rfl, rfl⟩, rfl, rfl⟩

/-- A copy of a number of bytes from a position. -/
theorem getSized_iff (n size : ℤ) (s : Two) : AllOrNothing s.dst.index n.toNat size s (getSized n size s) ↔
    (n < 0 ∨ s.src.bound < n) ∨ BothOrNeither s.dst.index n.toNat s.dst.remaining (s.src.bound - n.toNat) size s := by
  rcases seek_cases n s.src with ⟨hout, hseek⟩ | ⟨hin, hpos, hseek⟩
  · rw [getSized, bind_throw (onSrc_error hseek)]
    exact iff_of_true rfl (.inl hout)
  · rw [getSized, bind_run (onSrc_ok hseek), or_iff_right (by omega)]
    exact @guarded_iff s _ size _ _ and_comm ⟨⟨rfl, rfl⟩, rfl, rfl⟩

/-- A copy of all bytes that are left refuses what does not fit. -/
theorem rest_allOrNothing {t : Two} (hs : Same s t) :
    AllOrNothing t.dst.index t.src.index t.src.remaining s (putRest t) := by
  rw [putRest, get_bind]
  by_cases h : t.src.remaining > t.dst.remaining
  · rw [if_pos h]
    exact hs.dst.1
  · rw [if_neg h]
    obtain ⟨s', hrun, hbehind⟩ := @copyBytes_ok t t.src.remaining (by omega) (Nat.le_refl _)
    show AllOrNothing _ _ _ _ (copyBytes t.src.remaining t)
    rw [hrun]
    exact hbehind.copied hs

theorem putRestAt_allOrNothing (n : ℤ) (s : Two) : AllOrNothing n.toNat s.src.index s.src.remaining s (putRestAt n s) := by
  rcases seek_cases n s.dst with ⟨-, hseek⟩ | ⟨hin, -, hseek⟩
  · rw [putRestAt, bind_throw (onDst_error hseek)]
    rfl
  · rw [putRestAt, bind_run (onDst_ok hseek)]
    exact @rest_allOrNothing s { s with dst := _ } ⟨⟨rfl, rfl⟩, rfl, rfl⟩

theorem getRestAt_allOrNothing (n : ℤ) (s : Two) :
    AllOrNothing s.dst.index n.toNat (s.src.bound - n.toNat : ℕ) s (getRestAt n s) := by
  rcases seek_cases n s.src with ⟨-, hseek⟩ | ⟨hin, -, hseek⟩
  · rw [getRestAt, bind_throw (onSrc_error hseek)]
    rfl
  · rw [getRestAt, bind_run (onSrc_ok hseek)]
    exact @rest_allOrNothing s { s with src := _ } ⟨⟨rfl, rfl⟩, rfl, rfl⟩

/-- Copies between two buffers: those of a number of bytes are all or nothing if and only if the
position is refused, or the number is too much for both or for none, or what fits is there already;
those of all bytes that are left always are. -/
theorem copies_iff (n size : ℤ) (s : Two) :
    (AllOrNothing n.toNat s.src.index size s (putSized n size s) ↔
      (n < 0 ∨ s.dst.bound < n) ∨ BothOrNeither n.toNat s.src.index (s.dst.bound - n.toNat) s.src.remaining size s) ∧
    (AllOrNothing s.dst.index n.toNat size s (getSized n size s) ↔
      (n < 0 ∨ s.src.bound < n) ∨ BothOrNeither s.dst.index n.toNat s.dst.remaining (s.src.bound - n.toNat) size s) ∧
    AllOrNothing n.toNat s.src.index s.src.remaining s (putRestAt n s) ∧
    AllOrNothing s.dst.index n.toNat (s.src.bound - n.toNat : ℕ) s (getRestAt n s) :=
  ⟨putSized_iff n size s, getSized_iff n size s, putRestAt_allOrNothing n s, getRestAt_allOrNothing n s⟩

/-! ### A copy that is cut short -/

/-- Two bytes to copy to, all zero, and three to copy from. -/
def shortTwo : Two where
  dst := make 2 fun _ => 0
  src := make 3 fun i => i + 1

/-- Three bytes do not fit in two, but there are three: two of them are copied before the copy throws. -/
theorem copies_torn : ¬∀ (n size : ℤ) (s : Two), AllOrNothing n.toNat s.src.index size s (putSized n size s) := by
  intro h
  have hcut := (putSized_iff 0 3 shortTwo).mp (h 0 3 shortTwo)
  revert hcut
  simp only [BothOrNeither]
  decide

end Buffer

end RedB
