import RedB.Storage.Buffer
import RedB.Tran.Text

/-!
# Elements of nodes

A node has its elements one behind the other, each with a place of eight bytes and a key. An element
is written with all of its key, however long that is. A key that is not longer than its slot leaves
the other elements and the offsets of the children as they were (`putElement_keeps`).
-/

namespace RedB

open Runs

namespace Buffer

/-- The buffer behind a run. -/
def after {α : Type} : EStateM.Result Fault Buffer α → Buffer
  | .ok _ b => b
  | .error _ b => b

/-- The bytes of an `int64_t`. -/
def int64Bytes (v : ℤ) : List ℕ := (List.range 8).map fun i => (v / 256 ^ (7 - i) % 256).toNat

/-- The place of element `n`. -/
def elementPos (keySize n : ℕ) : ℕ := 24 + n * (8 + keySize)

/-- The place of the row, in a leaf. -/
def putOffset (leaf : Bool) (keySize n : ℕ) (offset : ℤ) : BufferM Unit :=
  if leaf then do
    seek (elementPos keySize n)
    putAll (int64Bytes offset)
  else pure ()

/-- `node::put_element`, in the bytes of the node. -/
def putElement (leaf : Bool) (keySize n : ℕ) (offset : ℤ) (key : Text) : BufferM Unit := do
  putOffset leaf keySize n offset
  seek (elementPos keySize n + 8 : ℕ)
  putAll (key.map Char.toNat)

/-- Only element `n` has been written, and the offsets of children are what they were. -/
structure KeepsOthers (leaf : Bool) (keySize n : ℕ) (b b' : Buffer) : Prop where
  outside : ∀ i, i < elementPos keySize n ∨ elementPos keySize (n + 1) ≤ i → b'.bytes i = b.bytes i
  elements : ∀ m, m ≠ n → slice b'.bytes (elementPos keySize m) (8 + keySize) = slice b.bytes (elementPos keySize m) (8 + keySize)
  children : leaf = false → ∀ m, slice b'.bytes (elementPos keySize m) 8 = slice b.bytes (elementPos keySize m) 8

/-- A run writes nothing but these places. -/
def Writes {α : Type} (x : BufferM α) (p q : ℕ) : Prop := ∀ b i, i < p ∨ q ≤ i → (after (x b)).bytes i = b.bytes i

theorem seek_bytes (v : ℤ) (b : Buffer) : (after (seek v b)).bytes = b.bytes := by
  rw [seek, get_bind]
  split <;> rfl

theorem putAll_after (l : List ℕ) (b : Buffer) (i : ℕ) (h : i < b.index ∨ b.index + l.length ≤ i) :
    (after (putAll l b)).bytes i = b.bytes i := by
  induction l generalizing b with
  | nil => rfl
  | cons value l ih =>
    rw [List.length_cons] at h
    rw [putAll]
    cases hp : put value b with
    | error e s =>
      rw [bind_throw hp]
      rw [put, get_bind] at hp
      split at hp <;> cases hp
      rfl
    | ok u s =>
      obtain ⟨hb, rfl⟩ := put_ok.mp hp
      rw [bind_run hp, ih _ (by dsimp only; omega)]
      exact Function.update_of_ne (by omega) _ _

/-- Bytes from a place on. -/
theorem writes_at (p : ℕ) (l : List ℕ) : Writes (do seek p; putAll l) p (p + l.length) := by
  intro b i hi
  cases hs : seek p b with
  | error e s =>
    rw [bind_throw hs]
    have := seek_bytes p b
    rw [hs] at this
    exact congrFun this i
  | ok u s =>
    obtain ⟨hb, rfl⟩ := seek_ok.mp hs
    rw [bind_run hs, putAll_after _ _ _ hi]

theorem Writes.bind {α β : Type} {x : BufferM α} {y : BufferM β} {p q r : ℕ} (hx : Writes x p q) (hy : Writes y q r) (hpq : p ≤ q)
    (hqr : q ≤ r) : Writes (x >>= fun _ => y) p r := by
  intro b i hi
  have h1 := hx b i (by omega)
  cases hr : x b with
  | error e s =>
    rw [bind_throw hr]
    rwa [hr] at h1
  | ok a s =>
    rw [bind_run hr, hy s i (by omega)]
    rwa [hr] at h1

theorem elementPos_succ (keySize n : ℕ) : elementPos keySize (n + 1) = elementPos keySize n + (8 + keySize) := by
  rw [elementPos, elementPos, Nat.succ_mul, Nat.add_assoc]

theorem elementPos_lt {keySize m n : ℕ} (h : m < n) : elementPos keySize m + (8 + keySize) ≤ elementPos keySize n := by
  rw [← elementPos_succ]
  exact Nat.add_le_add_left (Nat.mul_le_mul_right _ h) _

/-- What is written lies behind the offset of a child, and up to the end of the key. -/
theorem putElement_writes (leaf : Bool) (keySize n : ℕ) (offset : ℤ) (key : Text) :
    Writes (putElement leaf keySize n offset key) (elementPos keySize n + if leaf then 0 else 8) (elementPos keySize n + (8 + key.length)) := by
  have hkey := writes_at (elementPos keySize n + 8) (key.map Char.toNat)
  rw [List.length_map, Nat.add_assoc] at hkey
  cases leaf with
  | false => exact hkey
  | true =>
    have hoff : Writes _ _ (elementPos keySize n + 8) := writes_at (elementPos keySize n) (int64Bytes offset)
    exact hoff.bind hkey (Nat.le_add_right ..) (by omega)

/-- A key of the size of its slot is written into its slot. -/
theorem putElement_keeps {leaf : Bool} {keySize n : ℕ} {offset : ℤ} {key : Text} (h : key.length ≤ keySize) (b : Buffer) :
    KeepsOthers leaf keySize n b (after (putElement leaf keySize n offset key b)) := by
  have hw := putElement_writes leaf keySize n offset key b
  have hsucc := elementPos_succ keySize n
  refine ⟨fun i hi => hw i (by split <;> omega), fun m hm => ?_, fun hleaf m => ?_⟩
  · refine slice_congr fun i hi hi' => hw i ?_
    rcases Nat.lt_or_gt_of_ne hm with hlt | hgt
    · have := @elementPos_lt keySize _ _ hlt
      split <;> omega
    · have := @elementPos_lt keySize _ _ hgt
      omega
  · subst hleaf
    refine slice_congr fun i hi hi' => hw i ?_
    rw [if_neg Bool.false_ne_true]
    rcases Nat.lt_trichotomy m n with hlt | rfl | hgt
    · have := @elementPos_lt keySize _ _ hlt
      omega
    · omega
    · have := @elementPos_lt keySize _ _ hgt
      omega

end Buffer

end RedB
