import Mathlib.Data.Int.Order.Basic
import Mathlib.Data.Nat.Notation
import Mathlib.Order.MinMax
import Mathlib.Tactic.Ring

/-!
# Input and output in pieces

`dio::io_pread` and `dio::io_pwrite` go on until all bytes have been transferred: a call may transfer
fewer bytes than it is asked for, and it may be interrupted. What a call returns is added to the count
of bytes also when it has been interrupted, and then it is `-1`.

So every interruption takes a byte back, which is transferred again, and an interruption when there is
no byte to take back ends the transfer with `-1` (`transfers_iff`). No call is ever given a place
outside of the buffer.
-/

namespace RedB

namespace Dio

/-- What a call of `pread` or `pwrite` comes to. -/
inductive Reply where
  /-- As many bytes at most. -/
  | count (k : ℕ)
  /-- `EINTR` -/
  | interrupted
  /-- Another error. -/
  | failed

/-- `errno` -/
inductive Errno where
  | none
  | eintr
  | other
deriving DecidableEq

/-- Memory and a file. -/
structure Disk where
  /-- The bytes of the memory, by their distance from the start of the buffer. -/
  memory : ℤ → ℕ
  /-- The bytes of the file. -/
  file : ℕ → ℕ
  /-- The size of the file. -/
  size : ℕ
  errno : Errno
  /-- Where in the buffer each call has worked and with how many bytes, the last call first. -/
  calls : List (ℤ × ℕ)

/-- A call of `pread`, which transfers at least one byte where there is one. -/
def pread (reply : ℕ → Reply) (pos : ℤ) (count : ℕ) (offset : ℤ) (s : Disk) : ℤ × Disk :=
  let t := { s with calls := (pos, count) :: s.calls }
  match reply s.calls.length with
  | .interrupted => (-1, { t with errno := .eintr })
  | .failed => (-1, { t with errno := .other })
  | .count k =>
    let n := min (max 1 k) (min count (s.size - offset.toNat))
    (n, { t with memory := fun i => if pos ≤ i ∧ i < pos + n then s.file (offset + (i - pos)).toNat else s.memory i })

/-- A call of `pwrite`. -/
def pwrite (reply : ℕ → Reply) (pos : ℤ) (count : ℕ) (offset : ℤ) (s : Disk) : ℤ × Disk :=
  let t := { s with calls := (pos, count) :: s.calls }
  match reply s.calls.length with
  | .interrupted => (-1, { t with errno := .eintr })
  | .failed => (-1, { t with errno := .other })
  | .count k =>
    let n := min k count
    (n, { t with
      file := fun j => if offset ≤ j ∧ j < offset + n then s.memory (pos + (j - offset)) else s.file j
      size := if n = 0 then s.size else max s.size (offset + n).toNat })

/-- `static_cast<size_t>` -/
def toSize (n : ℤ) : ℕ := (n % 2 ^ 64).toNat

/-- The loop of `dio::io_pread`. -/
def preadLoop (reply : ℕ → Reply) (nbyte : UInt64) (offset : ℤ) : ℕ → ℤ → Disk → Option ℤ × Disk
  | 0, _, s => (none, s)
  | fuel + 1, nread, s =>
    let (n, s) := pread reply nread (toSize (nbyte.toNat - nread)) (offset + nread) s
    if n < 0 ∧ s.errno ≠ .eintr then (some (-1), s)
    else
      let s := if n < 0 then { s with errno := .none } else s
      if n = 0 then (some nread, s)
      else if toSize (nread + n) < nbyte.toNat then preadLoop reply nbyte offset fuel (nread + n) s
      else (some (nread + n), s)

/-- `dio::io_pread`; nothing while the loop goes on. -/
def ioPread (reply : ℕ → Reply) (fuel : ℕ) (nbyte : UInt64) (offset : ℤ) (s : Disk) : Option ℤ × Disk :=
  preadLoop reply nbyte offset fuel 0 { s with errno := .none, calls := [] }

/-- The loop of `dio::io_pwrite`. -/
def pwriteLoop (reply : ℕ → Reply) (nbyte : UInt64) (offset : ℤ) : ℕ → ℤ → Disk → Option ℤ × Disk
  | 0, _, s => (none, s)
  | fuel + 1, nwritten, s =>
    let (n, s) := pwrite reply nwritten (toSize (nbyte.toNat - nwritten)) (offset + nwritten) s
    if n < 0 ∧ s.errno ≠ .eintr then (some (-1), s)
    else
      let s := if n < 0 then { s with errno := .none } else s
      if toSize (nwritten + n) < nbyte.toNat then pwriteLoop reply nbyte offset fuel (nwritten + n) s
      else (some (nwritten + n), s)

/-- `dio::io_pwrite`; nothing while the loop goes on. -/
def ioPwrite (reply : ℕ → Reply) (fuel : ℕ) (nbyte : UInt64) (offset : ℤ) (s : Disk) : Option ℤ × Disk :=
  pwriteLoop reply nbyte offset fuel 0 { s with errno := .none, calls := [] }

/-! ### What a transfer should do -/

/-- Some number of calls is enough, and then all `e` bytes from `offset` on are in the buffer, and
nothing else has changed. -/
def ReadsAll (reply : ℕ → Reply) (nbyte : UInt64) (offset e : ℕ) (s : Disk) : Prop :=
  ∃ s', (∃ m, ∀ fuel, m ≤ fuel → ioPread reply fuel nbyte offset s = (some (e : ℤ), s')) ∧
    (∀ i : ℕ, i < e → s'.memory i = s.file (offset + i)) ∧ (∀ i : ℤ, i < 0 ∨ e ≤ i → s'.memory i = s.memory i) ∧
    s'.file = s.file

/-- Some number of calls is enough, and then all bytes are in the file from `offset` on, and no other
byte of the file has changed. -/
def WritesAll (reply : ℕ → Reply) (nbyte : UInt64) (offset : ℕ) (s : Disk) : Prop :=
  ∃ s', (∃ m, ∀ fuel, m ≤ fuel → ioPwrite reply fuel nbyte offset s = (some (nbyte.toNat : ℤ), s')) ∧
    (∀ i : ℕ, i < nbyte.toNat → s'.file (offset + i) = s.memory i) ∧
    (∀ j : ℕ, j < offset ∨ offset + nbyte.toNat ≤ j → s'.file j = s.file j) ∧ s'.memory = s.memory

/-- All calls have worked within the buffer. -/
def InBuffer (nbyte : UInt64) (s : Disk) : Prop := ∀ c ∈ s.calls, 0 ≤ c.1 ∧ c.1 + c.2 ≤ nbyte.toNat

/-! ### What the replies add up to -/

/-- The sum of `j` replies: bytes, no more than `e` in all, less one for each interruption. -/
def tally (bytes : ℕ → ℕ) (e : ℕ) (reply : ℕ → Reply) : ℕ → ℤ
  | 0 => 0
  | j + 1 =>
    match reply j with
    | .count k => min (tally bytes e reply j + bytes k) e
    | _ => tally bytes e reply j - 1

/-- There is a reply with which all `e` bytes have come together; if more have been asked for, it is one
behind them. Until then there is no other error, and at no time there are more interruptions than bytes. -/
def Completes (bytes : ℕ → ℕ) (e : ℕ) (nbyte : UInt64) (reply : ℕ → Reply) : Prop :=
  ∃ m, (∀ j ≤ m, 0 ≤ tally bytes e reply j ∧ reply j ≠ .failed) ∧ reply m ≠ .interrupted ∧
    tally bytes e reply (m + 1) = e ∧ (e < nbyte.toNat → tally bytes e reply m = e)

/-! ### Both loops -/

/-- Both loops, with what they call. One of them stops when nothing has been transferred. -/
def transferLoop (stop : Bool) (call : ℤ → ℕ → ℤ → Disk → ℤ × Disk) (nbyte : UInt64) (offset : ℤ) :
    ℕ → ℤ → Disk → Option ℤ × Disk
  | 0, _, s => (none, s)
  | fuel + 1, c, s =>
    let (n, s) := call c (toSize (nbyte.toNat - c)) (offset + c) s
    if n < 0 ∧ s.errno ≠ .eintr then (some (-1), s)
    else
      let s := if n < 0 then { s with errno := .none } else s
      if stop ∧ n = 0 then (some c, s)
      else if toSize (c + n) < nbyte.toNat then transferLoop stop call nbyte offset fuel (c + n) s
      else (some (c + n), s)

theorem preadLoop_eq (reply : ℕ → Reply) (nbyte : UInt64) (offset : ℤ) (fuel : ℕ) (c : ℤ) (s : Disk) :
    preadLoop reply nbyte offset fuel c s = transferLoop true (pread reply) nbyte offset fuel c s := by
  induction fuel generalizing c s with
  | zero => rfl
  | succ fuel ih => simp only [preadLoop, transferLoop, ih, true_and]

theorem pwriteLoop_eq (reply : ℕ → Reply) (nbyte : UInt64) (offset : ℤ) (fuel : ℕ) (c : ℤ) (s : Disk) :
    pwriteLoop reply nbyte offset fuel c s = transferLoop false (pwrite reply) nbyte offset fuel c s := by
  induction fuel generalizing c s with
  | zero => rfl
  | succ fuel ih => simp only [pwriteLoop, transferLoop, ih, Bool.false_eq_true, false_and, if_false]

theorem toSize_natCast {n : ℕ} {nbyte : UInt64} (h : n ≤ nbyte.toNat) : toSize n = n := by
  have := nbyte.toNat_lt
  rw [toSize]
  omega

theorem toSize_neg_one : toSize (-1) = 2 ^ 64 - 1 := rfl

section Loop

variable {reply : ℕ → Reply} {bytes : ℕ → ℕ} {e : ℕ} {stop : Bool} {call : ℤ → ℕ → ℤ → Disk → ℤ × Disk} {nbyte : UInt64}
  {offset : ℕ} {Moved : ℕ → Disk → Prop} {c i : ℕ} {s : Disk}

/-- What a call does in either loop: it moves some of the bytes between `c` and `e`. -/
structure Pieces (reply : ℕ → Reply) (bytes : ℕ → ℕ) (e : ℕ) (stop : Bool) (call : ℤ → ℕ → ℤ → Disk → ℤ × Disk)
    (nbyte : UInt64) (offset : ℕ) (Moved : ℕ → Disk → Prop) : Prop where
  le : e ≤ nbyte.toNat
  interrupted : ∀ {c : ℕ} {s : Disk}, reply s.calls.length = .interrupted → call c (nbyte.toNat - c) (offset + c : ℕ) s =
    (-1, { s with errno := .eintr, calls := (↑c, nbyte.toNat - c) :: s.calls })
  failed : ∀ {c : ℕ} {s : Disk}, reply s.calls.length = .failed → call c (nbyte.toNat - c) (offset + c : ℕ) s =
    (-1, { s with errno := .other, calls := (↑c, nbyte.toNat - c) :: s.calls })
  counted : ∀ {c k : ℕ} {s : Disk}, c ≤ e → reply s.calls.length = .count k → Moved c s →
    ∃ s', call c (nbyte.toNat - c) (offset + c : ℕ) s = (((min (bytes k) (e - c) : ℕ) : ℤ), s') ∧
      s'.calls = (↑c, nbyte.toNat - c) :: s.calls ∧ Moved (c + min (bytes k) (e - c)) s'
  /-- What has been moved stays. -/
  kept : ∀ {c c' : ℕ} {s : Disk} (x : Errno) (l : List (ℤ × ℕ)), c' ≤ c → Moved c s → Moved c' { s with errno := x, calls := l }
  /-- A loop that stops when nothing has been transferred is one that transfers something as long as it can. -/
  stops : if stop then ∀ k, 1 ≤ bytes k else e = nbyte.toNat

/-- What a round of the loop does when `c` bytes have been transferred, and call `i` is made. -/
inductive Round (reply : ℕ → Reply) (bytes : ℕ → ℕ) (e : ℕ) (stop : Bool) (call : ℤ → ℕ → ℤ → Disk → ℤ × Disk) (nbyte : UInt64)
    (offset : ℕ) (Moved : ℕ → Disk → Prop) (i c : ℕ) (s s' : Disk) : Prop where
  | lost : reply i = .failed ∨ tally bytes e reply (i + 1) = -1 →
      (∀ fuel, transferLoop stop call nbyte offset (fuel + 1) c s = (some (-1), s')) → Round ..
  | ends : reply i ≠ .failed → reply i ≠ .interrupted → tally bytes e reply (i + 1) = e → (e < nbyte.toNat → c = e) →
      Moved e s' → (∀ fuel, transferLoop stop call nbyte offset (fuel + 1) c s = (some ↑e, s')) → Round ..
  | goes (c' : ℕ) : reply i ≠ .failed → (reply i ≠ .interrupted → c' < nbyte.toNat ∧ c ≠ e) →
      tally bytes e reply (i + 1) = c' → c' ≤ e → Moved c' s' →
      (∀ fuel, transferLoop stop call nbyte offset (fuel + 1) c s = transferLoop stop call nbyte offset fuel c' s') → Round ..

theorem Pieces.round (hp : Pieces reply bytes e stop call nbyte offset Moved) (hc : c ≤ e) (hm : Moved c s)
    (ht : tally bytes e reply s.calls.length = c) :
    ∃ s', s'.calls = (↑c, nbyte.toNat - c) :: s.calls ∧ Round reply bytes e stop call nbyte offset Moved s.calls.length c s s' := by
  have hle := hp.le
  have hreq : toSize ((nbyte.toNat : ℤ) - c) = nbyte.toNat - c := by
    rw [← Int.ofNat_sub (hc.trans hle)]
    exact toSize_natCast (Nat.sub_le ..)
  have hoff : (offset : ℤ) + c = (offset + c : ℕ) := (Int.natCast_add ..).symm
  cases hr : reply s.calls.length with
  | failed =>
    refine ⟨{ s with errno := .other, calls := (↑c, nbyte.toNat - c) :: s.calls }, rfl, .lost (.inl hr) fun fuel => ?_⟩
    simp only [transferLoop, hreq, hoff, hp.failed hr]
    rw [if_pos ⟨by decide, by decide⟩]
  | interrupted =>
    refine ⟨{ s with errno := .none, calls := (↑c, nbyte.toNat - c) :: s.calls }, rfl, ?_⟩
    have htally : tally bytes e reply (s.calls.length + 1) = (c : ℤ) - 1 := by rw [tally, hr, ht]
    have hloop : ∀ fuel, transferLoop stop call nbyte offset (fuel + 1) c s =
        if toSize ((c : ℤ) - 1) < nbyte.toNat then
          transferLoop stop call nbyte offset fuel ((c : ℤ) - 1) { s with errno := .none, calls := (↑c, nbyte.toNat - c) :: s.calls }
        else (some ((c : ℤ) - 1), { s with errno := .none, calls := (↑c, nbyte.toNat - c) :: s.calls }) := fun fuel => by
      simp only [transferLoop, hreq, hoff, hp.interrupted hr]
      simp [Int.sub_eq_add_neg]
    cases c with
    | zero =>
      refine .lost (.inr htally) fun fuel => ?_
      rw [hloop, if_neg]
      · rfl
      · have := nbyte.toNat_lt
        simp only [Int.ofNat_zero, Int.zero_sub, toSize_neg_one]
        omega
    | succ c =>
      have hcast : ((c + 1 : ℕ) : ℤ) - 1 = c := by omega
      rw [hcast] at htally
      refine .goes c (by rw [hr]; simp) (fun h => absurd hr h) htally (by omega) (hp.kept _ _ (Nat.le_succ c) hm) fun fuel => ?_
      have hlt : c < nbyte.toNat := by omega
      rw [hloop, hcast, toSize_natCast hlt.le, if_pos hlt]
  | count k =>
    obtain ⟨s', hcall, hcalls, hm'⟩ := hp.counted hc hr hm
    refine ⟨s', hcalls, ?_⟩
    have htally : tally bytes e reply (s.calls.length + 1) = (c + min (bytes k) (e - c) : ℕ) := by
      rw [tally, hr, ht]
      dsimp only
      omega
    have hloop : ∀ fuel, transferLoop stop call nbyte offset (fuel + 1) c s =
        if stop ∧ min (bytes k) (e - c) = 0 then (some (c : ℤ), s')
        else if c + min (bytes k) (e - c) < nbyte.toNat then
          transferLoop stop call nbyte offset fuel (c + min (bytes k) (e - c) : ℕ) s'
        else (some ((c + min (bytes k) (e - c) : ℕ) : ℤ), s') := fun fuel => by
      have hbound : c + min (bytes k) (e - c) ≤ nbyte.toNat := by omega
      simp only [transferLoop, hreq, hoff, hcall]
      generalize min (bytes k) (e - c) = n at hbound
      have hneg : ¬(n : ℤ) < 0 := by omega
      simp only [hneg, false_and, if_false, Int.natCast_eq_zero]
      rw [← Int.natCast_add, toSize_natCast hbound]
    have hne : reply s.calls.length ≠ .failed ∧ reply s.calls.length ≠ .interrupted := by
      rw [hr]
      exact ⟨by simp, by simp⟩
    have hstops := hp.stops
    by_cases hnone : stop = true ∧ min (bytes k) (e - c) = 0
    · -- there is nothing left to transfer
      obtain ⟨rfl, hzero⟩ := hnone
      have hk : 1 ≤ bytes k := hstops k
      have hce : c = e := by omega
      refine .ends hne.1 hne.2 (by rw [htally]; omega) (fun _ => hce) (by rw [hzero, hce] at hm'; exact hm') fun fuel => ?_
      rw [hloop, if_pos ⟨rfl, hzero⟩, hce]
    · by_cases hmore : c + min (bytes k) (e - c) < nbyte.toNat
      · refine .goes _ hne.1 (fun _ => ⟨hmore, fun hce => ?_⟩) htally (by omega) hm' fun fuel => ?_
        · cases stop with
          | true => exact hnone ⟨rfl, by omega⟩
          | false =>
            have he : e = nbyte.toNat := hstops
            omega
        rw [hloop, if_neg hnone, if_pos hmore]
      · -- all bytes that have been asked for have come
        have hce : c + min (bytes k) (e - c) = e := by omega
        refine .ends hne.1 hne.2 (by rw [htally, hce]) (by omega) (hce ▸ hm') fun fuel => ?_
        rw [hloop, if_neg hnone, if_neg hmore, hce]

/-! ### Runs -/

/-- Where the loop is after some calls, all of which have been good. -/
structure Running (reply : ℕ → Reply) (bytes : ℕ → ℕ) (e : ℕ) (nbyte : UInt64) (Moved : ℕ → Disk → Prop) (c : ℕ) (s : Disk) : Prop where
  le : c ≤ e
  moved : Moved c s
  sum : tally bytes e reply s.calls.length = c
  good : ∀ j < s.calls.length, 0 ≤ tally bytes e reply j ∧ reply j ≠ .failed
  inBuffer : InBuffer nbyte s

theorem Running.asked (hp : Pieces reply bytes e stop call nbyte offset Moved) (hs : Running reply bytes e nbyte Moved c s) {s' : Disk}
    (hcalls : s'.calls = (↑c, nbyte.toNat - c) :: s.calls) : InBuffer nbyte s' := by
  have hle := hs.le.trans hp.le
  intro x hx
  rw [hcalls] at hx
  rcases List.mem_cons.mp hx with rfl | hx
  · dsimp only
    omega
  · exact hs.inBuffer x hx

theorem Running.next (hp : Pieces reply bytes e stop call nbyte offset Moved) (hs : Running reply bytes e nbyte Moved c s) {s' : Disk}
    {c' : ℕ} (hcalls : s'.calls = (↑c, nbyte.toNat - c) :: s.calls) (hr : reply s.calls.length ≠ .failed)
    (ht : tally bytes e reply (s.calls.length + 1) = c') (hle : c' ≤ e) (hm : Moved c' s') : Running reply bytes e nbyte Moved c' s' where
  le := hle
  moved := hm
  sum := by rw [hcalls, List.length_cons, ht]
  good j hj := by
    rw [hcalls, List.length_cons] at hj
    rcases Nat.lt_succ_iff_lt_or_eq.mp hj with hj | rfl
    · exact hs.good j hj
    · exact ⟨by rw [hs.sum]; omega, hr⟩
  inBuffer := hs.asked hp hcalls

/-- No call works outside of the buffer, however long the loop goes on. -/
theorem Running.bounded (hp : Pieces reply bytes e stop call nbyte offset Moved) (fuel : ℕ) (hs : Running reply bytes e nbyte Moved c s) :
    InBuffer nbyte (transferLoop stop call nbyte offset fuel c s).2 := by
  induction fuel generalizing c s with
  | zero => exact hs.inBuffer
  | succ fuel ih =>
    obtain ⟨s', hcalls, hround⟩ := hp.round hs.le hs.moved hs.sum
    cases hround with
    | lost hr hrun =>
      rw [hrun]
      exact hs.asked hp hcalls
    | ends h1 h2 h3 h4 h5 hrun =>
      rw [hrun]
      exact hs.asked hp hcalls
    | goes c' hr hgo ht hle hm hrun =>
      rw [hrun]
      exact ih (hs.next hp hcalls hr ht hle hm)

/-- If the loop returns `e`, the replies have come to it. -/
theorem Running.completes (hp : Pieces reply bytes e stop call nbyte offset Moved) (fuel : ℕ)
    (hs : Running reply bytes e nbyte Moved c s) {s' : Disk} (h : transferLoop stop call nbyte offset fuel c s = (some ↑e, s')) :
    Completes bytes e nbyte reply := by
  induction fuel generalizing c s with
  | zero => cases h
  | succ fuel ih =>
    obtain ⟨s₁, hcalls, hround⟩ := hp.round hs.le hs.moved hs.sum
    cases hround with
    | lost hr hrun =>
      have he : (-1 : ℤ) = e := Option.some.inj (congrArg Prod.fst ((hrun fuel).symm.trans h))
      omega
    | ends h1 h2 h3 h4 h5 hrun =>
      refine ⟨s.calls.length, fun j hj => ?_, h2, h3, fun hlt => by rw [hs.sum, h4 hlt]⟩
      rcases Nat.lt_or_eq_of_le hj with hj | rfl
      · exact hs.good j hj
      · exact ⟨by rw [hs.sum]; omega, h1⟩
    | goes c' hr hgo ht hle hm hrun => exact ih (hs.next hp hcalls hr ht hle hm) ((hrun fuel).symm.trans h)

/-- If the replies come to `e`, the loop returns it. -/
theorem Running.finishes (hp : Pieces reply bytes e stop call nbyte offset Moved) {m : ℕ}
    (hgood : ∀ j ≤ m, 0 ≤ tally bytes e reply j ∧ reply j ≠ .failed) (hm : reply m ≠ .interrupted)
    (htally : tally bytes e reply (m + 1) = e) (hend : e < nbyte.toNat → tally bytes e reply m = e) (k : ℕ)
    (hs : Running reply bytes e nbyte Moved c s) (hk : s.calls.length + k = m) :
    ∃ s', (∃ r, ∀ fuel, r ≤ fuel → transferLoop stop call nbyte offset fuel c s = (some ↑e, s')) ∧ Moved e s' := by
  induction k generalizing c s with
  | zero =>
    obtain ⟨s', hcalls, hround⟩ := hp.round hs.le hs.moved hs.sum
    rw [Nat.add_zero] at hk
    rw [hk] at hround
    cases hround with
    | lost hr hrun =>
      rcases hr with hr | hr
      · exact absurd hr (hgood m (Nat.le_refl m)).2
      · omega
    | ends h1 h2 h3 h4 h5 hrun =>
      refine ⟨s', ⟨1, fun fuel hfuel => ?_⟩, h5⟩
      obtain ⟨fuel, rfl⟩ := Nat.exists_eq_add_of_le' hfuel
      exact hrun fuel
    | goes c' hr hgo ht hle hm' hrun =>
      obtain ⟨hlt, hne⟩ := hgo hm
      have hsum := hs.sum
      rw [hk, hend (by omega)] at hsum
      omega
  | succ k ih =>
    obtain ⟨s', hcalls, hround⟩ := hp.round hs.le hs.moved hs.sum
    cases hround with
    | lost hr hrun =>
      have hnext := hgood (s.calls.length + 1) (by omega)
      rcases hr with hr | hr
      · exact absurd hr (hgood s.calls.length (by omega)).2
      · omega
    | ends h1 h2 h3 h4 h5 hrun =>
      refine ⟨s', ⟨1, fun fuel hfuel => ?_⟩, h5⟩
      obtain ⟨fuel, rfl⟩ := Nat.exists_eq_add_of_le' hfuel
      exact hrun fuel
    | goes c' hr hgo ht hle hm' hrun =>
      obtain ⟨s'', ⟨r, hr'⟩, hmoved⟩ := ih (hs.next hp hcalls hr ht hle hm') (by rw [hcalls, List.length_cons]; omega)
      refine ⟨s'', ⟨r + 1, fun fuel hfuel => ?_⟩, hmoved⟩
      obtain ⟨fuel, rfl⟩ := Nat.exists_eq_add_of_le' (Nat.le_of_add_left_le hfuel)
      rw [hrun, hr' fuel (by omega)]

/-- A loop from the start. -/
theorem Pieces.start (hp : Pieces reply bytes e stop call nbyte offset Moved) (hs : s.calls = []) (hm : Moved 0 s) :
    (∀ fuel s', transferLoop stop call nbyte offset fuel 0 s = (some ↑e, s') → Completes bytes e nbyte reply) ∧
    (Completes bytes e nbyte reply →
      ∃ s', (∃ r, ∀ fuel, r ≤ fuel → transferLoop stop call nbyte offset fuel 0 s = (some ↑e, s')) ∧ Moved e s') ∧
    ∀ fuel, InBuffer nbyte (transferLoop stop call nbyte offset fuel 0 s).2 := by
  have hrun : Running reply bytes e nbyte Moved 0 s := by
    refine ⟨Nat.zero_le e, hm, ?_, fun j hj => ?_, fun x hx => ?_⟩
    · rw [hs]
      rfl
    · rw [hs] at hj
      exact absurd hj (Nat.not_lt_zero j)
    · rw [hs] at hx
      cases hx
  refine ⟨fun fuel s' h => hrun.completes hp fuel h, ?_, fun fuel => hrun.bounded hp fuel⟩
  rintro ⟨m, hgood, hm, htally, hend⟩
  exact hrun.finishes hp hgood hm htally hend m (by rw [hs, List.length_nil, Nat.zero_add])

end Loop

/-! ### Reading and writing -/

variable {reply : ℕ → Reply} {nbyte : UInt64} {offset : ℕ} {s₀ : Disk}

/-- The first `c` of `e` bytes have been read. -/
structure BytesRead (offset e : ℕ) (s₀ : Disk) (c : ℕ) (s : Disk) : Prop where
  file : s.file = s₀.file
  size : s.size = s₀.size
  read : ∀ i : ℕ, i < c → s.memory i = s₀.file (offset + i)
  others : ∀ i : ℤ, i < 0 ∨ e ≤ i → s.memory i = s₀.memory i

theorem pread_pieces (reply : ℕ → Reply) (nbyte : UInt64) (offset : ℕ) (s₀ : Disk) :
    Pieces reply (max 1) (min nbyte.toNat (s₀.size - offset)) true (pread reply) nbyte offset
      (BytesRead offset (min nbyte.toNat (s₀.size - offset)) s₀) where
  le := Nat.min_le_left ..
  interrupted h := by
    unfold pread
    rw [h]
  failed h := by
    unfold pread
    rw [h]
  counted {c k s} hc hr hm := by
    have hn : min (max 1 k) (min (nbyte.toNat - c) (s.size - ((offset + c : ℕ) : ℤ).toNat)) =
        min (max 1 k) (min nbyte.toNat (s₀.size - offset) - c) := by
      rw [hm.size, Int.toNat_natCast]
      omega
    unfold pread
    rw [hr]
    dsimp only
    rw [hn]
    generalize hmin : min (max 1 k) (min nbyte.toNat (s₀.size - offset) - c) = n
    refine ⟨_, rfl, rfl, hm.file, hm.size, fun i hi => ?_, fun i hi => ?_⟩
    · dsimp only
      split
      · rename_i h
        rw [hm.file, show ((offset + c : ℕ) : ℤ) + ((i : ℤ) - c) = (offset + i : ℕ) by omega, Int.toNat_natCast]
      · exact hm.read i (by omega)
    · dsimp only
      rw [if_neg (by omega)]
      exact hm.others i hi
  kept x l hc hm := ⟨hm.file, hm.size, fun i hi => hm.read i (Nat.lt_of_lt_of_le hi hc), hm.others⟩
  stops := fun k => Nat.le_max_left 1 k

/-- The first `c` of `e` bytes have been written. -/
structure BytesWritten (offset e : ℕ) (s₀ : Disk) (c : ℕ) (s : Disk) : Prop where
  memory : s.memory = s₀.memory
  written : ∀ i : ℕ, i < c → s.file (offset + i) = s₀.memory i
  others : ∀ j : ℕ, j < offset ∨ offset + e ≤ j → s.file j = s₀.file j

theorem pwrite_pieces (reply : ℕ → Reply) (nbyte : UInt64) (offset : ℕ) (s₀ : Disk) :
    Pieces reply id nbyte.toNat false (pwrite reply) nbyte offset (BytesWritten offset nbyte.toNat s₀) where
  le := Nat.le_refl _
  interrupted h := by
    unfold pwrite
    rw [h]
  failed h := by
    unfold pwrite
    rw [h]
  counted {c k s} hc hr hm := by
    unfold pwrite
    rw [hr]
    dsimp only [id]
    generalize hmin : min k (nbyte.toNat - c) = n
    refine ⟨_, rfl, rfl, hm.memory, fun i hi => ?_, fun j hj => ?_⟩
    · dsimp only
      split
      · rw [hm.memory, show (c : ℤ) + (((offset + i : ℕ) : ℤ) - (offset + c : ℕ)) = i by omega]
      · exact hm.written i (by omega)
    · dsimp only
      rw [if_neg (by omega)]
      exact hm.others j hj
  kept x l hc hm := ⟨hm.memory, fun i hi => hm.written i (Nat.lt_of_lt_of_le hi hc), hm.others⟩
  stops := rfl

/-- Both transfers do what they should if and only if the replies come to all bytes; no call ever works
outside of the buffer. -/
theorem transfers_iff (reply : ℕ → Reply) (nbyte : UInt64) (offset : ℕ) (s : Disk) :
    (ReadsAll reply nbyte offset (min nbyte.toNat (s.size - offset)) s ↔
      Completes (max 1) (min nbyte.toNat (s.size - offset)) nbyte reply) ∧
    (WritesAll reply nbyte offset s ↔ Completes id nbyte.toNat nbyte reply) ∧
    ∀ fuel, InBuffer nbyte (ioPread reply fuel nbyte offset s).2 ∧ InBuffer nbyte (ioPwrite reply fuel nbyte offset s).2 := by
  obtain ⟨hread, hread', hreadIn⟩ := (pread_pieces reply nbyte offset s).start (s := { s with errno := .none, calls := [] }) rfl
    ⟨rfl, rfl, fun i hi => absurd hi (Nat.not_lt_zero i), fun i _ => rfl⟩
  obtain ⟨hwrite, hwrite', hwriteIn⟩ := (pwrite_pieces reply nbyte offset s).start (s := { s with errno := .none, calls := [] }) rfl
    ⟨rfl, fun i hi => absurd hi (Nat.not_lt_zero i), fun i _ => rfl⟩
  simp only [← preadLoop_eq] at hread hread' hreadIn
  simp only [← pwriteLoop_eq] at hwrite hwrite' hwriteIn
  refine ⟨⟨?_, fun h => ?_⟩, ⟨?_, fun h => ?_⟩, fun fuel => ⟨hreadIn fuel, hwriteIn fuel⟩⟩
  · rintro ⟨s', ⟨m, hrun⟩, -⟩
    exact hread m s' (hrun m (Nat.le_refl m))
  · obtain ⟨s', hrun, hm⟩ := hread' h
    exact ⟨s', hrun, hm.read, hm.others, hm.file⟩
  · rintro ⟨s', ⟨m, hrun⟩, -⟩
    exact hwrite m s' (hrun m (Nat.le_refl m))
  · obtain ⟨s', hrun, hm⟩ := hwrite' h
    exact ⟨s', hrun, hm.written, hm.others, hm.memory⟩

/-! ### An interruption at the start -/

/-- The first call is interrupted, and each of the others transfers all it is asked for. -/
def onceInterrupted (j : ℕ) : Reply := if j = 0 then .interrupted else .count 4096

/-- A file of four bytes, and a buffer. -/
def fourBytes : Disk := ⟨fun _ => 0, fun i => i + 1, 4, .none, []⟩

/-- A read of four bytes returns -1 when its first call is interrupted. -/
theorem interrupted_lost : (ioPread onceInterrupted 2 4 0 fourBytes).1 = some (-1) ∧
    ¬ReadsAll onceInterrupted 4 0 4 fourBytes := by
  have hrun : ∀ fuel, (ioPread onceInterrupted (fuel + 1) 4 0 fourBytes).1 = some (-1) := fun fuel => rfl
  refine ⟨hrun 1, ?_⟩
  rintro ⟨s', ⟨m, hm⟩, -⟩
  have hlost := (congrArg Prod.fst (hm (m + 1) (Nat.le_succ m))).symm.trans (hrun m)
  exact absurd (Option.some.inj hlost) (by decide)

end Dio

end RedB
