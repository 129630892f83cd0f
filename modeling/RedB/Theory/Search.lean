import Mathlib.Data.List.Basic
import Mathlib.Data.Nat.Notation
import Mathlib.Order.Defs.LinearOrder
import Mathlib.Order.Lattice

/-!
# Searching a sorted list of keys

Two searches: the scan from the right for the last key that is not above `x`
(`pos`, the number of keys it leaves on its left), and the binary search for a key
(`find`). Both are characterised by what is left and right of the position they
return.
-/

namespace BPlus

variable {κ α : Type} [LinearOrder κ]

/-! ### The scan from the right -/

/-- The position behind the last key that is not above `x`; zero if there is none. -/
def pos (x : κ) : List κ → ℕ
  | [] => 0
  | k :: ks => if pos x ks = 0 ∧ x < k then 0 else pos x ks + 1

theorem pos_le (x : κ) (ks : List κ) : pos x ks ≤ ks.length := by
  induction ks with
  | nil => exact Nat.le_refl _
  | cons k ks ih =>
    rw [pos, List.length_cons]
    split <;> omega

/-- Behind the position all keys are above `x`. -/
theorem lt_of_pos_le (x : κ) {ks : List κ} {i : ℕ} {k : κ} (h : pos x ks ≤ i) (hk : ks[i]? = some k) :
    x < k := by
  induction ks generalizing i with
  | nil => simp at hk
  | cons k' ks ih =>
    rw [pos] at h
    split at h
    · rename_i hz
      cases i with
      | zero =>
        obtain rfl : k' = k := by simpa using hk
        exact hz.2
      | succ i =>
        have hi : pos x ks ≤ i := by omega
        exact ih hi (by simpa using hk)
    · cases i with
      | zero => omega
      | succ i =>
        have hi : pos x ks ≤ i := by omega
        exact ih hi (by simpa using hk)

/-- The key before the position is not above `x`. -/
theorem le_of_pos_eq (x : κ) {ks : List κ} {n : ℕ} {k : κ} (h : pos x ks = n + 1) (hk : ks[n]? = some k) :
    k ≤ x := by
  induction ks generalizing n with
  | nil => simp at hk
  | cons k' ks ih =>
    rw [pos] at h
    split at h
    · omega
    · rename_i hz
      cases n with
      | zero =>
        obtain rfl : k' = k := by simpa using hk
        exact not_lt.mp fun hlt => hz ⟨by omega, hlt⟩
      | succ n =>
        have hn : pos x ks = n + 1 := by omega
        exact ih hn (by simpa using hk)

/-- The two properties determine the position. -/
theorem pos_eq {x : κ} {ks : List κ} {n : ℕ} (hn : n ≤ ks.length)
    (hr : ∀ i k, n ≤ i → ks[i]? = some k → x < k) (hl : ∀ m k, n = m + 1 → ks[m]? = some k → k ≤ x) :
    pos x ks = n := by
  rcases Nat.lt_trichotomy (pos x ks) n with h | h | h
  · obtain ⟨m, rfl⟩ : ∃ m, n = m + 1 := ⟨n - 1, by omega⟩
    have hk : ks[m]? = some ks[m] := List.getElem?_eq_getElem (by omega)
    exact absurd (lt_of_pos_le x (by omega) hk) (not_lt.mpr (hl m _ rfl hk))
  · exact h
  · obtain ⟨m, hm⟩ : ∃ m, pos x ks = m + 1 := ⟨pos x ks - 1, by omega⟩
    have hp := pos_le x ks
    have hk : ks[m]? = some ks[m] := List.getElem?_eq_getElem (by omega)
    exact absurd (le_of_pos_eq x hm hk) (not_le.mpr (hr m _ (by omega) hk))

/-- In a sorted list all keys before the position are at most `x`. -/
theorem take_pos_le {x : κ} {ks : List κ} (hs : ks.Pairwise (· ≤ ·)) {k : κ} (hk : k ∈ ks.take (pos x ks)) :
    k ≤ x := by
  obtain ⟨i, hi, rfl⟩ := List.mem_take_iff_getElem.mp hk
  obtain ⟨m, hm⟩ : ∃ m, pos x ks = m + 1 := ⟨pos x ks - 1, by omega⟩
  have hml : m < ks.length := by
    have := pos_le x ks
    omega
  have hlast := le_of_pos_eq x hm (List.getElem?_eq_getElem hml)
  rcases Nat.lt_or_ge i m with h | h
  · exact (List.pairwise_iff_getElem.mp hs i m _ _ h).trans hlast
  · obtain rfl : i = m := by omega
    exact hlast

/-- All keys behind the position are above `x`. -/
theorem lt_drop_pos {x : κ} {ks : List κ} {k : κ} (hk : k ∈ ks.drop (pos x ks)) : x < k := by
  obtain ⟨i, hi, rfl⟩ := List.mem_drop_iff_getElem.mp hk
  exact lt_of_pos_le x (Nat.le_add_right _ i) (List.getElem?_eq_getElem (by omega))

/-- Put an element behind the elements whose keys are not above its own. -/
def insertAt (x : κ × α) (es : List (κ × α)) : List (κ × α) :=
  es.take (pos x.1 (es.map Prod.fst)) ++ x :: es.drop (pos x.1 (es.map Prod.fst))

@[simp] theorem length_insertAt (x : κ × α) (es : List (κ × α)) :
    (insertAt x es).length = es.length + 1 := by
  have := pos_le x.1 (es.map Prod.fst)
  rw [List.length_map] at this
  simp [insertAt]
  omega

theorem insertAt_perm (x : κ × α) (es : List (κ × α)) : (insertAt x es).Perm (x :: es) := by
  refine List.perm_middle.trans ?_
  rw [List.take_append_drop]

/-- Where `insertAt` puts the element. -/
theorem insertAt_eq (x : κ × α) {es : List (κ × α)} (hs : (es.map Prod.fst).Pairwise (· ≤ ·)) :
    ∃ A B, es = A ++ B ∧ insertAt x es = A ++ x :: B ∧ (∀ a ∈ A, a.1 ≤ x.1) ∧ ∀ b ∈ B, x.1 < b.1 := by
  refine ⟨_, _, (List.take_append_drop (pos x.1 (es.map Prod.fst)) es).symm, rfl, fun a ha => ?_, fun b hb => ?_⟩
  · refine take_pos_le hs ?_
    rw [← List.map_take]
    exact List.mem_map_of_mem ha
  · have : b.1 ∈ (es.map Prod.fst).drop (pos x.1 (es.map Prod.fst)) := by
      rw [← List.map_drop]
      exact List.mem_map_of_mem hb
    exact lt_drop_pos this

/-! ### Binary search -/

/-- The binary search of `find` between `lo` and `hi`. -/
def bsearch (ks : List κ) (key : κ) : ℕ → ℕ → ℕ → ℕ
  | 0, _, hi => hi
  | fuel + 1, lo, hi =>
    if lo < hi then
      match ks[(lo + (hi - 1)) / 2]? with
      | none => hi
      | some k =>
        if key < k then bsearch ks key fuel lo ((lo + (hi - 1)) / 2)
        else if k < key then bsearch ks key fuel ((lo + (hi - 1)) / 2 + 1) hi
        else (lo + (hi - 1)) / 2
    else hi

/-- A position of `key`, or the position of the first key above it. -/
def find (ks : List κ) (key : κ) : ℕ := bsearch ks key (ks.length + 1) 0 ks.length

/-- `n` is a position of `key`, or `key` is absent and `n` separates the keys below it
from the keys above it. -/
def Found (ks : List κ) (key : κ) (n : ℕ) : Prop :=
  ks[n]? = some key ∨
    n ≤ ks.length ∧ (∀ i k, i < n → ks[i]? = some k → k < key) ∧ ∀ i k, n ≤ i → ks[i]? = some k → key < k

theorem bsearch_found {ks : List κ} (hs : ks.Pairwise (· ≤ ·)) (key : κ) (fuel lo hi : ℕ)
    (hf : hi < lo + fuel) (hlo : lo ≤ hi) (hhi : hi ≤ ks.length)
    (hl : ∀ i k, i < lo → ks[i]? = some k → k < key) (hr : ∀ i k, hi ≤ i → ks[i]? = some k → key < k) :
    Found ks key (bsearch ks key fuel lo hi) := by
  have hmono : ∀ {i j : ℕ} {a b : κ}, i ≤ j → ks[i]? = some a → ks[j]? = some b → a ≤ b := by
    intro i j a b hij ha hb
    obtain ⟨hi, rfl⟩ := List.getElem?_eq_some_iff.mp ha
    obtain ⟨hj, rfl⟩ := List.getElem?_eq_some_iff.mp hb
    rcases Nat.lt_or_eq_of_le hij with h | rfl
    · exact List.pairwise_iff_getElem.mp hs i j hi hj h
    · exact le_rfl
  induction fuel generalizing lo hi with
  | zero => omega
  | succ fuel ih =>
    rw [bsearch]
    split
    · have hk : ks[(lo + (hi - 1)) / 2]? = some ks[(lo + (hi - 1)) / 2] := List.getElem?_eq_getElem (by omega)
      simp only [hk]
      generalize ks[(lo + (hi - 1)) / 2] = k at hk
      split
      · rename_i h
        exact ih _ _ (by omega) (by omega) (by omega) hl fun i k' hi' hk' => h.trans_le (hmono hi' hk hk')
      · split
        · rename_i h
          refine ih _ _ (by omega) (by omega) hhi (fun i k' hi' hk' => ?_) hr
          exact (hmono (by omega) hk' hk).trans_lt h
        · rename_i h h'
          exact .inl (hk.trans (congrArg some (le_antisymm (not_lt.mp h) (not_lt.mp h'))))
    · obtain rfl : lo = hi := by omega
      exact .inr ⟨hhi, hl, hr⟩

theorem find_found {ks : List κ} (hs : ks.Pairwise (· ≤ ·)) (key : κ) : Found ks key (find ks key) := by
  refine bsearch_found hs key _ _ _ (by omega) (by omega) (Nat.le_refl _) (by simp) fun i k hi hk => ?_
  rw [List.getElem?_eq_none hi] at hk
  simp at hk

theorem Found.le {ks : List κ} {key : κ} {n : ℕ} (h : Found ks key n) : n ≤ ks.length := by
  rcases h with h | h
  · exact Nat.le_of_lt (List.getElem?_eq_some_iff.mp h).1
  · exact h.1

/-- A key that is not at the position found is not in the list. -/
theorem Found.notMem {ks : List κ} {key : κ} {n : ℕ} (h : Found ks key n) (hn : ks[n]? ≠ some key) :
    key ∉ ks := by
  rcases h with h | ⟨-, hl, hr⟩
  · exact absurd h hn
  · intro hk
    obtain ⟨i, hi⟩ := List.mem_iff_getElem?.mp hk
    rcases Nat.lt_or_ge i n with h | h
    · exact lt_irrefl _ (hl i _ h hi)
    · exact lt_irrefl _ (hr i _ h hi)

end BPlus
