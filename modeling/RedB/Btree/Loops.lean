import RedB.Btree.Access

/-!
# The loops over the element vector

The members of a node move elements and child-offsets within a vector or from one
vector to another, one at a time. `forUp_spec` and `forDown_spec` are the rules for
such loops: a family `V` of views, `V k` being what the node says after `k` rounds,
that every round carries one step further. The theorems after them give the vector
that each loop of the source leaves behind.

Elements move with their key, and in a leaf with their row location; a child-offset is
moved by itself.
-/

namespace RedB

/-! ### The loop rules -/

/-- The rule for loops that count up. -/
theorem forUp_spec (body : ℤ → M Unit) {o : ℤ} (V : ℕ → View) (n a : ℕ) {s : Tree} (h0 : s.view o = some (V 0))
    (step : ∀ k < n, ∀ s1, Wrote s o (V k) s1 →
      ∃ s2, body ((a + k : ℕ) : ℤ) s1 = .ok () s2 ∧ Wrote s1 o (V (k + 1)) s2) :
    ∃ s', forUp body (a : ℤ) n s = .ok () s' ∧ Wrote s o (V n) s' := by
  induction n generalizing V a s with
  | zero => exact ⟨s, rfl, Wrote.refl h0⟩
  | succ n ih =>
    obtain ⟨s1, h1, w1⟩ := step 0 (Nat.succ_pos n) s (Wrote.refl h0)
    obtain ⟨s2, h2, w2⟩ := ih (fun k => V (k + 1)) (a + 1) w1.view fun k hk s2 w2 => by
      obtain ⟨s3, h3, w3⟩ := step (k + 1) (by omega) s2 (w1.trans w2)
      exact ⟨s3, by rwa [show a + 1 + k = a + (k + 1) by omega], w3⟩
    refine ⟨s2, ?_, w1.trans w2⟩
    rw [Nat.add_zero] at h1
    rw [forUp, run_bind h1]
    exact h2

/-- The rule for loops that count down. -/
theorem forDown_spec (body : ℤ → M Unit) {o : ℤ} (V : ℕ → View) (n a : ℕ) {s : Tree}
    (h0 : s.view o = some (V 0))
    (step : ∀ k < n, ∀ s1, Wrote s o (V k) s1 →
      ∃ s2, body ((a + (n - 1 - k) : ℕ) : ℤ) s1 = .ok () s2 ∧ Wrote s1 o (V (k + 1)) s2) :
    ∃ s', forDown body ((a + n : ℕ) - 1 : ℤ) n s = .ok () s' ∧ Wrote s o (V n) s' := by
  induction n generalizing V s with
  | zero => exact ⟨s, rfl, Wrote.refl h0⟩
  | succ n ih =>
    obtain ⟨s1, h1, w1⟩ := step 0 (Nat.succ_pos n) s (Wrote.refl h0)
    obtain ⟨s2, h2, w2⟩ := ih (fun k => V (k + 1)) w1.view fun k hk s2 w2 => by
      obtain ⟨s3, h3, w3⟩ := step (k + 1) (by omega) s2 (w1.trans w2)
      exact ⟨s3, by rwa [show n - 1 - k = n + 1 - 1 - (k + 1) by omega], w3⟩
    have hb : ((a + (n + 1) : ℕ) : ℤ) - 1 = ((a + (n + 1 - 1 - 0) : ℕ) : ℤ) := by omega
    have hr : ((a + (n + 1) : ℕ) : ℤ) - 1 - 1 = ((a + n : ℕ) : ℤ) - 1 := by omega
    refine ⟨s2, ?_, w1.trans w2⟩
    rw [forDown, hr, hb, run_bind h1]
    exact h2

/-! ### Changing a stretch of a vector -/

/-- A vector after its slots from `lo` on and below `hi` have been changed. -/
def slotsBetween (lo hi : ℕ) (g f : ℕ → Slot) (j : ℕ) : Slot := if lo ≤ j ∧ j < hi then g j else f j

theorem slotsBetween_empty (lo : ℕ) (g f : ℕ → Slot) (j : ℕ) : slotsBetween lo lo g f j = f j :=
  if_neg (by omega)

theorem slotsBetween_of_mem {lo hi j : ℕ} (h1 : lo ≤ j) (h2 : j < hi) (g f : ℕ → Slot) :
    slotsBetween lo hi g f j = g j := if_pos ⟨h1, h2⟩

theorem slotsBetween_of_lt {lo hi j : ℕ} (h : j < lo) (g f : ℕ → Slot) : slotsBetween lo hi g f j = f j :=
  if_neg (by omega)

theorem slotsBetween_of_ge {lo hi j : ℕ} (h : hi ≤ j) (g f : ℕ → Slot) : slotsBetween lo hi g f j = f j :=
  if_neg (by omega)

/-- One more slot is changed at the upper end. -/
theorem slotsBetween_succ {lo hi : ℕ} (h : lo ≤ hi) (g f : ℕ → Slot) (j : ℕ) :
    slotsBetween lo (hi + 1) g f j = Function.update (slotsBetween lo hi g f) hi (g hi) j := by
  rw [Function.update_apply]
  split
  · rename_i hj
    rw [hj, slotsBetween_of_mem h (Nat.lt_succ_self _)]
  · rw [slotsBetween, slotsBetween]
    congr 1
    rw [eq_iff_iff]
    omega

/-- One more slot is changed at the lower end. -/
theorem slotsBetween_pred {lo hi : ℕ} (h : lo < hi) (g f : ℕ → Slot) (j : ℕ) :
    slotsBetween lo hi g f j = Function.update (slotsBetween (lo + 1) hi g f) lo (g lo) j := by
  rw [Function.update_apply]
  split
  · rename_i hj
    rw [hj, slotsBetween_of_mem (Nat.le_refl _) h]
  · rw [slotsBetween, slotsBetween]
    congr 1
    rw [eq_iff_iff]
    omega

/-- A loop that counts up and changes one slot after the other, from `lo` on. -/
theorem forUp_slots (body : ℤ → M Unit) {o : ℤ} {v : View} (g : ℕ → Slot) (lo a n : ℕ) {s : Tree}
    (h : s.view o = some v)
    (step : ∀ k < n, ∀ s1, Wrote s o (v.vec (slotsBetween lo (lo + k) g v.slots)) s1 →
      ∃ s2, body ((a + k : ℕ) : ℤ) s1 = .ok () s2 ∧
        Wrote s1 o (v.vec (Function.update (slotsBetween lo (lo + k) g v.slots) (lo + k) (g (lo + k)))) s2) :
    ∃ s', forUp body (a : ℤ) n s = .ok () s' ∧ Wrote s o (v.vec (slotsBetween lo (lo + n) g v.slots)) s' := by
  refine forUp_spec body (fun k => v.vec (slotsBetween lo (lo + k) g v.slots)) n a ?_ fun k hk s1 w1 => ?_
  · rw [h]
    exact congrArg some (v.vec_eq_self (slotsBetween_empty _ _ _)).symm
  · obtain ⟨s2, h2, w2⟩ := step k hk s1 w1
    refine ⟨s2, h2, ?_⟩
    rwa [← v.vec_congr (slotsBetween_succ (Nat.le_add_right lo k) g v.slots)] at w2

/-- A loop that counts down and changes one slot after the other, down to `lo`. -/
theorem forDown_slots (body : ℤ → M Unit) {o : ℤ} {v : View} (g : ℕ → Slot) (lo a n : ℕ) {s : Tree}
    (h : s.view o = some v)
    (step : ∀ i < n, ∀ s1, Wrote s o (v.vec (slotsBetween (lo + i + 1) (lo + n) g v.slots)) s1 →
      ∃ s2, body ((a + i : ℕ) : ℤ) s1 = .ok () s2 ∧
        Wrote s1 o (v.vec (Function.update (slotsBetween (lo + i + 1) (lo + n) g v.slots) (lo + i) (g (lo + i)))) s2) :
    ∃ s', forDown body ((a + n : ℕ) - 1 : ℤ) n s = .ok () s' ∧
      Wrote s o (v.vec (slotsBetween lo (lo + n) g v.slots)) s' := by
  have hV : s.view o = some (v.vec (slotsBetween (lo + (n - 0)) (lo + n) g v.slots)) := by
    rw [h]
    exact congrArg some (v.vec_eq_self (slotsBetween_empty _ _ _)).symm
  obtain ⟨s', h', w'⟩ := forDown_spec body (fun k => v.vec (slotsBetween (lo + (n - k)) (lo + n) g v.slots)) n a hV
    fun k hk s1 w1 => by
      have hi : lo + (n - k) = lo + (n - 1 - k) + 1 := by omega
      rw [hi] at w1
      obtain ⟨s2, h2, w2⟩ := step (n - 1 - k) (by omega) s1 w1
      refine ⟨s2, h2, ?_⟩
      rw [← v.vec_congr (slotsBetween_pred (by omega) g v.slots)] at w2
      rwa [show n - (k + 1) = n - 1 - k by omega]
  rw [Nat.sub_self, Nat.add_zero] at w'
  exact ⟨s', h', w'⟩

/-! ### Moving elements and child-offsets -/

/-- A slot that has received the element of another slot of the same kind of node. -/
def Slot.move (dst : Slot) (leaf : Bool) (src : Slot) : Slot := ⟨if leaf then src.ref else dst.ref, src.key⟩

/-- An element that is read from a slot and put in a slot of the same kind of node. -/
theorem Slot.put_element {dst src : Slot} {k : ℕ} (h : src.key.length = k) (leaf : Bool) (name : String) :
    dst.put leaf k (src.element leaf name k) = dst.move leaf src := by
  cases leaf
  · simp [Slot.put, Slot.element, Slot.move, readKey_of_length h, writeKey_of_length h]
  · simp [Slot.put, Slot.element, Slot.move, readKey_of_length h, writeKey_of_length h]

/-- An inner node takes only the key of an element. -/
theorem Slot.put_inner {dst src : Slot} {k : ℕ} (h : src.key.length = k) (leaf : Bool) (name : String) :
    dst.put false k (src.element leaf name k) = ⟨dst.ref, src.key⟩ := by
  simp [Slot.put, Slot.element, readKey_of_length h, writeKey_of_length h]

theorem Slot.length_element_key (slot : Slot) (leaf : Bool) (name : String) (k : ℕ) :
    (slot.element leaf name k).key.length = k := by
  simp [Slot.element, readKey]

section Moving

variable {s : Tree} {ndx : Index} {o p : ℤ} {v w : View}

/-- One element is moved from `p` to `o`, which may be one node. -/
theorem move_element (hp : Open s ndx p w) (ho : Open s ndx o v) (hleaf : w.isLeaf = v.isLeaf) {i j : ℕ}
    (hi : i < ndx.order) (hj : j < ndx.order) (hk : (w.slots i).key.length = ndx.keySize) :
    ∃ s', (do putElement o j (← getElement p i) : M Unit) s = .ok () s' ∧
      Wrote s o (v.vec (Function.update v.slots j ((v.slots j).move v.isLeaf (w.slots i)))) s' := by
  obtain ⟨s1, h1, w1⟩ := putElement_spec ho hj _ (Slot.length_element_key (w.slots i) w.isLeaf w.ndxName _).le
  rw [← hleaf, Slot.put_element hk, hleaf] at w1
  exact ⟨s1, (run_bind (getElement_eq hp hi)).trans h1, w1⟩

/-- One child-offset is moved from `p` to `o`, which may be one node. -/
theorem move_child (hp : Open s ndx p w) (ho : Open s ndx o v) {i j : ℕ} (hi : i ≤ ndx.order)
    (hj : j ≤ ndx.order) :
    ∃ s', (do putChildOffset o j (← getChildOffset p i) : M Unit) s = .ok () s' ∧
      Wrote s o (v.vec (Function.update v.slots j { v.slots j with ref := (w.slots i).ref })) s' := by
  obtain ⟨s1, h1, w1⟩ := putChildOffset_spec ho hj (w.slots i).ref
  exact ⟨s1, (run_bind (getChildOffset_eq hp hi)).trans h1, w1⟩

/-- `for (i = a + n - 1; i >= a; --i) put_element(i + 1, get_element(i));` -/
theorem shiftElementsUp (h : Open s ndx o v) (a n : ℕ) (hn : a + n < ndx.order)
    (hk : ∀ i, a ≤ i → i < a + n → (v.slots i).key.length = ndx.keySize) :
    ∃ s', forDown (fun i => do putElement o (i + 1) (← getElement o i)) ((a + n : ℕ) - 1 : ℤ) n s = .ok () s' ∧
      Wrote s o (v.vec (slotsBetween (a + 1) (a + 1 + n)
        (fun j => (v.slots j).move v.isLeaf (v.slots (j - 1))) v.slots)) s' := by
  refine forDown_slots _ _ (a + 1) a n h.view fun i hi s1 w1 => ?_
  have h1 := w1.open_self h rfl
  have hs : ∀ g, slotsBetween (a + 1 + i + 1) (a + 1 + n) g v.slots (a + i) = v.slots (a + i) :=
    fun g => slotsBetween_of_lt (by omega) _ _
  have hd : ∀ g, slotsBetween (a + 1 + i + 1) (a + 1 + n) g v.slots (a + 1 + i) = v.slots (a + 1 + i) :=
    fun g => slotsBetween_of_lt (by omega) _ _
  have := move_element h1 h1 rfl (show a + i < ndx.order by omega) (show a + 1 + i < ndx.order by omega) (by
    rw [View.vec_slots, hs]
    exact hk _ (by omega) (by omega))
  rw [View.vec_slots, View.vec_vec, hs, hd] at this
  have e1 : ((a + i : ℕ) : ℤ) + 1 = ((a + 1 + i : ℕ) : ℤ) := by omega
  have e2 : a + 1 + i - 1 = a + i := by omega
  simp only [e1, e2]
  exact this

/-- `for (i = a + n - 1; i >= a; --i) put_child_offset(i + 1, get_child_offset(i));` -/
theorem shiftChildrenUp (h : Open s ndx o v) (a n : ℕ) (hn : a + n ≤ ndx.order) :
    ∃ s', forDown (fun i => do putChildOffset o (i + 1) (← getChildOffset o i)) ((a + n : ℕ) - 1 : ℤ) n s =
        .ok () s' ∧
      Wrote s o (v.vec (slotsBetween (a + 1) (a + 1 + n)
        (fun j => { v.slots j with ref := (v.slots (j - 1)).ref }) v.slots)) s' := by
  refine forDown_slots _ _ (a + 1) a n h.view fun i hi s1 w1 => ?_
  have h1 := w1.open_self h rfl
  have hs : ∀ g, slotsBetween (a + 1 + i + 1) (a + 1 + n) g v.slots (a + i) = v.slots (a + i) :=
    fun g => slotsBetween_of_lt (by omega) _ _
  have hd : ∀ g, slotsBetween (a + 1 + i + 1) (a + 1 + n) g v.slots (a + 1 + i) = v.slots (a + 1 + i) :=
    fun g => slotsBetween_of_lt (by omega) _ _
  have := move_child h1 h1 (show a + i ≤ ndx.order by omega) (show a + 1 + i ≤ ndx.order by omega)
  rw [View.vec_slots, View.vec_vec, hs, hd] at this
  have e1 : ((a + i : ℕ) : ℤ) + 1 = ((a + 1 + i : ℕ) : ℤ) := by omega
  have e2 : a + 1 + i - 1 = a + i := by omega
  simp only [e1, e2]
  exact this

/-- `for (i = a + 1; i < a + 1 + n; ++i) put_element(i - 1, get_element(i));` -/
theorem shiftElementsDown (h : Open s ndx o v) (a n : ℕ) (hn : n = 0 ∨ a + n < ndx.order)
    (hk : ∀ i, a < i → i ≤ a + n → (v.slots i).key.length = ndx.keySize) :
    ∃ s', forUp (fun i => do putElement o (i - 1) (← getElement o i)) ((a + 1 : ℕ) : ℤ) n s = .ok () s' ∧
      Wrote s o (v.vec (slotsBetween a (a + n)
        (fun j => (v.slots j).move v.isLeaf (v.slots (j + 1))) v.slots)) s' := by
  refine forUp_slots _ _ a (a + 1) n h.view fun i hi s1 w1 => ?_
  have h1 := w1.open_self h rfl
  have hs : ∀ g, slotsBetween a (a + i) g v.slots (a + 1 + i) = v.slots (a + 1 + i) :=
    fun g => slotsBetween_of_ge (by omega) _ _
  have hd : ∀ g, slotsBetween a (a + i) g v.slots (a + i) = v.slots (a + i) :=
    fun g => slotsBetween_of_ge (by omega) _ _
  have := move_element h1 h1 rfl (show a + 1 + i < ndx.order by omega) (show a + i < ndx.order by omega) (by
    rw [View.vec_slots, hs]
    exact hk _ (by omega) (by omega))
  rw [View.vec_slots, View.vec_vec, hs, hd] at this
  have e1 : ((a + 1 + i : ℕ) : ℤ) - 1 = ((a + i : ℕ) : ℤ) := by omega
  have e2 : a + i + 1 = a + 1 + i := by omega
  simp only [e1, e2]
  exact this

/-- `for (i = a + 1; i < a + 1 + n; ++i) put_child_offset(i - 1, get_child_offset(i));` -/
theorem shiftChildrenDown (h : Open s ndx o v) (a n : ℕ) (hn : n = 0 ∨ a + n ≤ ndx.order) :
    ∃ s', forUp (fun i => do putChildOffset o (i - 1) (← getChildOffset o i)) ((a + 1 : ℕ) : ℤ) n s = .ok () s' ∧
      Wrote s o (v.vec (slotsBetween a (a + n)
        (fun j => { v.slots j with ref := (v.slots (j + 1)).ref }) v.slots)) s' := by
  refine forUp_slots _ _ a (a + 1) n h.view fun i hi s1 w1 => ?_
  have h1 := w1.open_self h rfl
  have hs : ∀ g, slotsBetween a (a + i) g v.slots (a + 1 + i) = v.slots (a + 1 + i) :=
    fun g => slotsBetween_of_ge (by omega) _ _
  have hd : ∀ g, slotsBetween a (a + i) g v.slots (a + i) = v.slots (a + i) :=
    fun g => slotsBetween_of_ge (by omega) _ _
  have := move_child h1 h1 (show a + 1 + i ≤ ndx.order by omega) (show a + i ≤ ndx.order by omega)
  rw [View.vec_slots, View.vec_vec, hs, hd] at this
  have e1 : ((a + 1 + i : ℕ) : ℤ) - 1 = ((a + i : ℕ) : ℤ) := by omega
  have e2 : a + i + 1 = a + 1 + i := by omega
  simp only [e1, e2]
  exact this

/-- `for (i = 0; i < n; ++i) put_element(d + i, src->get_element(e + i));` -/
theorem copyElements (hp : Open s ndx p w) (ho : Open s ndx o v) (hne : p ≠ o) (hleaf : w.isLeaf = v.isLeaf)
    (d e n : ℕ) (hd : n = 0 ∨ d + n ≤ ndx.order) (he : n = 0 ∨ e + n ≤ ndx.order)
    (hk : ∀ i, e ≤ i → i < e + n → (w.slots i).key.length = ndx.keySize) :
    ∃ s', forUp (fun i => do putElement o (d + i) (← getElement p (e + i))) 0 n s = .ok () s' ∧
      Wrote s o (v.vec (slotsBetween d (d + n)
        (fun j => (v.slots j).move v.isLeaf (w.slots (e + (j - d)))) v.slots)) s' := by
  refine forUp_slots _ _ d 0 n ho.view fun i hi s1 w1 => ?_
  have h1 := w1.open_self ho rfl
  have h2 := w1.open_ne hp hne
  have hs : ∀ g, slotsBetween d (d + i) g v.slots (d + i) = v.slots (d + i) :=
    fun g => slotsBetween_of_ge (by omega) _ _
  have := move_element h2 h1 hleaf (show e + i < ndx.order by omega) (show d + i < ndx.order by omega)
    (hk _ (by omega) (by omega))
  rw [View.vec_slots, View.vec_vec, hs] at this
  have e1 : (d : ℤ) + ((0 + i : ℕ) : ℤ) = ((d + i : ℕ) : ℤ) := by omega
  have e2 : (e : ℤ) + ((0 + i : ℕ) : ℤ) = ((e + i : ℕ) : ℤ) := by omega
  have e3 : e + (d + i - d) = e + i := by omega
  simp only [e1, e2, e3]
  exact this

/-- `for (i = 0; i < n; ++i) put_child_offset(d + i, src->get_child_offset(e + i));` -/
theorem copyChildren (hp : Open s ndx p w) (ho : Open s ndx o v) (hne : p ≠ o) (d e n : ℕ)
    (hd : n = 0 ∨ d + n ≤ ndx.order + 1) (he : n = 0 ∨ e + n ≤ ndx.order + 1) :
    ∃ s', forUp (fun i => do putChildOffset o (d + i) (← getChildOffset p (e + i))) 0 n s = .ok () s' ∧
      Wrote s o (v.vec (slotsBetween d (d + n)
        (fun j => { v.slots j with ref := (w.slots (e + (j - d))).ref }) v.slots)) s' := by
  refine forUp_slots _ _ d 0 n ho.view fun i hi s1 w1 => ?_
  have h1 := w1.open_self ho rfl
  have h2 := w1.open_ne hp hne
  have hs : ∀ g, slotsBetween d (d + i) g v.slots (d + i) = v.slots (d + i) :=
    fun g => slotsBetween_of_ge (by omega) _ _
  have := move_child h2 h1 (show e + i ≤ ndx.order by omega) (show d + i ≤ ndx.order by omega)
  rw [View.vec_slots, View.vec_vec, hs] at this
  have e1 : (d : ℤ) + ((0 + i : ℕ) : ℤ) = ((d + i : ℕ) : ℤ) := by omega
  have e2 : (e : ℤ) + ((0 + i : ℕ) : ℤ) = ((e + i : ℕ) : ℤ) := by omega
  have e3 : e + (d + i - d) = e + i := by omega
  simp only [e1, e2, e3]
  exact this

end Moving

end RedB
