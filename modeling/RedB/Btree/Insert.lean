import RedB.Btree.SplitRep

/-!
# Insertion keeps the picture

`node::insert_non_full` and `tree::insert(element)` on a state that holds a tree: what
they do to the state is what `insertNF` and `insertTree` do to the picture. The descent
is followed by induction on the height of the tree below the node at hand, the rest of
the tree being the same nodes before and after (`insertNonFull_rep`).
-/

namespace RedB

open BPlus BPlus.BTree Links

/-! ### Where the element goes -/

section Descent

variable {s : Tree} {name : String} {ndx : Index} {o : ℤ} {v : View} {d : BlockDesc}

/-- The keys that a node counts are read back. -/
theorem getElement_key (h : Open s ndx o v) (hr : v.Reads name d) (hs : ∀ x ∈ descKeys d, x.length = ndx.keySize)
    {i : ℕ} (hi : i < ndx.order) {k : Key} (hk : (descKeys d)[i]? = some k) :
    ∃ e, getElement o i s = .ok e s ∧ e = (v.slots i).element v.isLeaf v.ndxName ndx.keySize ∧ e.key = k := by
  refine ⟨_, getElement_eq h hi, rfl, ?_⟩
  have hlt : i < (descKeys d).length := (List.getElem?_eq_some_iff.mp hk).1
  have hkey : (v.slots i).key = k := by
    cases d with
    | leaf l es =>
      simp only [descKeys, List.getElem?_map, Option.map_eq_some_iff] at hk
      obtain ⟨e, he, rfl⟩ := hk
      rw [hr.2.2.2 i e he]
    | inner l g ks cs => exact hr.2.2.2.1 i k hk
  rw [Slot.element, readKey_of_length (reads_size hr hs hlt), hkey]

/-- `scanDown` stops before the position of the element. -/
theorem scanDown_eq (h : Open s ndx o v) (hr : v.Reads name d) (hs : ∀ x ∈ descKeys d, x.length = ndx.keySize)
    (hle : (descKeys d).length ≤ ndx.order) (e : Element) :
    scanDown o e (descKeys d).length s = .ok ((pos e.key (descKeys d) : ℤ) - 1) s := by
  suffices H : ∀ n, n ≤ (descKeys d).length → (∀ i k, n ≤ i → (descKeys d)[i]? = some k → e.key < k) →
      scanDown o e n s = .ok ((pos e.key (descKeys d) : ℤ) - 1) s from
    H _ (Nat.le_refl _) fun i k hi hk => by
      rw [List.getElem?_eq_none hi] at hk
      simp at hk
  intro n
  induction n with
  | zero =>
    intro _ habove
    rw [pos_eq (Nat.zero_le _) habove (by omega)]
    rfl
  | succ n ih =>
    intro hn habove
    have hk : (descKeys d)[n]? = some (descKeys d)[n] := List.getElem?_eq_getElem (by omega)
    generalize (descKeys d)[n] = k at hk
    obtain ⟨e', he', -, hek⟩ := getElement_key h hr hs (by omega) hk
    rw [scanDown, run_bind he', hek]
    by_cases hlt : e.key < k
    · rw [if_pos hlt]
      refine ih (by omega) fun i k' hi hk' => ?_
      rcases Nat.eq_or_lt_of_le hi with rfl | hi
      · exact Option.some_inj.mp (hk.symm.trans hk') ▸ hlt
      · exact habove i k' hi hk'
    · rw [if_neg hlt, pos_eq hn habove fun m k' hm hk' => ?_]
      · simp only [run_pure, Nat.cast_add, Nat.cast_one, add_sub_cancel_right]
      · obtain rfl : n = m := by omega
        exact Option.some_inj.mp (hk.symm.trans hk') ▸ not_lt.mp hlt

/-- `makeRoom` moves the elements above the new one up by one slot. -/
theorem makeRoom_spec {l : ℤ} {es : List (Key × ℤ)} (h : Open s ndx o v) (hr : v.Reads name (.leaf l es))
    (hs : ∀ x ∈ es.map Prod.fst, x.length = ndx.keySize) (hle : es.length < ndx.order) (e : Element) :
    ∃ s', makeRoom o e es.length s = .ok ((pos e.key (es.map Prod.fst) : ℤ) - 1) s' ∧
      Wrote s o (v.vec (slotsBetween (pos e.key (es.map Prod.fst) + 1) (es.length + 1)
        (fun j => v.slots (j - 1)) v.slots)) s' := by
  suffices H : ∀ n, n ≤ es.length → (∀ i k, n ≤ i → (es.map Prod.fst)[i]? = some k → e.key < k) →
      ∀ s1, Wrote s o (v.vec (slotsBetween (n + 1) (es.length + 1) (fun j => v.slots (j - 1)) v.slots)) s1 →
      ∃ s', makeRoom o e n s1 = .ok ((pos e.key (es.map Prod.fst) : ℤ) - 1) s' ∧
        Wrote s o (v.vec (slotsBetween (pos e.key (es.map Prod.fst) + 1) (es.length + 1)
          (fun j => v.slots (j - 1)) v.slots)) s' by
    refine H _ (Nat.le_refl _) (fun i k hi hk => ?_) s (Wrote.refl ?_)
    · rw [List.getElem?_eq_none (by simpa using hi)] at hk
      simp at hk
    · rw [h.view]
      exact congrArg some (v.vec_eq_self (slotsBetween_empty _ _ _)).symm
  intro n
  induction n with
  | zero =>
    intro _ habove s1 w1
    rw [pos_eq (Nat.zero_le _) habove (by omega)]
    exact ⟨s1, rfl, w1⟩
  | succ n ih =>
    intro hn habove s1 w1
    obtain ⟨k, hk⟩ : ∃ k, (es.map Prod.fst)[n]? = some k :=
      ⟨_, List.getElem?_eq_getElem (by rw [List.length_map]; omega)⟩
    have h1 := w1.open_self h rfl
    have hslot : ∀ g, slotsBetween (n + 1 + 1) (es.length + 1) g v.slots n = v.slots n := fun g =>
      slotsBetween_of_lt (by omega) _ _
    have hslot' : ∀ g, slotsBetween (n + 1 + 1) (es.length + 1) g v.slots (n + 1) = v.slots (n + 1) := fun g =>
      slotsBetween_of_lt (by omega) _ _
    have hkey : (v.slots n).key = k ∧ (v.slots n).key.length = ndx.keySize := by
      simp only [List.getElem?_map, Option.map_eq_some_iff] at hk
      obtain ⟨x, hx, rfl⟩ := hk
      rw [hr.2.2.2 n x hx]
      exact ⟨rfl, hs _ (List.mem_map_of_mem (List.mem_of_getElem? hx))⟩
    have hget := getElement_eq h1 (show n < ndx.order by omega)
    have hek : ((v.slots n).element v.isLeaf v.ndxName ndx.keySize).key = k := by
      rw [Slot.element, readKey_of_length hkey.2, hkey.1]
    rw [View.vec_slots, hslot] at hget
    rw [makeRoom, run_bind hget]
    simp only [View.vec_isLeaf, View.vec_ndxName, hek]
    by_cases hlt : e.key < k
    · rw [if_pos hlt]
      obtain ⟨s2, h2, w2⟩ := move_element h1 h1 rfl (show n < ndx.order by omega) (show n + 1 < ndx.order by omega)
        (by rw [View.vec_slots, hslot]; exact hkey.2)
      rw [View.vec_slots, hslot, hslot', View.vec_isLeaf, hr.1, View.vec_vec] at w2
      rw [Nat.cast_succ] at h2
      rw [← bind_assoc, run_bind h2]
      refine ih (by omega) (fun i k' hi hk' => ?_) s2 ?_
      · rcases Nat.eq_or_lt_of_le hi with rfl | hi
        · exact Option.some_inj.mp (hk.symm.trans hk') ▸ hlt
        · exact habove i k' hi hk'
      · have := v.vec_congr (slotsBetween_pred (show n + 1 < es.length + 1 by omega) (fun j => v.slots (j - 1)) v.slots)
        rw [this]
        exact w1.trans w2
    · rw [if_neg hlt, pos_eq (by simpa using hn) habove fun m k' hm hk' => ?_]
      · refine ⟨s1, ?_, w1⟩
        simp only [run_pure, Nat.cast_add, Nat.cast_one, add_sub_cancel_right]
      · obtain rfl : n = m := by omega
        exact Option.some_inj.mp (hk.symm.trans hk') ▸ not_lt.mp hlt

end Descent

/-! ### Insertion below a node that is not full -/

/-- What an element is in the picture: its key and its combined row location. -/
def Element.entry (e : Element) : Key × ℤ := (e.key, e.blockOffset + e.rowPosition)

@[simp] theorem Element.entry_fst (e : Element) : e.entry.1 = e.key := rfl

section Insertion

variable {s : Tree} {name : String} {ndx : Index} {t : ℕ} {back : ℕ → Prop} {W fs : List ℤ} {lim : ℤ}

/-- Inserting into a leaf. -/
theorem insertLeaf_spec {v : View} {l : ℤ} {es : List (Key × ℤ)} (h : Open s ndx l v)
    (hr : v.Reads name (.leaf l es)) (hs : ∀ x ∈ es.map Prod.fst, x.length = ndx.keySize)
    (hle : es.length < ndx.order) (e : Element) (hek : e.key.length = ndx.keySize) (fuel : ℕ) :
    ∃ s' w, insertNonFull (fuel + 1) l e s = .ok () s' ∧ Wrote s l w s' ∧
      w.Reads name (.leaf l (insertAt e.entry es)) ∧ w.next = v.next ∧ w.prev = v.prev ∧
      ∀ i, (w.slots i).key = e.key ∨ ∃ j, (w.slots i).key = (v.slots j).key := by
  obtain ⟨nd, hnd, -, hndleaf, hnum, -⟩ := nodeAt_eq h.view
  have hleaf : nd.isLeaf = true := hndleaf.trans hr.1
  have hpos := pos_le e.key (es.map Prod.fst)
  rw [List.length_map] at hpos
  have hcount : nd.numKey.toNat = es.length := by
    rw [hnum, hr.2.2.1]
    rfl
  obtain ⟨s1, h1, w1⟩ := makeRoom_spec h hr hs hle e
  generalize hp : pos e.key (es.map Prod.fst) = p at *
  obtain ⟨s2, h2, w2⟩ := putElement_spec (w1.open_self h rfl) (i := p) (by omega) e hek.le
  obtain ⟨s3, h3, w3⟩ := incNumKey_spec w2.view 1
  refine ⟨s3, _, ?_, (w1.trans w2).trans w3, ⟨hr.1, hr.2.1, ?_, fun i x hx => ?_⟩, rfl, rfl, fun i => ?_⟩
  · rw [insertNonFull, run_bind hnd, if_pos hleaf, hcount, run_bind h1, show (p : ℤ) - 1 + 1 = p by omega, run_bind h2]
    exact h3
  · simp [hr.2.2.1, length_insertAt]
  · rw [insertAt, show pos e.entry.1 (es.map Prod.fst) = p from hp, getElem?_put hpos] at hx
    simp only [View.vec_slots, View.vec_isLeaf]
    by_cases hi : i < p
    · rw [if_pos hi] at hx
      rw [Function.update_of_ne (by omega), slotsBetween_of_lt (by omega)]
      exact hr.2.2.2 i x hx
    · rw [if_neg hi] at hx
      by_cases hi' : i = p
      · rw [if_pos hi'] at hx
        obtain rfl := Option.some_inj.mp hx
        rw [hi', Function.update_self, hr.1, Slot.put, writeKey_of_length hek]
        rfl
      · rw [if_neg hi'] at hx
        have hlt := (List.getElem?_eq_some_iff.mp hx).1
        rw [Function.update_of_ne hi', slotsBetween_of_mem (by omega) (by omega)]
        exact hr.2.2.2 _ x hx
  · simp only [View.vec_slots]
    by_cases hi : i = p
    · rw [hi, Function.update_self, Slot.put, writeKey_of_length hek]
      exact .inl rfl
    · rw [Function.update_of_ne hi, slotsBetween]
      split
      · exact .inr ⟨_, rfl⟩
      · exact .inr ⟨_, rfl⟩

theorem insertLeaf_rep {L R : List BlockDesc} {l : ℤ} {es : List (Key × ℤ)}
    (hx : s.schema.getIndex name = some ndx) (hfit : ndx.Fits)
    (hrep : Rep s name ndx.keySize back (L ++ Desc.leaf l es :: R)) (hle : es.length < ndx.order) (e : Element)
    (hek : e.key.length = ndx.keySize) (hpool : Pool s fs lim)
    (hout : Outside ((L ++ Desc.leaf l es :: R).map Desc.label ++ W) fs lim) (fuel : ℕ) :
    ∃ s', insertNonFull (fuel + 1) l e s = .ok () s' ∧
      Rep s' name ndx.keySize back (L ++ Desc.leaf l (insertAt e.entry es) :: R) ∧
      Grown W s (L ++ Desc.leaf l es :: R) s' (L ++ Desc.leaf l (insertAt e.entry es) :: R) fs lim := by
  have hl := hrep.holds (.leaf l es) (by simp)
  obtain ⟨v, hv, hr⟩ := hl.open hx hfit
  obtain ⟨s', w, h1, hw, hwr, hn, hp, hwk⟩ := insertLeaf_spec hv hr hl.size hle e hek fuel
  have hlab : (L ++ Desc.leaf l (insertAt e.entry es) :: R).map Desc.label =
      (L ++ Desc.leaf l es :: R).map Desc.label := by simp
  have hmem : l ∈ (L ++ Desc.leaf l es :: R).map Desc.label := by simp
  refine ⟨s', h1, hrep.write hv.view hw rfl rfl hwr (fun x hx => ?_) hn hp, ?_⟩
  · obtain ⟨y, hy, rfl⟩ := List.mem_map.mp hx
    rcases List.mem_cons.mp ((insertAt_perm e.entry es).mem_iff.mp hy) with rfl | hy
    · exact hek
    · exact hl.size _ (List.mem_map_of_mem hy)
  · constructor
    · rw [hlab]
      exact hw.frame.mono fun o ho => by
        obtain rfl : o = l := by simpa using ho
        exact hmem
    · intro o ho
      rwa [hlab]
    · intro o ho
      rw [hlab] at ho
      exact .inl ho
    · exact hpool.wrote hw (hout.notMem l (List.mem_append_left _ hmem))
    · rw [hlab]
      exact hout
    · intro S hS d hd x hx
      rw [List.mem_append, List.mem_cons] at hd
      rcases hd with hd | rfl | hd
      · exact hS d (by simp [hd]) x hx
      · refine hS (.leaf l (insertAt e.entry es)) (by simp) x ?_
        exact ((insertAt_perm e.entry es).map Prod.fst).mem_iff.mpr (List.mem_cons_of_mem _ hx)
      · exact hS d (by simp [hd]) x hx
    · intro S hS ht o ho u hu i
      rw [hlab] at ho
      by_cases hol : o = l
      · subst hol
        obtain rfl := Option.some_inj.mp (hw.view.symm.trans hu)
        have hSe : S true e.key := hS (.leaf o (insertAt e.entry es)) (by simp) e.key
          (((insertAt_perm e.entry es).map Prod.fst).mem_iff.mpr (List.mem_cons_self ..))
        rw [hwr.1]
        rcases hwk i with hk | ⟨j, hk⟩
        · exact .inr (hk ▸ hSe)
        · rw [hk, ← hr.1]
          exact ht o ho v hv.view j
      · rw [hw.view_ne hol] at hu
        exact ht o ho u hu i

theorem Grown.refl {ds : List BlockDesc} (hpool : Pool s fs lim) (hout : Outside (ds.map Desc.label ++ W) fs lim) :
    Grown W s ds s ds fs lim :=
  ⟨Frame.refl _ s, fun _ h => h, fun _ h => .inl h, hpool, hout, fun _ h => h, fun _ _ h => h⟩

/-- The tail of the stream is the stream after one block has been handed out. -/
theorem stream_tail (fs : List ℤ) (lim : ℤ) :
    (fun i => stream fs lim (i + 1)) = stream (restFree fs) (restLim fs lim) :=
  funext fun i => stream_succ fs lim i

/-- A child of an inner node. -/
theorem childAt_rep {h n : ℕ} {l : ℤ} {ks : List Key} {cs : List (BlockTree h)} {c : BlockTree h} {L R : List BlockDesc}
    (hx : s.schema.getIndex name = some ndx) (hfit : ndx.Fits)
    (hrep : Rep s name ndx.keySize back (L ++ @descs ℤ Key ℤ (h + 1) ⟨l, ks, cs⟩ ++ R)) (hn : n ≤ ndx.order)
    (hc : cs[n]? = some c) : childAt l n s = .ok c.label s := by
  obtain ⟨P, hP, hPr⟩ := (hrep.holds (.inner l (h + 1) ks (cs.map label)) (by simp)).open hx hfit
  have hcd : rootDesc c ∈ L ++ @descs ℤ Key ℤ (h + 1) ⟨l, ks, cs⟩ ++ R := by
    have : rootDesc c ∈ cs.flatMap descs :=
      List.mem_flatMap.mpr ⟨c, List.mem_of_getElem? hc, by rw [descs_eq]; exact List.mem_cons_self ..⟩
    simp [this]
  have hcH := hrep.holds _ hcd
  obtain ⟨w, hw, -⟩ := hcH.reads
  rw [label_rootDesc] at hw
  have hca : Aligned c.label := by simpa using hcH.aligned
  exact childAt_eq hP hn (hPr.2.2.2.2 n _ (by simp [hc])) hca hw

/-- One step of the descent: the child to go on with is found, and split if it is full. -/
theorem insertNonFull_step {r lo h : ℕ} {T : BlockTree (h + 1)} {L R : List BlockDesc} (hreg : ndx.Regular t)
    (hlo : lo ≤ t - 1) (e : Element) (hx : s.schema.getIndex name = some ndx) (hshape : Shape r lo (2 * t - 1) T)
    (hroom : T.count < 2 * t - 1) (hrep : Rep s name ndx.keySize back (L ++ descs T ++ R)) (hpool : Pool s fs lim)
    (hout : Outside ((L ++ descs T ++ R).map Desc.label ++ W) fs lim) :
    ∃ s1 fs1 lim1 c, Ready t e.key r lo (toks T) (prep t e.key T (stream fs lim)).1
        (prep t e.key T (stream fs lim)).2.1 c ∧
      (∀ fuel, insertNonFull (fuel + 1) T.label e s = insertNonFull fuel c.label e s1) ∧
      (prep t e.key T (stream fs lim)).2.2 = stream fs1 lim1 ∧
      Rep s1 name ndx.keySize back (L ++ descs (prep t e.key T (stream fs lim)).1 ++ R) ∧
      Grown W s (L ++ descs T ++ R) s1 (L ++ descs (prep t e.key T (stream fs lim)).1 ++ R) fs1 lim1 := by
  have ht2 := hreg.two_le
  have hord := hreg.order
  obtain ⟨c', hready⟩ := prep_ready hreg.two_le hlo e.key (stream fs lim) hshape hroom
  obtain ⟨l, ks, cs⟩ := T
  have hshape' := shape_inner.mp hshape
  rw [count_inner] at hroom
  have hpos := pos_le e.key ks
  obtain ⟨c, hc⟩ : ∃ c, cs[pos e.key ks]? = some c := ⟨_, List.getElem?_eq_getElem (by omega)⟩
  have hcs := hshape'.2.2 c (List.mem_of_getElem? hc)
  -- the code up to the test whether the child is full
  have hpd : Desc.inner l (h + 1) ks (cs.map label) ∈ L ++ @descs ℤ Key ℤ (h + 1) ⟨l, ks, cs⟩ ++ R := by simp
  have hcd : rootDesc c ∈ L ++ @descs ℤ Key ℤ (h + 1) ⟨l, ks, cs⟩ ++ R := by
    have : rootDesc c ∈ cs.flatMap descs :=
      List.mem_flatMap.mpr ⟨c, List.mem_of_getElem? hc, by rw [descs_eq]; exact List.mem_cons_self ..⟩
    simp [this]
  obtain ⟨P, hP, hPr⟩ := (hrep.holds _ hpd).open hx hreg.fits
  obtain ⟨C, hC, hCr⟩ := (hrep.holds _ hcd).open hx hreg.fits
  rw [Desc.label_inner] at hP
  rw [label_rootDesc] at hC
  obtain ⟨nd, hnd, -, hndleaf, hnum, -⟩ := nodeAt_eq hP.view
  have hleaf : ¬nd.isLeaf = true := by
    rw [hndleaf, hPr.1]
    simp
  have hcount : nd.numKey.toNat = ks.length := by
    rw [hnum, hPr.2.2.1]
    rfl
  have hscan : scanDown l e ks.length s = .ok ((pos e.key ks : ℤ) - 1) s :=
    scanDown_eq hP hPr (hrep.holds _ hpd).size (by simp only [descKeys]; omega) e
  have hchild := childAt_rep hx hreg.fits hrep (by omega) hc
  have hfull := isFull_eq hC
  rw [reads_numKey hCr, length_descKeys_rootDesc] at hfull
  have hcode : ∀ fuel, insertNonFull (fuel + 1) l e s =
      (if decide ((c.count : ℤ) ≥ (ndx.order : ℤ) - 1) = true then (do
        splitChild l (pos e.key ks) c.label
        let x ← getElement l (pos e.key ks)
        let y ← childAt l ((if x.key < e.key then (pos e.key ks : ℤ) - 1 + 1 else (pos e.key ks : ℤ) - 1) + 1)
        insertNonFull fuel y e)
      else (do
        let y ← childAt l (pos e.key ks)
        insertNonFull fuel y e)) s := by
    intro fuel
    rw [insertNonFull, run_bind hnd, if_neg hleaf, hcount, run_bind hscan, show (pos e.key ks : ℤ) - 1 + 1 = pos e.key ks by omega,
      run_bind hchild, run_bind hfull]
    simp only [pure_bind, sub_add_cancel]
  by_cases hfl : c.count < 2 * t - 1
  · have hprep : prep t e.key (⟨l, ks, cs⟩ : BlockTree (h + 1)) (stream fs lim) = (⟨l, ks, cs⟩, pos e.key ks, stream fs lim) := by
      unfold prep
      simp only [hc, if_pos hfl]
    rw [hprep] at hready ⊢
    obtain rfl : c = c' := Option.some_inj.mp (hc.symm.trans hready.child)
    refine ⟨s, fs, lim, c, hready, fun fuel => ?_, rfl, hrep, Grown.refl hpool hout⟩
    rw [label_inner, hcode, if_neg (by simp; omega), run_bind hchild]
  · have hfc : c.count = 2 * t - 1 := by
      have := hcs.count_le
      omega
    obtain ⟨k, hk⟩ := exists_splitKey (by omega) hfc
    have hprep : prep t e.key (⟨l, ks, cs⟩ : BlockTree (h + 1)) (stream fs lim) =
        (splitAt t (pos e.key ks) l ks cs c k (stream fs lim 0),
          pos e.key ks + (if k < e.key then 1 else 0), fun i => stream fs lim (i + 1)) := by
      unfold prep
      simp only [hc, if_neg hfl, hk]
      congr
    rw [hprep] at hready ⊢
    obtain ⟨s1, hsp, hrep1, hg1⟩ := splitChild_rep hx hreg hrep hshape'.2.1 hroom hc hcs hfc hk hpool hout
    have hx1 : s1.schema.getIndex name = some ndx := (hg1.frame.getIndex name).trans hx
    have hpd1 : Desc.inner l (h + 1) (ks.take (pos e.key ks) ++ k :: ks.drop (pos e.key ks))
        ((cs.take (pos e.key ks) ++ c.left t :: c.right t (stream fs lim 0) :: cs.drop (pos e.key ks + 1)).map label) ∈
        L ++ descs (splitAt t (pos e.key ks) l ks cs c k (stream fs lim 0)) ++ R := by
      simp [splitAt]
    obtain ⟨P1, hP1, hPr1⟩ := (hrep1.holds _ hpd1).open hx1 hreg.fits
    rw [Desc.label_inner] at hP1
    obtain ⟨x, hgx, -, hxk⟩ := getElement_key hP1 hPr1 (hrep1.holds _ hpd1).size (i := pos e.key ks) (by omega)
      (k := k) (by simp [descKeys, getElem?_put hpos])
    have hchild1 := childAt_rep (n := pos e.key ks + (if k < e.key then 1 else 0)) hx1 hreg.fits hrep1
      (by split <;> omega) hready.child
    refine ⟨s1, restFree fs, restLim fs lim, c', hready, fun fuel => ?_, stream_tail fs lim, hrep1, hg1⟩
    rw [label_inner, hcode, if_pos (by simp; omega), run_bind hsp, run_bind hgx, hxk]
    have hidx : (if k < e.key then (pos e.key ks : ℤ) - 1 + 1 else (pos e.key ks : ℤ) - 1) + 1 =
        ((pos e.key ks + (if k < e.key then 1 else 0) : ℕ) : ℤ) := by
      split <;> simp
    rw [hidx, run_bind hchild1]

/-- Inserting below a node that is not full does to the state what `insertNF` does to the
picture. -/
theorem insertNonFull_rep {lo : ℕ} (hreg : ndx.Regular t) (hlo : lo ≤ t - 1) (e : Element)
    (hek : e.key.length = ndx.keySize) :
    {r h : ℕ} → {T : BlockTree h} → {s : Tree} → {fs : List ℤ} → {lim : ℤ} → {L R : List BlockDesc} → {fuel : ℕ} →
    s.schema.getIndex name = some ndx → Shape r lo (2 * t - 1) T → T.count < 2 * t - 1 → h < fuel →
    Rep s name ndx.keySize back (L ++ descs T ++ R) → Pool s fs lim →
    Outside ((L ++ descs T ++ R).map Desc.label ++ W) fs lim →
    ∃ s' fs' lim', insertNonFull fuel T.label e s = .ok () s' ∧
      (insertNF t e.entry T (stream fs lim)).2 = stream fs' lim' ∧
      Rep s' name ndx.keySize back (L ++ descs (insertNF t e.entry T (stream fs lim)).1 ++ R) ∧
      Grown W s (L ++ descs T ++ R) s' (L ++ descs (insertNF t e.entry T (stream fs lim)).1 ++ R) fs' lim'
  | r, 0, ⟨l, es⟩, s, fs, lim, L, R, fuel + 1, hx, _, hroom, _, hrep, hpool, hout => by
    have hord := hreg.order
    rw [count_leaf] at hroom
    simp only [descs_leaf, List.append_assoc, List.singleton_append] at hrep hout
    obtain ⟨s', h1, h2, h3⟩ := insertLeaf_rep hx hreg.fits hrep (by omega) e hek hpool hout fuel
    refine ⟨s', fs, lim, h1, rfl, ?_, ?_⟩
    · simpa only [insertNF, descs_leaf, List.append_assoc, List.singleton_append] using h2
    · simpa only [insertNF, descs_leaf, List.append_assoc, List.singleton_append] using h3
  | r, h + 1, T, s, fs, lim, L, R, fuel + 1, hx, hshape, hroom, hfuel, hrep, hpool, hout => by
    obtain ⟨s1, fs1, lim1, c, hready, hcode, hq, hrep1, hg1⟩ :=
      insertNonFull_step hreg hlo e hx hshape hroom hrep hpool hout
    have hx1 : s1.schema.getIndex name = some ndx := (hg1.frame.getIndex name).trans hx
    simp only [hcode, insertNF, Element.entry_fst, hq]
    generalize (prep t e.key T (stream fs lim)).2.1 = n at *
    generalize (prep t e.key T (stream fs lim)).1 = T1 at *
    obtain ⟨l, ks, cs⟩ := T1
    have hchild : cs[n]? = some c := hready.child
    obtain ⟨A, B, hAB⟩ := descs_hole l ks hchild
    have hds : @descs ℤ Key ℤ (h + 1) ⟨l, ks, cs⟩ = A ++ descs c ++ B := by
      rw [← hAB c rfl, set_self hchild]
    have e1 : L ++ @descs ℤ Key ℤ (h + 1) ⟨l, ks, cs⟩ ++ R = (L ++ A) ++ descs c ++ (B ++ R) := by
      simp only [hds, List.append_assoc]
    rw [e1] at hrep1 hg1
    have hshapec := (shape_inner.mp hready.shape).2.2 c (List.mem_of_getElem? hchild)
    obtain ⟨s2, fs2, lim2, hrun, hq2, hrep2, hg2⟩ := @insertNonFull_rep _ hreg hlo e hek _ _ _ _ _ _ _ _ fuel hx1 hshapec
      hready.notFull (by omega) hrep1 hg1.pool hg1.out
    have e2 : ∀ q, L ++ descs (onChild n (fun c => insertNF t e.entry c (stream fs1 lim1)) (⟨l, ks, cs⟩, q)).1 ++ R =
        (L ++ A) ++ descs (insertNF t e.entry c (stream fs1 lim1)).1 ++ (B ++ R) := by
      intro q
      simp only [onChild, hchild]
      rw [hAB _ (label_insertNF t e.entry c _)]
      simp only [List.append_assoc]
    refine ⟨s2, fs2, lim2, hrun, ?_, ?_, ?_⟩
    · simp only [onChild, hchild]
      exact hq2
    · rw [e2]
      exact hrep2
    · rw [e2]
      exact hg1.trans hg2

end Insertion

/-! ### The index as a whole -/

/-- Nothing has changed but at the offsets `os`, and in the schema nothing but the free
list, the end of the file and the root of the index `name`, which is `r`. -/
structure RootFrame (os : List ℤ) (name : String) (r : ℤ) (s s' : Tree) : Prop where
  /-- The schema. -/
  schema : ∃ n fh ft, s'.schema =
    { s.schema with
      header := { s.schema.header with nextOffset := n, freeHead := fh, freeTail := ft }
      index := setRootOf name r s.schema.index }
  /-- The node objects. -/
  node : ∀ o, o ∉ os → s'.node o = s.node o
  /-- The cached blocks. -/
  cache : ∀ o, o ∉ os → s'.cache o = s.cache o
  /-- The file. -/
  disk : ∀ o, o ∉ os → s'.disk o = s.disk o
  /-- The data objects. -/
  data : s'.data = s.data

theorem RootFrame.getIndex {os : List ℤ} {name : String} {r : ℤ} {s s' : Tree} {ndx : Index}
    (h : RootFrame os name r s s') (hx : s.schema.getIndex name = some ndx) :
    s'.schema.getIndex name = some { ndx with root := r } := by
  obtain ⟨n, fh, ft, e⟩ := h.schema
  rw [e]
  exact find_setRootOf hx

/-- The root of the index is set after everything else. -/
theorem Frame.setRoot {os : List ℤ} {name : String} {s s1 : Tree} {ndx : Index} (h : Frame os s s1)
    (hx : s.schema.getIndex name = some ndx) (r : ℤ) : ∃ s', setRoot name r s1 = .ok () s' ∧
      RootFrame os name r s s' ∧ s'.view = s1.view ∧ s'.cache = s1.cache ∧ s'.disk = s1.disk ∧
      s'.schema.header = s1.schema.header := by
  have hx1 := (h.getIndex name).trans hx
  obtain ⟨n, fh, ft, e⟩ := h.schema
  refine ⟨_, (run_bind (getIndex_eq hx1)).trans rfl, ⟨⟨n, fh, ft, ?_⟩, h.node, h.cache, h.disk, h.data⟩, rfl, rfl, rfl, rfl⟩
  simp only [e]

/-- The root of the index stays what it was. -/
theorem Frame.rootFrame {os : List ℤ} {name : String} {s s1 : Tree} {ndx : Index} (h : Frame os s s1)
    (hx : s.schema.getIndex name = some ndx) : RootFrame os name ndx.root s s1 where
  schema := by
    obtain ⟨n, fh, ft, e⟩ := h.schema
    exact ⟨n, fh, ft, by rw [setRootOf_self hx, e]⟩
  node := h.node
  cache := h.cache
  disk := h.disk
  data := h.data

theorem RootFrame.trans_frame {os os' : List ℤ} {name : String} {r : ℤ} {s s1 s2 : Tree}
    (h : RootFrame os name r s s1) (h' : Frame os' s1 s2) : RootFrame (os ++ os') name r s s2 where
  schema := by
    obtain ⟨n, fh, ft, e⟩ := h.schema
    obtain ⟨n', fh', ft', e'⟩ := h'.schema
    exact ⟨n', fh', ft', by rw [e', e]⟩
  node o ho := by
    rw [List.mem_append, not_or] at ho
    rw [h'.node o ho.2, h.node o ho.1]
  cache o ho := by
    rw [List.mem_append, not_or] at ho
    rw [h'.cache o ho.2, h.cache o ho.1]
  disk o ho := by
    rw [List.mem_append, not_or] at ho
    rw [h'.disk o ho.2, h.disk o ho.1]
  data := h'.data.trans h.data

theorem RootFrame.trans {os os' : List ℤ} {name : String} {r r' : ℤ} {s s1 s2 : Tree}
    (h : RootFrame os name r s s1) (h' : RootFrame os' name r' s1 s2) : RootFrame (os ++ os') name r' s s2 where
  schema := by
    obtain ⟨n, fh, ft, e⟩ := h.schema
    obtain ⟨n', fh', ft', e'⟩ := h'.schema
    exact ⟨n', fh', ft', by rw [e', e]; simp [setRootOf_setRootOf]⟩
  node o ho := by
    rw [List.mem_append, not_or] at ho
    rw [h'.node o ho.2, h.node o ho.1]
  cache o ho := by
    rw [List.mem_append, not_or] at ho
    rw [h'.cache o ho.2, h.cache o ho.1]
  disk o ho := by
    rw [List.mem_append, not_or] at ho
    rw [h'.disk o ho.2, h.disk o ho.1]
  data := h'.data.trans h.data

theorem RootFrame.mono {os os' : List ℤ} {name : String} {r : ℤ} {s s' : Tree} (h : RootFrame os name r s s')
    (hs : ∀ o ∈ os, o ∈ os') : RootFrame os' name r s s' where
  schema := h.schema
  node o ho := h.node o fun h' => ho (hs o h')
  cache o ho := h.cache o fun h' => ho (hs o h')
  disk o ho := h.disk o fun h' => ho (hs o h')
  data := h.data

/-- The nodes of an index, an empty index having none. -/
def treeDescs : Option ((h : ℕ) × BlockTree h) → List BlockDesc
  | none => []
  | some T => descs T.2

/-- The root of an index. -/
def treeRoot (root : ℤ) : Option ((h : ℕ) × BlockTree h) → Prop
  | none => root < 0
  | some T => root = T.2.label

/-- The state holds the tree `T` under the index `ndx`. -/
structure IndexRep (s : Tree) (name : String) (ndx : Index) (back : ℕ → Prop)
    (T : Option ((h : ℕ) × BlockTree h)) : Prop where
  /-- The index descriptor. -/
  index : s.schema.getIndex name = some ndx
  /-- Its root. -/
  root : treeRoot ndx.root T
  /-- The nodes. -/
  rep : Rep s name ndx.keySize back (treeDescs T)

/-- An index that has grown from `T` to `T'` while blocks were handed out. -/
structure IndexGrown (W : List ℤ) (s : Tree) (name : String) (T : Option ((h : ℕ) × BlockTree h)) (s' : Tree)
    (T' : Option ((h : ℕ) × BlockTree h)) (fs : List ℤ) (lim : ℤ) : Prop where
  /-- Only blocks of the index have been written. -/
  frame : ∃ r, treeRoot r T' ∧ RootFrame ((treeDescs T').map Desc.label) name r s s'
  /-- No block of the index is given up. -/
  sub : ∀ o ∈ (treeDescs T).map Desc.label, o ∈ (treeDescs T').map Desc.label
  /-- New blocks are unused ones. -/
  new : ∀ o ∈ (treeDescs T').map Desc.label, o ∈ (treeDescs T).map Desc.label ∨ o ∉ W
  /-- The blocks that can still be handed out. -/
  pool : Pool s' fs lim
  /-- No used block is handed out. -/
  out : Outside ((treeDescs T').map Desc.label ++ W) fs lim
  /-- No key is given up. -/
  keys : ∀ S, KeysIn S (treeDescs T') → KeysIn S (treeDescs T)
  /-- Keys that are left behind in unused slots are still in the tree. -/
  tidy : ∀ S, KeysIn S (treeDescs T') → s.Tidy S ((treeDescs T).map Desc.label) →
    s'.Tidy S ((treeDescs T').map Desc.label)

theorem IndexGrown.refl {W fs : List ℤ} {s : Tree} {name : String} {ndx : Index} {back : ℕ → Prop}
    {T : Option ((h : ℕ) × BlockTree h)} {lim : ℤ} (hrep : IndexRep s name ndx back T) (hpool : Pool s fs lim)
    (hout : Outside ((treeDescs T).map Desc.label ++ W) fs lim) : IndexGrown W s name T s T fs lim where
  frame := ⟨_, hrep.root, (Frame.refl _ s).rootFrame hrep.index⟩
  sub _ h := h
  new _ h := .inl h
  pool := hpool
  out := hout
  keys _ h := h
  tidy _ _ h := h

theorem IndexGrown.trans {W fs fs' : List ℤ} {s s1 s2 : Tree} {name : String} {T T1 T2 : Option ((h : ℕ) × BlockTree h)}
    {lim lim' : ℤ} (h : IndexGrown W s name T s1 T1 fs lim) (h' : IndexGrown W s1 name T1 s2 T2 fs' lim') :
    IndexGrown W s name T s2 T2 fs' lim' where
  frame := by
    obtain ⟨r, -, hf⟩ := h.frame
    obtain ⟨r', hr', hf'⟩ := h'.frame
    refine ⟨r', hr', (hf.trans hf').mono fun o ho => ?_⟩
    rcases List.mem_append.mp ho with ho | ho
    · exact h'.sub o ho
    · exact ho
  sub o ho := h'.sub o (h.sub o ho)
  new o ho := by
    rcases h'.new o ho with ho | ho
    · exact h.new o ho
    · exact .inr ho
  pool := h'.pool
  out := h'.out
  keys S hk := h.keys S (h'.keys S hk)
  tidy S hk ht := h'.tidy S hk (h.tidy S (h'.keys S hk) ht)

section InsertElement

variable {s : Tree} {name : String} {ndx : Index} {t : ℕ} {back : ℕ → Prop} {W fs : List ℤ} {lim : ℤ}

/-- The first element of an index. -/
theorem insertElement_empty (e : Element) (he : e.ndxName = name) (hek : e.key.length = ndx.keySize)
    (hreg : ndx.Regular t) (hrep : IndexRep s name ndx back none) (hpool : Pool s fs lim) (hout : Outside W fs lim)
    (fuel : ℕ) : ∃ s', insertElement fuel e s = .ok () s' ∧
      IndexRep s' name { ndx with root := stream fs lim 0 } back
        (some ⟨0, ⟨stream fs lim 0, [e.entry]⟩⟩) ∧
      IndexGrown W s name none s' (some ⟨0, ⟨stream fs lim 0, [e.entry]⟩⟩) (restFree fs) (restLim fs lim) := by
  subst he
  have hroot : ndx.root < 0 := hrep.root
  have hpz := hpool.aligned_zero
  have hout' := hout.cons hpool
  have hfr : stream fs lim 0 ∉ restFree fs := hout'.notMem _ (List.mem_cons_self ..)
  have hfW := hout.stream_zero
  obtain ⟨s1, h1, hh1, hp1⟩ := nextOffset_spec hpool
  generalize stream fs lim 0 = f at *
  obtain ⟨s2, h2, rf2, hv2, hc2, hd2, hhd2⟩ := hh1.frame.setRoot hrep.index f
  have hx2 := rf2.getIndex hrep.index
  obtain ⟨s3, h3, hv3, hs3, fr3⟩ := newNode_spec true e.ndxName f s2
  have ho3 : Open s3 { ndx with root := f } f (View.new true e.ndxName) :=
    ⟨hv3, by rw [hs3]; exact hx2, hreg.fits⟩
  have hord := hreg.order
  have ht2 := hreg.two_le
  obtain ⟨s4, h4, w4⟩ := putElement_spec ho3 (i := 0) (by simp only; omega) e hek.le
  obtain ⟨s5, h5, w5⟩ := setNumKey_spec w4.view 1
  have w45 := w4.trans w5
  refine ⟨s5, ?_, ⟨?_, rfl, ?_⟩, ⟨f, rfl, ?_⟩, by simp [treeDescs], fun o ho => ?_, ?_, hout',
    fun S _ d hd => by simp [treeDescs] at hd, fun S hS _ o ho w hw i => ?_⟩
  · rw [insertElement, run_bind (getIndex_eq hrep.index), if_pos hroot, run_bind h1, run_bind h2,
      run_bind (getIndex_eq hx2), run_bind h3]
    rw [Nat.cast_zero] at h4
    rw [run_bind h4]
    exact h5
  · rw [w45.schema, hs3]
    exact hx2
  · refine Rep.cons (rep_nil ..) ⟨hpz, ⟨_, w45.view, rfl, rfl, rfl, fun i x hx => ?_⟩, ?_⟩ (by simp) (by simp) ?_ ?_
    · obtain ⟨rfl, rfl⟩ : i = 0 ∧ x = e.entry := by
        cases i with
        | zero => exact ⟨rfl, by simpa using hx.symm⟩
        | succ i => simp at hx
      simp [View.vec, View.new, Slot.put, writeKey_of_length hek, Element.entry]
    · simp [descKeys, hek]
    · exact (Tree.nextOf_eq w45.view).trans (if_pos rfl)
    · exact (Tree.prevOf_eq w45.view).trans (if_pos rfl)
  · exact ((rf2.trans_frame fr3).trans_frame w45.frame).mono (by simp [treeDescs])
  · obtain rfl : o = f := by simpa [treeDescs] using ho
    exact .inr hfW
  · have hp2 : Pool s2 (restFree fs) (restLim fs lim) :=
      hp1.congr (by rw [hhd2]) (by rw [hhd2]) fun g _ => ⟨by rw [hc2], by rw [hd2]⟩
    have hp3 : Pool s3 (restFree fs) (restLim fs lim) := by
      refine hp2.congr (by rw [hs3]) (by rw [hs3]) fun g hg => ?_
      have hgf : g ∉ [f] := by simpa using fun e : g = f => hfr (e ▸ hg)
      exact ⟨fr3.cache g hgf, fr3.disk g hgf⟩
    exact hp3.wrote w45 hfr
  · obtain rfl : o = f := by simpa [treeDescs] using ho
    obtain rfl := Option.some_inj.mp (w45.view.symm.trans hw)
    have hSe : S true e.key := hS (.leaf o [e.entry]) (by simp [treeDescs]) e.key (by simp [descKeys])
    simp only [View.vec_slots, View.vec_isLeaf, View.new]
    by_cases hi : i = 0
    · simp [hi, Slot.put, writeKey_of_length hek, hSe]
    · rw [Function.update_of_ne hi]
      exact .inl rfl

/-- A full root becomes the only child of a new root. -/
theorem newRoot_rep {h : ℕ} {T : BlockTree h} (hx : s.schema.getIndex name = some ndx) (hreg : ndx.Regular t)
    (hrep : Rep s name ndx.keySize back (descs T)) (hpool : Pool s fs lim)
    (hout : Outside ((descs T).map Desc.label ++ W) fs lim) :
    ∃ s1 s2 s3, nextOffset false s = .ok (stream fs lim 0) s1 ∧
      newNode false name (stream fs lim 0) s1 = .ok (stream fs lim 0) s2 ∧
      putChildOffset (stream fs lim 0) 0 T.label s2 = .ok () s3 ∧
      Rep s3 name ndx.keySize back (@descs ℤ Key ℤ (h + 1) ⟨stream fs lim 0, [], [T]⟩) ∧
      Grown W s (descs T) s3 (@descs ℤ Key ℤ (h + 1) ⟨stream fs lim 0, [], [T]⟩) (restFree fs) (restLim fs lim) := by
  have hpz := hpool.aligned_zero
  have hout' := hout.cons hpool
  have hfr : stream fs lim 0 ∉ restFree fs := hout'.notMem _ (List.mem_cons_self ..)
  have hfU := hout.stream_zero
  obtain ⟨s1, s2, h1, h2, hv2, hp2, fr2, -⟩ := alloc_spec hpool false name
  generalize stream fs lim 0 = f at *
  have hfl : f ∉ (descs T).map Desc.label := fun e => hfU (List.mem_append_left _ e)
  have ho2 : Open s2 ndx f (View.new false name) := ⟨hv2, (fr2.getIndex name).trans hx, hreg.fits⟩
  obtain ⟨s3, h3, w3⟩ := putChildOffset_spec ho2 (i := 0) (Nat.zero_le _) T.label
  have hds : @descs ℤ Key ℤ (h + 1) ⟨f, [], [T]⟩ = .inner f (h + 1) [] [T.label] :: descs T := by simp
  refine ⟨s1, s2, s3, h1, h2, ?_, ?_, ?_⟩
  · rwa [Nat.cast_zero] at h3
  · rw [hds]
    have hrep3 : Rep s3 name ndx.keySize back (descs T) := by
      refine hrep.frame fun d hd => ?_
      have hdf : d.label ≠ f := fun e => hfl (e ▸ List.mem_map_of_mem hd)
      rw [w3.view_ne hdf, fr2.view (by simpa using hdf)]
    refine hrep3.cons ⟨hpz, ⟨_, w3.view, rfl, rfl, rfl, by simp, fun i c hc => ?_⟩, by simp [descKeys]⟩ hfl
      (fun d hd => ?_) ?_ ?_
    · cases i with
      | zero => simpa [View.new] using hc
      | succ i => simp at hc
    · have := height_le T d hd
      simp only [Desc.height_inner]
      omega
    · exact (Tree.nextOf_eq w3.view).trans (if_pos rfl)
    · exact (Tree.prevOf_eq w3.view).trans (if_pos rfl)
  · rw [hds]
    refine ⟨(fr2.trans w3.frame).mono (by simp), fun o ho => List.mem_cons_of_mem _ ho, fun o ho => ?_,
      hp2.wrote w3 hfr, hout', fun S hS d hd => hS d (List.mem_cons_of_mem _ hd), fun S _ ht o ho w hw i => ?_⟩
    · rcases List.mem_cons.mp ho with rfl | ho
      · exact .inr fun e => hfU (List.mem_append_right _ e)
      · exact .inl ho
    · by_cases hof : o = f
      · subst hof
        obtain rfl := Option.some_inj.mp (w3.view.symm.trans hw)
        refine .inl ?_
        simp only [View.vec_slots, View.new]
        by_cases hi : i = 0
        · simp [hi]
        · rw [Function.update_of_ne hi]
      · rw [w3.view_ne hof, fr2.view (by simpa using hof)] at hw
        rcases List.mem_cons.mp ho with ho | ho
        · exact absurd ho hof
        · exact ht o ho w hw i

/-- `tree::insert(element)` does to the state what `insertTree` does to the picture. -/
theorem insertElement_rep {lo : ℕ} (hreg : ndx.Regular t) (hlo : lo ≤ t - 1) (e : Element) (he : e.ndxName = name)
    (hek : e.key.length = ndx.keySize) {T : Option ((h : ℕ) × BlockTree h)} (hrep : IndexRep s name ndx back T)
    (hshape : ∀ T', T = some T' → Shape 1 lo (2 * t - 1) T'.2) (hpool : Pool s fs lim)
    (hout : Outside ((treeDescs T).map Desc.label ++ W) fs lim) {fuel : ℕ}
    (hfuel : ∀ T', T = some T' → T'.1 < fuel) :
    ∃ s' r fs' lim', insertElement fuel e s = .ok () s' ∧
      (insertTree t e.entry (stream fs lim) T).2 = stream fs' lim' ∧
      IndexRep s' name { ndx with root := r } back (insertTree t e.entry (stream fs lim) T).1 ∧
      IndexGrown W s name T s' (insertTree t e.entry (stream fs lim) T).1 fs' lim' := by
  cases T with
  | none =>
    obtain ⟨s', h1, h2, h3⟩ := insertElement_empty e he hek hreg hrep hpool hout fuel
    exact ⟨s', _, _, _, h1, stream_tail fs lim, h2, h3⟩
  | some T =>
    subst he
    obtain ⟨h, T⟩ := T
    have hsh : Shape 1 lo (2 * t - 1) T := hshape _ rfl
    have hfu : h < fuel := hfuel _ rfl
    have hroot : ndx.root = T.label := hrep.root
    have hrp : Rep s e.ndxName ndx.keySize back (descs T) := hrep.rep
    have hou : Outside ((descs T).map Desc.label ++ W) fs lim := hout
    have hTd : rootDesc T ∈ descs T := by
      rw [descs_eq]
      exact List.mem_cons_self ..
    have hTa : Aligned T.label := by simpa using (hrp.holds _ hTd).aligned
    obtain ⟨v, hv, hvr⟩ := (hrp.holds _ hTd).open hrep.index hreg.fits
    rw [label_rootDesc] at hv
    have hfull := isFull_eq hv
    rw [reads_numKey hvr, length_descKeys_rootDesc] at hfull
    have hneg : ¬ndx.root < 0 := by
      rw [hroot]
      exact not_lt.mpr hTa.1
    have hderef : (do deref (← getNode e.ndxName T.label) : M ℤ) s = .ok T.label s := by
      rw [run_bind (getNode_eq hTa hv.view _)]
      rfl
    have hord := hreg.order
    have ht2 := hreg.two_le
    have hcode : insertElement fuel e s = (if decide ((T.count : ℤ) ≥ (ndx.order : ℤ) - 1) = true then (do
        let newRoot ← newNode false e.ndxName (← nextOffset false)
        putChildOffset newRoot 0 T.label
        splitChild newRoot 0 T.label
        let x ← getElement newRoot 0
        insertNonFull fuel (← childAt newRoot (if x.key < e.key then 1 else 0)) e
        setRoot e.ndxName newRoot) else insertNonFull fuel T.label e) s := by
      rw [insertElement, run_bind (getIndex_eq hrep.index), if_neg hneg, run_bind (getIndex_eq hrep.index), hroot,
        ← bind_assoc, run_bind hderef, run_bind hfull]
    by_cases hfl : T.count < 2 * t - 1
    · have hins : insertTree t e.entry (stream fs lim) (some ⟨h, T⟩) =
          (some ⟨h, (insertNF t e.entry T (stream fs lim)).1⟩, (insertNF t e.entry T (stream fs lim)).2) := by
        simp only [insertTree, insertRoot, if_pos hfl]
      rw [hins]
      obtain ⟨s', fs', lim', hrun, hq, hrep', hg⟩ := insertNonFull_rep (W := W) (L := []) (R := []) hreg hlo e hek hrep.index
        hsh hfl hfu (by simpa using hrp) hpool (by simpa using hou)
      simp only [List.nil_append, List.append_nil] at hrep' hg
      have hlab := label_insertNF t e.entry T (stream fs lim)
      refine ⟨s', ndx.root, fs', lim', ?_, hq, ⟨(hg.frame.getIndex _).trans hrep.index, ?_, hrep'⟩, ?_⟩
      · rw [hcode, if_neg (by simp; omega)]
        exact hrun
      · exact hroot.trans hlab.symm
      · exact ⟨⟨_, hroot.trans hlab.symm, hg.frame.rootFrame hrep.index⟩, hg.sub, hg.new, hg.pool, hg.out, hg.keys, hg.tidy⟩
    · have hfc : T.count = 2 * t - 1 := by
        have := hsh.count_le
        omega
      obtain ⟨k, hk⟩ := exists_splitKey (by omega) hfc
      obtain ⟨s1, s2, s3, h1, h2, h3, hrep3, hg3⟩ := newRoot_rep hrep.index hreg hrp hpool hou
      have hx3 := (hg3.frame.getIndex _).trans hrep.index
      have hst : stream (restFree fs) (restLim fs lim) 0 = stream fs lim 1 := (stream_succ fs lim 0).symm
      obtain ⟨s4, h4, hrep4, hg4⟩ := @splitChild_rep _ _ _ _ _ W _ _ _ 0 _ _ _ (stream fs lim 0) [] [T] T _ [] [] hx3 hreg (by simpa only [List.nil_append, List.append_nil] using hrep3) rfl (by simp only [List.length_nil]; omega) rfl hsh hfc hk hg3.pool (by simpa only [List.nil_append, List.append_nil] using hg3.out)
      have hsplit : splitAt t 0 (stream fs lim 0) [] [T] T k (stream fs lim 1) =
          ⟨stream fs lim 0, [k], [T.left t, T.right t (stream fs lim 1)]⟩ := rfl
      simp only [List.nil_append, List.append_nil, hst, hsplit] at hrep4 hg4
      have hx4 := (hg4.frame.getIndex _).trans hx3
      -- the half to go on with
      obtain ⟨n, hn⟩ : ∃ n : ℕ, n = if k < e.key then 1 else 0 := ⟨_, rfl⟩
      obtain ⟨c, hready⟩ : ∃ c, Ready t e.key 1 lo (toks T)
          ⟨stream fs lim 0, [k], [T.left t, T.right t (stream fs lim 1)]⟩ n c := by
        rw [hn]
        convert newRoot_ready hreg.two_le hlo e.key (stream fs lim 0) (stream fs lim 1) hsh hfc hk
      obtain ⟨P, hP, hPr⟩ := (hrep4.holds (.inner (stream fs lim 0) (h + 1) [k]
        ([T.left t, T.right t (stream fs lim 1)].map label)) (by simp)).open hx4 hreg.fits
      obtain ⟨x, hgx, -, hxk⟩ := getElement_key hP hPr (hrep4.holds _ (by simp)).size (i := 0) (by omega) (k := k) rfl
      have hchild := childAt_rep (n := n) (L := []) (R := []) hx4 hreg.fits
        (by simpa only [List.nil_append, List.append_nil] using hrep4) (by rw [hn]; split <;> omega) hready.child
      obtain ⟨A, B, hAB⟩ := descs_hole (stream fs lim 0) [k] hready.child
      have hds : @descs ℤ Key ℤ (h + 1) ⟨stream fs lim 0, [k], [T.left t, T.right t (stream fs lim 1)]⟩ =
          A ++ descs c ++ B := by
        rw [← hAB c rfl, set_self hready.child]
      rw [hds] at hrep4 hg4
      obtain ⟨s5, fs5, lim5, hrun, hq5, hrep5, hg5⟩ := @insertNonFull_rep _ _ _ _ W _ hreg hlo e hek _ _ _ _ _ _ _ _ fuel hx4 ((shape_inner.mp hready.shape).2.2 c (List.mem_of_getElem? hready.child)) hready.notFull (by omega) hrep4 hg4.pool hg4.out
      rw [← hAB _ (label_insertNF t e.entry c _)] at hrep5 hg5
      have hg := (hg3.trans hg4).trans hg5
      obtain ⟨s6, h6, rf6, hv6, hc6, hd6, hhd6⟩ := hg.frame.setRoot hrep.index (stream fs lim 0)
      have hins : insertTree t e.entry (stream fs lim) (some ⟨h, T⟩) =
          (some ⟨h + 1, ⟨stream fs lim 0, [k], [T.left t, T.right t (stream fs lim 1)].set n
            (insertNF t e.entry c fun i => stream fs lim (i + 2)).1⟩⟩,
            (insertNF t e.entry c fun i => stream fs lim (i + 2)).2) := by
        rw [insertTree, insertRoot_full hfl hk (by rw [hn]; congr) hready.child]
      have hst2 : (fun i => stream fs lim (i + 2)) =
          stream (restFree (restFree fs)) (restLim (restFree fs) (restLim fs lim)) :=
        funext fun i => (stream_succ fs lim (i + 1)).trans (stream_succ _ _ i)
      rw [hins, hst2]
      refine ⟨s6, stream fs lim 0, fs5, lim5, ?_, hq5, ⟨rf6.getIndex hrep.index, rfl, ?_⟩, ?_⟩
      · have hidx : (if k < e.key then (1 : ℤ) else 0) = (n : ℤ) := by
          rw [hn]
          split <;> rfl
        rw [hcode, if_pos (by simp; omega), run_bind h1, run_bind h2, run_bind h3]
        rw [Nat.cast_zero] at h4
        rw [run_bind h4]
        refine (run_bind hgx).trans ?_
        rw [hxk, hidx, run_bind hchild]
        refine (run_bind hrun).trans h6
      · refine hrep5.frame fun d _ => ?_
        rw [hv6]
      · refine ⟨⟨stream fs lim 0, rfl, rf6⟩, hg.sub, hg.new, ?_, hg.out, hg.keys, fun S hS ht o ho w hw => ?_⟩
        · exact hg.pool.congr (by rw [hhd6]) (by rw [hhd6]) fun g _ => ⟨by rw [hc6], by rw [hd6]⟩
        · exact hg.tidy S hS ht o ho w (hv6 ▸ hw)

end InsertElement

end RedB
