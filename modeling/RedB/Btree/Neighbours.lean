import RedB.Btree.FillRep
import RedB.Btree.Walk
import RedB.Theory.Runs

/-!
# Neighbours of a separator

`node::get_next_element` and `node::get_prev_element` look for the leaf elements on both sides of a
separator. The loops that walk down to the leaves take a child of the node itself in every round, not
of the node that has been reached. All children of a node are at the same height, so the walk to the
right never ends below a node whose children are inner nodes (`nextElementLoop_never`), and both
neighbours are found only next to the leaves (`neighbours_right_iff`).
-/

namespace RedB

open BPlus BPlus.BTree

/-- A B+tree on the blocks of a table: every node but the root has at least `lo` keys, `lo` being at
least one; keys are in order; and every separator is the last key of the leaf before it. Its nodes are
there or can be read. -/
structure Planted (s : Tree) (name : String) (ndx : Index) (lo : ℕ) {h : ℕ} (T : BlockTree h) : Prop where
  /-- The nodes, each read if it has not been. -/
  picture : Picture (s.loaded name) name ndx T
  /-- Every node has at most `order - 1` keys, and the root at least one. -/
  shape : Shape 1 lo (ndx.order - 1) T
  /-- No node is empty. -/
  least : 1 ≤ lo
  /-- The order of the keys. -/
  sorted : Sorted T.toks
  /-- Separators are last keys. -/
  sepLast : SepLast T.toks

/-- `get_next_element(n)` ends and returns the least element of child `n + 1`. It may read nodes, and changes nothing
else. -/
def NextRight (s : Tree) (name : String) {h : ℕ} (T : BlockTree (h + 1)) (n : ℕ) : Prop :=
  ∃ c e l, (Inner.children T)[n + 1]? = some c ∧ elems c.toks = e :: l ∧ (∀ x ∈ l, e.1 ≤ x.1) ∧
    ∃ m, ∀ fuel, m ≤ fuel → ∃ s', getNextElement fuel T.label n s = .ok (Element.ofEntry name e) s' ∧ s'.loaded name = s.loaded name

/-- `get_prev_element(n)` ends and returns the greatest element of child `n` but key `n` itself,
which is the last one. -/
def PrevRight (s : Tree) (name : String) {h : ℕ} (T : BlockTree (h + 1)) (n : ℕ) : Prop :=
  ∃ c l e k, (Inner.children T)[n]? = some c ∧ elems c.toks = l ++ [e, k] ∧ (Inner.keys T)[n]? = some k.1 ∧
    (∀ x ∈ l, x.1 ≤ e.1) ∧
    ∃ m, ∀ fuel, m ≤ fuel → ∃ s', getPrevElement fuel T.label n s = .ok (Element.ofEntry name e) s' ∧ s'.loaded name = s.loaded name

/-! ### Where all nodes have been read -/

/-- `Planted`, where all nodes have been read. -/
structure PlantedRead (s : Tree) (name : String) (ndx : Index) (lo : ℕ) {h : ℕ} (T : BlockTree h) : Prop where
  /-- The nodes. -/
  picture : Picture s name ndx T
  /-- Every node has at most `order - 1` keys, and the root at least one. -/
  shape : Shape 1 lo (ndx.order - 1) T
  /-- No node is empty. -/
  least : 1 ≤ lo
  /-- The order of the keys. -/
  sorted : Sorted T.toks
  /-- Separators are last keys. -/
  sepLast : SepLast T.toks

/-- `NextRight`, where all nodes have been read. -/
def NextRightRead (s : Tree) (name : String) {h : ℕ} (T : BlockTree (h + 1)) (n : ℕ) : Prop :=
  ∃ c e l, (Inner.children T)[n + 1]? = some c ∧ elems c.toks = e :: l ∧ (∀ x ∈ l, e.1 ≤ x.1) ∧
    ∃ m, ∀ fuel, m ≤ fuel → getNextElement fuel T.label n s = .ok (Element.ofEntry name e) s

/-- `PrevRight`, where all nodes have been read. -/
def PrevRightRead (s : Tree) (name : String) {h : ℕ} (T : BlockTree (h + 1)) (n : ℕ) : Prop :=
  ∃ c l e k, (Inner.children T)[n]? = some c ∧ elems c.toks = l ++ [e, k] ∧ (Inner.keys T)[n]? = some k.1 ∧
    (∀ x ∈ l, x.1 ≤ e.1) ∧ ∃ m, ∀ fuel, m ≤ fuel → getPrevElement fuel T.label n s = .ok (Element.ofEntry name e) s

section Neighbours

variable {s : Tree} {name : String} {ndx : Index} {lo h n : ℕ}

/-- The tree below a child is a B+tree. -/
theorem PlantedRead.child {l : ℤ} {ks : List Key} {cs : List (BlockTree h)} (hT : @PlantedRead s name ndx lo (h + 1) ⟨l, ks, cs⟩)
    {c : BlockTree h} (hc : c ∈ cs) : PlantedRead s name ndx lo c := by
  obtain ⟨i, hi, rfl⟩ := List.getElem_of_mem hc
  have hci : cs[i]? = some cs[i] := List.getElem?_eq_getElem hi
  obtain ⟨-, hlen, hcs⟩ := shape_inner.mp hT.shape
  obtain ⟨X, Y, htoks, -, -⟩ := toks_hole (l := l) hci hlen
  have hself := htoks cs[i]
  rw [set_self hci] at hself
  have hsorted := hT.sorted
  have hsep := hT.sepLast
  rw [hself] at hsorted hsep
  refine ⟨⟨hT.picture.index, hT.picture.fits, fun d hd => hT.picture.holds d (descs_child hci d hd), ?_⟩, ?_, hT.least,
    hsorted.left.right, hsep.left.right⟩
  · obtain ⟨A, B, hd⟩ := descs_hole l ks hci
    have hnd := hT.picture.nodup
    rw [← set_self hci, hd cs[i] rfl, List.map_append, List.map_append] at hnd
    exact hnd.of_append_left.of_append_right
  · have hsh := hcs _ hc
    exact hsh.root (hT.least.trans hsh.le_count)

/-- The tree below any node of a B+tree is one. -/
theorem PlantedRead.subtree {T : BlockTree h} (hT : PlantedRead s name ndx lo T) {g : ℕ} {U : BlockTree g}
    (hU : ⟨g, U⟩ ∈ subtrees T) : PlantedRead s name ndx lo U :=
  forall_subtrees (P := fun T => PlantedRead s name ndx lo T) (fun hT _ hc => hT.child hc) hT _ hU

/-- The node object of the root. -/
theorem PlantedRead.node : {h : ℕ} → {T : BlockTree h} → PlantedRead s name ndx lo T →
    ∃ nd, nodeAt T.label s = .ok nd s ∧ nd.isLeaf = decide (h = 0) ∧ nd.numKey = T.count
  | 0, ⟨l, es⟩, hT => by
    obtain ⟨v, hv, hr⟩ := (hT.picture.holds (.leaf l es) (by simp)).open hT.picture.index hT.picture.fits
    obtain ⟨nd, hnd, -, hleaf, hnum, -⟩ := nodeAt_eq hv.view
    exact ⟨nd, hnd, hleaf.trans hr.1, hnum.trans hr.2.2.1⟩
  | h + 1, ⟨l, ks, cs⟩, hT => by
    obtain ⟨v, hv, hr⟩ := (hT.picture.holds (.inner l (h + 1) ks (cs.map label)) (by simp)).open hT.picture.index hT.picture.fits
    obtain ⟨nd, hnd, -, hleaf, hnum, -⟩ := nodeAt_eq hv.view
    exact ⟨nd, hnd, hleaf.trans hr.1, hnum.trans hr.2.2.1⟩

theorem PlantedRead.childAt {T : BlockTree (h + 1)} (hT : PlantedRead s name ndx lo T) (hn : n ≤ T.count) :
    ∃ c, (Inner.children T)[n]? = some c ∧ PlantedRead s name ndx lo c ∧ childAt T.label n s = .ok c.label s := by
  obtain ⟨l, ks, cs⟩ := T
  obtain ⟨⟨-, hks⟩, hlen, -⟩ := shape_inner.mp hT.shape
  rw [count_inner] at hn
  have hc : cs[n]? = some cs[n] := List.getElem?_eq_getElem (by omega)
  exact ⟨_, hc, hT.child (List.getElem_mem _), childAt_holds hT.picture.index hT.picture.fits hT.picture.holds (by omega) hc⟩

/-! ### Above the leaves -/

/-- The walk to the right goes round and round at the first child of the node. -/
theorem nextElementLoop_never {T : BlockTree (h + 2)} (hT : PlantedRead s name ndx lo T) (fuel : ℕ) {c : BlockTree (h + 1)}
    (hc : PlantedRead s name ndx lo c) : nextElementLoop T.label fuel c.label s = .error .fuel s := by
  induction fuel generalizing c with
  | zero => rfl
  | succ fuel ih =>
    obtain ⟨nd, hnd, hleaf, -⟩ := hc.node
    obtain ⟨d, -, hd, hchild⟩ := hT.childAt (n := 0) (Nat.zero_le _)
    rw [nextElementLoop, run_bind hnd, if_neg (by rw [hleaf]; simp)]
    exact (run_bind hchild).trans (ih hd)

theorem NextRightRead.leaves {T : BlockTree (h + 1)} (hT : PlantedRead s name ndx lo T) (hn : n < T.count)
    (hright : NextRightRead s name T n) : h = 0 := by
  obtain ⟨-, e, -, -, -, -, m, hm⟩ := hright
  cases h with
  | zero => rfl
  | succ h =>
    obtain ⟨c, -, hc, hchild⟩ := hT.childAt (n := n + 1) hn
    have hrun : getNextElement m T.label n s = .error .fuel s := by
      rw [getNextElement, show (n : ℤ) + 1 = ((n + 1 : ℕ) : ℤ) by omega, run_bind hchild]
      exact Runs.bind_throw (nextElementLoop_never hT m hc)
    cases hrun.symm.trans (hm m (Nat.le_refl m))

/-! ### Next to the leaves -/

/-- The walk to the right ends at once. -/
theorem nextRight_of_leaves {T : BlockTree 1} (hT : PlantedRead s name ndx lo T) (hn : n < T.count) : NextRightRead s name T n := by
  obtain ⟨⟨l', es⟩, hc, hcP, hchild⟩ := hT.childAt (n := n + 1) hn
  have hlen : 1 ≤ es.length := (shape_leaf.mp hcP.shape).1
  have hle : es.length ≤ ndx.order - 1 := (shape_leaf.mp hcP.shape).2
  obtain ⟨e, l, rfl⟩ := List.exists_cons_of_length_pos hlen
  obtain ⟨nd, hnd, hleaf, -⟩ := hcP.node
  have hsorted := hcP.sorted.elems
  rw [toks_leaf, elems_leaf, elems_nil, List.append_nil, List.map_cons, List.pairwise_cons] at hsorted
  refine ⟨⟨l', e :: l⟩, e, l, hc, List.append_nil _, fun x hx => hsorted.1 _ (List.mem_map_of_mem hx), 1, fun fuel hfuel => ?_⟩
  obtain ⟨fuel, rfl⟩ := Nat.exists_eq_add_of_le' hfuel
  have hget : getElement l' 0 s = .ok (Element.ofEntry name e) s :=
    @getElement_leaf _ _ _ _ _ hT.picture.index hT.picture.fits (hcP.picture.holds (.leaf l' (e :: l)) (by simp)) 0 e rfl (by
      rw [List.length_cons] at hle
      omega)
  rw [label_leaf] at hnd hchild
  rw [getNextElement, show (n : ℤ) + 1 = ((n + 1 : ℕ) : ℤ) by omega, run_bind hchild]
  have hloop : nextElementLoop T.label (fuel + 1) l' s = .ok l' s := by
    rw [nextElementLoop, run_bind hnd, if_pos (hleaf.trans (decide_eq_true rfl))]
    rfl
  exact (run_bind hloop).trans hget

/-- The separator is the last key of the leaf before it. -/
theorem PlantedRead.last_key {T : BlockTree 1} (hT : PlantedRead s name ndx lo T) {c : BlockTree 0} {k : Key}
    (hc : (Inner.children T)[n]? = some c) (hk : (Inner.keys T)[n]? = some k) :
    ((Leaf.elems c).map Prod.fst).getLast? = some k := by
  obtain ⟨l, ks, cs⟩ := T
  obtain ⟨-, hlen, -⟩ := shape_inner.mp hT.shape
  obtain ⟨d, d', X, Y, hd, -, htoks⟩ := toks_sep (l := l) hlen hk
  obtain rfl : d = c := Option.some_inj.mp (hd.symm.trans hc)
  have hsep := hT.sepLast
  rw [htoks] at hsep
  have hsep' : SepLast ((.leaf (Leaf.elems d) :: .sep k :: (toks d' ++ Y) : List (Tok Key ℤ))) := by
    rw [List.append_assoc] at hsep
    exact hsep.right
  exact (List.isChain_cons_cons.mp hsep').1

/-- The walk to the left ends at once, and the leaf has to have another element. -/
theorem prevRight_iff {T : BlockTree 1} (hT : PlantedRead s name ndx lo T) {c : BlockTree 0} (hn : n < T.count)
    (hc : (Inner.children T)[n]? = some c) : PrevRightRead s name T n ↔ 2 ≤ c.count := by
  obtain ⟨d, hd, hcP, hchild⟩ := hT.childAt (n := n) hn.le
  obtain rfl : d = c := Option.some_inj.mp (hd.symm.trans hc)
  obtain ⟨l', es⟩ := d
  constructor
  · rintro ⟨c, l, e, k, hc', helems, -⟩
    obtain rfl := Option.some_inj.mp (hc'.symm.trans hc)
    have hes : es = l ++ [e, k] := by simpa using helems
    rw [count_leaf, hes]
    simp
  · intro hcount
    have hle : es.length ≤ ndx.order - 1 := (shape_leaf.mp hcP.shape).2
    have hkey : (Inner.keys T)[n]? = some (Inner.keys T)[n] := List.getElem?_eq_getElem hn
    have hlast := hT.last_key hc hkey
    rw [count_leaf] at hcount
    rcases List.eq_nil_or_concat' es with rfl | ⟨l₁, k, rfl⟩
    · simp at hcount
    rcases List.eq_nil_or_concat' l₁ with rfl | ⟨l₂, e, rfl⟩
    · simp at hcount
    obtain ⟨nd, hnd, hleaf, hnum⟩ := hcP.node
    have hsorted := hcP.sorted.elems
    rw [toks_leaf, elems_leaf, elems_nil, List.append_nil, List.map_append, List.map_append, List.append_assoc,
      List.pairwise_append] at hsorted
    have hk : (Inner.keys T)[n]? = some k.1 := by
      rw [hkey, ← hlast]
      simp
    refine ⟨⟨l', l₂ ++ [e] ++ [k]⟩, l₂, e, k, hc, by simp, hk, fun x hx => ?_, 1, fun fuel hfuel => ?_⟩
    · exact hsorted.2.2 x.1 (List.mem_map_of_mem hx) e.1 (by simp)
    · obtain ⟨fuel, rfl⟩ := Nat.exists_eq_add_of_le' hfuel
      have hloop : prevElementLoop T.label (fuel + 1) l' s = .ok l' s := by
        rw [label_leaf] at hnd
        rw [prevElementLoop, run_bind hnd, if_pos (hleaf.trans (decide_eq_true rfl))]
        rfl
      have hget : getElement l' l₂.length s = .ok (Element.ofEntry name e) s :=
        @getElement_leaf _ _ _ _ _ hT.picture.index hT.picture.fits
          (hcP.picture.holds (.leaf l' (l₂ ++ [e] ++ [k])) (by simp)) l₂.length e (by simp) (by
            simp only [List.length_append, List.length_singleton] at hle
            omega)
      have hnum' : nd.numKey - 2 = (l₂.length : ℤ) := by
        rw [hnum, count_leaf]
        simp
      rw [getPrevElement, run_bind hchild]
      refine (run_bind hloop).trans ((run_bind hnd).trans ?_)
      rw [hnum']
      exact hget

end Neighbours

/-! ### Where they have not -/

section OnDemand

variable {s : Tree} {name : String} {ndx : Index} {lo h n : ℕ}

theorem Planted.read {T : BlockTree h} (hT : Planted s name ndx lo T) : PlantedRead (s.loaded name) name ndx lo T :=
  ⟨hT.picture, hT.shape, hT.least, hT.sorted, hT.sepLast⟩

/-- Reading the nodes first makes no difference to a search. -/
theorem reads_same {x : ℕ → M Element} {e : Element} (hx : ∀ fuel, x fuel (s.loaded name) = Runs.onFinal (fun s => s.loaded name) (x fuel s))
    (fuel : ℕ) : (∃ s', x fuel s = .ok e s' ∧ s'.loaded name = s.loaded name) ↔ x fuel (s.loaded name) = .ok e (s.loaded name) := by
  rw [hx fuel]
  constructor
  · rintro ⟨s', h, hs⟩
    rw [h, ← hs]
    rfl
  · exact Runs.onFinal_eq_ok

theorem nextRight_iff_read {T : BlockTree (h + 1)} (hT : There name T.label [] s) :
    NextRight s name T n ↔ NextRightRead (s.loaded name) name T n := by
  simp only [NextRight, NextRightRead, reads_same fun fuel => (onDemand_getNextElement fuel n).run s hT]

theorem prevRight_iff_read {T : BlockTree (h + 1)} (hT : There name T.label [] s) :
    PrevRight s name T n ↔ PrevRightRead (s.loaded name) name T n := by
  simp only [PrevRight, PrevRightRead, reads_same fun fuel => (onDemand_getPrevElement fuel n).run s hT]

/-- Both neighbours of a separator are found if and only if its children are leaves and the one
before it has an element besides the separator's. -/
theorem neighbours_right_iff {g : ℕ} {U : BlockTree g} (hU : Planted s name ndx lo U) {T : BlockTree (h + 1)}
    (hT : ⟨h + 1, T⟩ ∈ subtrees U) (hthere : (s.node T.label).isSome) (hn : n < T.count) :
    NextRight s name T n ∧ PrevRight s name T n ↔ h = 0 ∧ ∃ c, (Inner.children T)[n]? = some c ∧ 2 ≤ c.count := by
  have hP := hU.read.subtree hT
  have hself := hP.picture.there hthere
  rw [nextRight_iff_read hself, prevRight_iff_read hself]
  obtain ⟨c, hc, -, -⟩ := hP.childAt (n := n) hn.le
  have hright : (∃ d, (Inner.children T)[n]? = some d ∧ 2 ≤ d.count) ↔ 2 ≤ c.count := by
    rw [hc]
    simp
  rw [hright]
  constructor
  · rintro ⟨hnext, hprev⟩
    obtain rfl := hnext.leaves hP hn
    exact ⟨rfl, (prevRight_iff hP hn hc).mp hprev⟩
  · rintro ⟨rfl, hcount⟩
    exact ⟨nextRight_of_leaves hP hn, (prevRight_iff hP hn hc).mpr hcount⟩

end OnDemand

/-! ### Two trees -/

/-- A root with two leaves, of two elements and of one. -/
def threeKeys : BlockTree 1 :=
  ⟨65536, [wide 3], [⟨32768, [(wide 2, 48), (wide 3, 72)]⟩, ⟨98304, [(wide 4, 96)]⟩]⟩

/-- Only the root has been read. -/
theorem threeKeys_planted : Planted ((tableOf wideKey twoLinks threeKeys.descs).unread 65536) pkNdx wideKey 1 threeKeys where
  picture := by
    refine (tableOf_picture _ (by decide) (by decide) fun d hd => ?_).unread _ (by decide)
    change d ∈ [.inner 65536 1 [wide 3] [32768, 98304], .leaf 32768 [(wide 2, 48), (wide 3, 72)],
      .leaf 98304 [(wide 4, 96)]] at hd
    simp only [List.mem_cons, List.not_mem_nil, or_false] at hd
    rcases hd with rfl | rfl | rfl
    · exact ⟨by decide, List.forall_mem_singleton.mpr (length_wide 3)⟩
    · exact ⟨by decide, List.forall_mem_cons.mpr ⟨length_wide 2, List.forall_mem_singleton.mpr (length_wide 3)⟩⟩
    · exact ⟨by decide, List.forall_mem_singleton.mpr (length_wide 4)⟩
  shape := by
    refine shape_inner.mpr ⟨by decide, rfl, List.forall_mem_cons.mpr ⟨?_, List.forall_mem_singleton.mpr ?_⟩⟩
    · exact shape_leaf.mpr (by decide)
    · exact shape_leaf.mpr (by decide)
  least := Nat.le_refl 1
  sorted := by
    show ([2, 3, 3, 4].map wide).Pairwise (· ≤ ·)
    exact List.pairwise_map.mpr ((show [2, 3, 3, 4].Pairwise (fun a b : Byte => a ≤ b) by decide).imp wide_le)
  sepLast := List.isChain_cons_cons.mpr ⟨rfl, List.isChain_cons_cons.mpr ⟨trivial, List.isChain_singleton _⟩⟩

/-- Both neighbours of key 3 are found: they are 4 and 2. -/
theorem threeKeys_neighbours : NextRight ((tableOf wideKey twoLinks threeKeys.descs).unread 65536) pkNdx threeKeys 0 ∧
    PrevRight ((tableOf wideKey twoLinks threeKeys.descs).unread 65536) pkNdx threeKeys 0 :=
  (neighbours_right_iff threeKeys_planted List.mem_cons_self (by decide) (by decide)).mpr ⟨rfl, _, rfl, by decide⟩

theorem twoNodes_planted : Planted ((tableOf wideKey nodeLinks twoNodes.descs).unread 65536) pkNdx wideKey 1 twoNodes where
  picture := twoNodes_fillable.picture
  shape := twoNodes_fillable.shape
  least := Nat.le_refl 1
  sorted := twoNodes_fillable.sorted
  sepLast := by
    show SepLast ([.leaf [(wide 2, 48)], .sep (wide 2), .leaf [(wide 3, 72), (wide 4, 96)], .sep (wide 4),
      .leaf [(wide 5, 120)], .sep (wide 5), .leaf [(wide 6, 144)], .sep (wide 6), .leaf [(wide 7, 168)]] : List (Tok Key ℤ))
    simp [SepLast, Follows]

/-- Above two levels of nodes, the search for the element behind key 4 does not end. -/
theorem twoNodes_neighbours : Planted ((tableOf wideKey nodeLinks twoNodes.descs).unread 65536) pkNdx wideKey 1 twoNodes ∧
    ¬NextRight ((tableOf wideKey nodeLinks twoNodes.descs).unread 65536) pkNdx twoNodes 0 :=
  ⟨twoNodes_planted, fun h => by
    have hread := (nextRight_iff_read (twoNodes_planted.picture.there (by decide))).mp h
    exact absurd (hread.leaves twoNodes_planted.read (by decide)) (by decide)⟩

end RedB
