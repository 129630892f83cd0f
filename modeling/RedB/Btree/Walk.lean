import RedB.Btree.Insert
import RedB.Theory.Leaves

/-!
# Reading the leaves

`tree::begin` and `tree::end` descend to the first and the last leaf of the picture, and
following the next-sibling fields from the first leaf reads all its elements in order
(`walkLeaves_spec`).
-/

namespace RedB

open BPlus BPlus.BTree Links

/-! ### Elements and what the picture says of them -/

/-- The element that a leaf entry stands for. -/
def Element.ofEntry (name : String) (x : Key × ℤ) : Element :=
  ⟨x.2.tmod bufferSz, x.2 - x.2.tmod bufferSz, name, x.1⟩

/-- The element locates a row: it names a block and a position in it. -/
structure Element.Located (e : Element) : Prop where
  /-- The block offset. -/
  block : Aligned e.blockOffset
  /-- The row position. -/
  nonneg : 0 ≤ e.rowPosition
  /-- The row position is in the block. -/
  lt : e.rowPosition < bufferSz

/-- The location of a row survives being put together and taken apart. -/
theorem Element.Located.ofEntry {e : Element} (h : e.Located) : Element.ofEntry e.ndxName e.entry = e := by
  obtain ⟨r, b, n, k⟩ := e
  obtain ⟨⟨hb, hb'⟩, hr, hr'⟩ := h
  simp only [bufferSz] at hb hb' hr hr'
  have hmod : (b + r).tmod bufferSz = r := by
    rw [bufferSz, Int.tmod_eq_emod_of_nonneg (by omega)]
    omega
  simp only [Element.ofEntry, Element.entry, hmod, add_sub_cancel_right]

@[simp] theorem Element.ofEntry_key (name : String) (x : Key × ℤ) : (Element.ofEntry name x).key = x.1 := rfl

section Reading

variable {s : Tree} {name : String} {ndx : Index}

/-- The elements that a leaf counts are read. -/
theorem getElement_leaf {l : ℤ} {es : List (Key × ℤ)} (hx : s.schema.getIndex name = some ndx) (hfit : ndx.Fits)
    (hl : Holds s name ndx.keySize (.leaf l es)) {i : ℕ} {x : Key × ℤ} (hi : es[i]? = some x) (hlt : i < ndx.order) :
    getElement l i s = .ok (Element.ofEntry name x) s := by
  obtain ⟨v, hv, hr⟩ := hl.open hx hfit
  rw [Desc.label_leaf] at hv
  rw [getElement_eq hv hlt, hr.2.2.2 i x hi, hr.1, hr.2.1]
  have hk : x.1.length = ndx.keySize := hl.size _ (List.mem_map_of_mem (List.mem_of_getElem? hi))
  simp [Slot.element, Element.ofEntry, readKey_of_length hk]

/-- A child of an inner node. -/
theorem childAt_holds {h n : ℕ} {l : ℤ} {ks : List Key} {cs : List (BlockTree h)} {c : BlockTree h}
    (hx : s.schema.getIndex name = some ndx) (hfit : ndx.Fits)
    (hT : ∀ d ∈ @descs ℤ Key ℤ (h + 1) ⟨l, ks, cs⟩, Holds s name ndx.keySize d) (hn : n ≤ ndx.order)
    (hc : cs[n]? = some c) : childAt l n s = .ok c.label s := by
  obtain ⟨P, hP, hPr⟩ := (hT (.inner l (h + 1) ks (cs.map label)) (by simp)).open hx hfit
  have hcd : rootDesc c ∈ @descs ℤ Key ℤ (h + 1) ⟨l, ks, cs⟩ := by
    have : rootDesc c ∈ cs.flatMap descs :=
      List.mem_flatMap.mpr ⟨c, List.mem_of_getElem? hc, by rw [descs_eq]; exact List.mem_cons_self ..⟩
    simp [this]
  have hcH := hT _ hcd
  obtain ⟨w, hw, -⟩ := hcH.reads
  rw [label_rootDesc] at hw
  have hca : Aligned c.label := by simpa using hcH.aligned
  exact childAt_eq hP hn (hPr.2.2.2.2 n _ (by simp [hc])) hca hw

/-- The nodes of a child are nodes of the tree. -/
theorem descs_child {h n : ℕ} {l : ℤ} {ks : List Key} {cs : List (BlockTree h)} {c : BlockTree h}
    (hc : cs[n]? = some c) : ∀ d ∈ descs c, d ∈ @descs ℤ Key ℤ (h + 1) ⟨l, ks, cs⟩ := fun _ hd =>
  List.mem_cons_of_mem _ (List.mem_flatMap.mpr ⟨c, List.mem_of_getElem? hc, hd⟩)

/-- Descending by the children that `pick` names. -/
theorem descend_spec {pick : Node → ℤ} {p : ℕ → ℕ} (hp : ∀ (nd : Node) (m : ℕ), nd.numKey = (m : ℤ) → pick nd = (p m : ℤ))
    (hple : ∀ m, p m ≤ m) (hx : s.schema.getIndex name = some ndx) (hfit : ndx.Fits) {lo hi : ℕ}
    (hhi : hi ≤ ndx.order) {x : ℤ × List (Key × ℤ)} : {r h : ℕ} → {T : BlockTree h} → {fuel : ℕ} →
    (∀ d ∈ descs T, Holds s name ndx.keySize d) → Shape r lo hi T → leafAt p T = some x → h < fuel →
    descend pick fuel T.label s = .ok x.1 s
  | r, 0, ⟨l, es⟩, fuel + 1, hT, _, hl, _ => by
    obtain rfl : (l, es) = x := Option.some_inj.mp hl
    obtain ⟨v, hv, hr⟩ := (hT (.leaf l es) (by simp)).open hx hfit
    rw [Desc.label_leaf] at hv
    obtain ⟨nd, hnd, -, hleaf, -⟩ := nodeAt_eq hv.view
    rw [label_leaf, descend, run_bind hnd, if_pos (hleaf.trans hr.1)]
    rfl
  | r, h + 1, ⟨l, ks, cs⟩, fuel + 1, hT, hs, hl, hf => by
    obtain ⟨⟨-, hks⟩, hlen, hcs⟩ := shape_inner.mp hs
    obtain ⟨v, hv, hr⟩ := (hT (.inner l (h + 1) ks (cs.map label)) (by simp)).open hx hfit
    obtain ⟨nd, hnd, -, hleaf, hnum, -⟩ := nodeAt_eq hv.view
    obtain ⟨c, hc⟩ : ∃ c, cs[p ks.length]? = some c :=
      ⟨_, List.getElem?_eq_getElem (by have := hple ks.length; omega)⟩
    have hlc : leafAt p c = some x := by simpa [leafAt, hc] using hl
    have hchild := childAt_holds hx hfit hT (n := p ks.length) (by have := hple ks.length; omega) hc
    rw [Desc.label_inner] at hnd
    rw [label_inner, descend, run_bind hnd, if_neg (by rw [hleaf, hr.1]; simp),
      hp nd ks.length (hnum.trans hr.2.2.1), run_bind hchild]
    exact descend_spec hp hple hx hfit hhi (fun d hd => hT d (descs_child hc d hd))
      (hcs c (List.mem_of_getElem? hc)) hlc (by omega)

variable {back : ℕ → Prop}

/-- The root of an index that is not empty is loaded. -/
theorem getRoot_eq {T : (h : ℕ) × BlockTree h} (hrep : IndexRep s name ndx back (some T)) :
    ¬ndx.root < 0 ∧ getNode name ndx.root s = .ok (some T.2.label) s := by
  obtain ⟨h, T⟩ := T
  have hroot : ndx.root = T.label := hrep.root
  have hTd : rootDesc T ∈ treeDescs (some ⟨h, T⟩) := by
    rw [treeDescs, descs_eq]
    exact List.mem_cons_self ..
  have hH := hrep.rep.holds _ hTd
  obtain ⟨v, hv, -⟩ := hH.reads
  have ha : Aligned T.label := by simpa using hH.aligned
  rw [label_rootDesc] at hv
  rw [hroot]
  exact ⟨not_lt.mpr ha.1, getNode_eq ha hv name⟩

theorem beginIndex_eq {T : (h : ℕ) × BlockTree h} {lo hi fuel : ℕ} {x : ℤ × List (Key × ℤ)}
    (hrep : IndexRep s name ndx back (some T)) (hfit : ndx.Fits) (hs : Shape 1 lo hi T.2) (hhi : hi ≤ ndx.order)
    (hl : (leaves T.2).head? = some x) (hf : T.1 < fuel) :
    beginIndex fuel name s = .ok ⟨0, x.1, name⟩ s := by
  obtain ⟨hneg, hget⟩ := getRoot_eq hrep
  rw [← leafAt_first hs] at hl
  have hdesc := @descend_spec _ _ _ (fun _ => 0) (fun _ => 0) (fun _ _ _ => rfl) (fun _ => Nat.zero_le _) hrep.index hfit _ _ hhi _ _ _ _ _ hrep.rep.holds hs hl hf
  rw [beginIndex, run_bind (getIndex_eq hrep.index), if_neg hneg, run_bind (getIndex_eq hrep.index), run_bind hget,
    deref, pure_bind, run_bind hdesc]
  rfl

theorem endIndex_eq {T : (h : ℕ) × BlockTree h} {lo hi fuel : ℕ} {x : ℤ × List (Key × ℤ)}
    (hrep : IndexRep s name ndx back (some T)) (hfit : ndx.Fits) (hs : Shape 1 lo hi T.2) (hhi : hi ≤ ndx.order)
    (hl : (leaves T.2).getLast? = some x) (hf : T.1 < fuel) :
    endIndex fuel name s = .ok ⟨x.2.length, x.1, name⟩ s := by
  obtain ⟨hneg, hget⟩ := getRoot_eq hrep
  obtain ⟨l, es⟩ := x
  have hmem : Desc.leaf l es ∈ treeDescs (some T) := mem_leaves.mp (List.mem_of_getLast? hl)
  obtain ⟨v, hv, hr⟩ := (hrep.rep.holds _ hmem).open hrep.index hfit
  obtain ⟨nd, hnd, -, -, hnum, -⟩ := nodeAt_eq hv.view
  rw [← leafAt_last hs] at hl
  have hdesc := @descend_spec _ _ _ Node.numKey id (fun nd m h => h) (fun m => Nat.le_refl m) hrep.index hfit _ _ hhi _ _ _ _ _ hrep.rep.holds hs hl hf
  rw [endIndex, run_bind (getIndex_eq hrep.index), if_neg hneg, run_bind (getIndex_eq hrep.index), run_bind hget,
    deref, pure_bind, run_bind hdesc]
  rw [Desc.label_leaf] at hnd
  rw [run_bind hnd, run_pure, hnum, hr.2.2.1]

end Reading

/-! ### Walking the leaves -/

/-- The elements that a leaf counts. -/
def leafElements (off : ℤ) : M (List Element) := do
  let nd ← nodeAt off
  (List.range nd.numKey.toNat).mapM fun (i : ℕ) => getElement off i

/-- The elements of a leaf and of all the leaves that its next-sibling fields lead to. -/
def walkLeaves : ℕ → ℤ → M (List Element)
  | 0, _ => throw .fuel
  | fuel + 1, off => do
    let es ← leafElements off
    match ← getNextSibling off with
    | none => return es
    | some next => return es ++ (← walkLeaves fuel next)

/-- The elements of an index, from its first leaf on. -/
def indexElements (fuel : ℕ) (ndxName : String) : M (List Element) := do
  if (← getIndex ndxName).root < 0 then return []
  walkLeaves fuel (← beginIndex fuel ndxName).offset

section Walking

variable {s : Tree} {name : String} {ndx : Index} {back : ℕ → Prop}

theorem mapM_ok {β γ : Type} {f : β → M γ} {g : β → γ} {l : List β} (h : ∀ b ∈ l, f b s = .ok (g b) s) :
    l.mapM f s = .ok (l.map g) s := by
  induction l with
  | nil => rfl
  | cons b l ih =>
    rw [List.mapM_cons, run_bind (h b (List.mem_cons_self ..)),
      run_bind (ih fun c hc => h c (List.mem_cons_of_mem b hc))]
    rfl

theorem leafElements_eq {l : ℤ} {es : List (Key × ℤ)} (hx : s.schema.getIndex name = some ndx) (hfit : ndx.Fits)
    (hl : Holds s name ndx.keySize (.leaf l es)) (hle : es.length ≤ ndx.order) :
    leafElements l s = .ok (es.map (Element.ofEntry name)) s := by
  obtain ⟨v, hv, hr⟩ := hl.open hx hfit
  obtain ⟨nd, hnd, -, -, hnum, -⟩ := nodeAt_eq hv.view
  rw [Desc.label_leaf] at hnd
  have hcount : nd.numKey.toNat = es.length := by
    rw [hnum, hr.2.2.1]
    rfl
  rw [leafElements, run_bind hnd, hcount]
  have hget : ∀ i ∈ List.range es.length, getElement l ((i : ℕ) : ℤ) s =
      .ok (Element.ofEntry name (es.getD i ([], 0))) s := by
    intro i hi
    rw [List.mem_range] at hi
    refine getElement_leaf hx hfit hl ?_ (by omega)
    rw [List.getD_eq_getElem?_getD, List.getElem?_eq_getElem hi]
    rfl
  rw [mapM_ok hget]
  congr 1
  refine List.ext_getElem (by simp) fun i h1 h2 => ?_
  have hi : i < es.length := by simpa using h1
  simp [List.getElem?_eq_getElem hi]

theorem getNextSibling_eq {o : ℤ} {v : View} (hv : s.view o = some v) : ∀ {n : ℤ} {w : View},
    v.next = n → (n = invalidSiblingRef ∨ Aligned n ∧ s.view n = some w) →
    getNextSibling o s = .ok (if n = invalidSiblingRef then none else some n) s := by
  rintro n w hn hd
  obtain ⟨nd, hnd, -⟩ := nodeAt_eq hv
  obtain ⟨b, hb, -, -, -, hbn⟩ := buffer_eq hv
  rw [getNextSibling, run_bind hnd, run_bind hb, hbn, hn]
  rcases hd with hd | ⟨ha, hw⟩
  · rw [if_pos hd, if_pos hd]
    rfl
  · rw [if_neg ha.ne_invalid, if_neg ha.ne_invalid]
    exact getNode_eq ha hw _

/-- The next-sibling fields lead through the leaves. -/
theorem walkLeaves_spec (hx : s.schema.getIndex name = some ndx) (hfit : ndx.Fits) :
    {ls : List (ℤ × List (Key × ℤ))} → {x : ℤ × List (Key × ℤ)} → {fuel : ℕ} →
    (∀ y ∈ x :: ls, Holds s name ndx.keySize (.leaf y.1 y.2) ∧ y.2.length ≤ ndx.order) →
    Fwd s.nextOf ((x :: ls).map Prod.fst) → ls.length < fuel →
    walkLeaves fuel x.1 s = .ok (((x :: ls).flatMap Prod.snd).map (Element.ofEntry name)) s
  | ls, ⟨l, es⟩, fuel + 1, hh, hfwd, hf => by
    obtain ⟨hl, hle⟩ := hh (l, es) (List.mem_cons_self ..)
    obtain ⟨v, hv, -⟩ := hl.reads
    rw [Desc.label_leaf] at hv
    have hnext := hfwd.1
    rw [Tree.nextOf_eq hv] at hnext
    rw [walkLeaves, run_bind (leafElements_eq hx hfit hl hle)]
    cases ls with
    | nil =>
      have hn : v.next = invalidSiblingRef := by
        by_contra hne
        rw [if_neg hne] at hnext
        simp at hnext
      rw [run_bind (getNextSibling_eq (w := v) hv hn (.inl rfl)), if_pos rfl]
      simp [run_pure]
    | cons y ls =>
      obtain ⟨hly, -⟩ := hh y (by simp)
      have hn : v.next = y.1 := by
        by_cases hne : v.next = invalidSiblingRef
        · rw [if_pos hne] at hnext
          simp at hnext
        · rw [if_neg hne] at hnext
          simpa using hnext
      obtain ⟨w, hw, -⟩ := hly.reads
      have hya : Aligned y.1 := hly.aligned
      rw [run_bind (getNextSibling_eq hv hn (.inr ⟨hya, hw⟩)), if_neg hya.ne_invalid]
      have ih := @walkLeaves_spec hx hfit _ _ fuel (fun z hz => hh z (List.mem_cons_of_mem _ hz)) hfwd.2
        (by simpa using hf)
      simp only [run_bind ih, run_pure]
      simp

/-- The elements of an index are read in order. -/
theorem indexElements_eq {T : Option ((h : ℕ) × BlockTree h)} {lo hi fuel : ℕ} (hrep : IndexRep s name ndx back T)
    (hfit : ndx.Fits) (hs : ∀ T', T = some T' → Shape 1 lo hi T'.2) (hhi : hi ≤ ndx.order)
    (hf : ∀ T', T = some T' → T'.1 < fuel ∧ (leaves T'.2).length ≤ fuel) :
    indexElements fuel name s = .ok ((elems (treeToks T)).map (Element.ofEntry name)) s := by
  cases T with
  | none =>
    have hroot : ndx.root < 0 := hrep.root
    rw [indexElements, run_bind (getIndex_eq hrep.index), if_pos hroot]
    rfl
  | some T =>
    have hsh := hs T rfl
    obtain ⟨hf1, hf2⟩ := hf T rfl
    obtain ⟨x, ls, hls⟩ := List.exists_cons_of_ne_nil (leaves_ne_nil hsh)
    have hbegin := beginIndex_eq hrep hfit hsh hhi (x := x) (by rw [hls]; rfl) hf1
    have hfwd := hrep.rep.fwd 0
    rw [treeDescs, level_leaves, hls] at hfwd
    have hholds : ∀ y ∈ x :: ls, Holds s name ndx.keySize (.leaf y.1 y.2) ∧ y.2.length ≤ ndx.order := by
      intro y hy
      have hd : Desc.leaf y.1 y.2 ∈ descs T.2 := mem_leaves.mp (hls ▸ hy)
      refine ⟨hrep.rep.holds _ hd, ?_⟩
      have := shape_desc_le hsh _ hd
      simp only [descKeys, List.length_map] at this
      omega
    rw [indexElements, run_bind (getIndex_eq hrep.index), if_neg (getRoot_eq hrep).1, run_bind hbegin]
    rw [hls, List.length_cons] at hf2
    rw [walkLeaves_spec hrep.index hfit hholds hfwd (by omega), treeToks, elems_toks hsh, hls]

end Walking

end RedB
