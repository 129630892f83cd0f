import RedB.Btree.Run

/-!
# Looking up a key

`node::find` looks for the key in every node on its way down and stops where it finds
it. In a leaf that is the element; in an inner node it is a separator, whose slot holds
a child offset and no location. So `tree::find` is right about the keys that are not
separators and about no others (`insertAll_findsRight_iff`).

Where the search in a node ends behind the last key, `node::find` compares with a slot
that is not in use. What such slots hold is still in the tree (`Tree.Tidy`), so the
comparison fails unless the key is a separator anyway.
-/

namespace RedB

open BPlus BPlus.BTree Links

/-! ### Zero keys -/

/-- No key of its length is below the key of zero bytes. -/
theorem not_lt_zeros : ∀ {k : Key}, ¬k < List.replicate k.length 0
  | [] => by simp
  | b :: k => by
    rw [List.length_cons, List.replicate_succ, List.cons_lt_cons_iff]
    rintro (h | ⟨-, h⟩)
    · exact absurd h (by simp)
    · exact not_lt_zeros h

/-! ### The search in one node -/

section FindKey

variable {s : Tree} {name : String} {ndx : Index} {o : ℤ} {v : View} {d : BlockDesc}

/-- `node::find_key` is the binary search. -/
theorem findKey_eq (h : Open s ndx o v) (hr : v.Reads name d) (hs : ∀ x ∈ descKeys d, x.length = ndx.keySize)
    (hle : (descKeys d).length ≤ ndx.order) (key : Key) :
    findKey o key s = .ok (find (descKeys d) key : ℤ) s := by
  obtain ⟨nd, hnd, -, -, hnum, -⟩ := nodeAt_eq h.view
  have hcount : nd.numKey = (descKeys d).length := hnum.trans (reads_numKey hr)
  suffices H : ∀ fuel lo hi : ℕ, hi < lo + fuel → lo ≤ hi → hi ≤ (descKeys d).length →
      findKeyLoop o key fuel lo ((hi : ℤ) - 1) hi s = .ok (bsearch (descKeys d) key fuel lo hi : ℤ) s by
    rw [findKey, run_bind hnd, hcount]
    exact H _ 0 _ (by omega) (Nat.zero_le _) (Nat.le_refl _)
  intro fuel
  induction fuel with
  | zero => intro lo hi h1 h2; omega
  | succ fuel ih =>
    intro lo hi hf hlo hhi
    rw [findKeyLoop, bsearch]
    by_cases hlt : lo < hi
    · rw [if_pos (by omega : (lo : ℤ) ≤ (hi : ℤ) - 1), if_pos hlt]
      have hmid : ((lo : ℤ) + ((hi : ℤ) - 1)) / 2 = (((lo + (hi - 1)) / 2 : ℕ) : ℤ) := by omega
      have hml : (lo + (hi - 1)) / 2 < hi ∧ lo ≤ (lo + (hi - 1)) / 2 := by omega
      generalize (lo + (hi - 1)) / 2 = m at hmid hml ⊢
      have hk : (descKeys d)[m]? = some (descKeys d)[m] := List.getElem?_eq_getElem (by omega)
      generalize (descKeys d)[m] = k at hk
      obtain ⟨e, he, -, hek⟩ := getElement_key h hr hs (by omega) hk
      simp only [hmid, hk]
      rw [run_bind he, hek]
      by_cases h1 : key < k
      · rw [if_pos h1, if_pos h1]
        exact ih lo m (by omega) hml.2 (by omega)
      · rw [if_neg h1, if_neg h1]
        by_cases h2 : k < key
        · rw [if_pos h2, if_pos h2]
          exact_mod_cast ih (m + 1) hi (by omega) (by omega) hhi
        · rw [if_neg h2, if_neg h2]
          rfl
    · rw [if_neg (by omega : ¬(lo : ℤ) ≤ (hi : ℤ) - 1), if_neg hlt]
      rfl

end FindKey

/-! ### The search in the tree -/

/-- The keys that unused slots may hold. -/
def KeptKey (ts : List (Tok Key ℤ)) (leaf : Bool) (k : Key) : Prop :=
  if leaf then k ∈ (elems ts).map Prod.fst else k ∈ seps ts

/-- The keys of the nodes are kept keys. -/
theorem keysIn_kept {r lo hi h : ℕ} {T : BlockTree h} (hs : Shape r lo hi T) : KeysIn (KeptKey (toks T)) (descs T) := by
  intro d hd k hk
  cases d with
  | leaf l es =>
    simp only [descKeys, List.mem_map] at hk
    obtain ⟨x, hx, rfl⟩ := hk
    simp only [Desc.isLeaf, KeptKey, if_true]
    rw [elems_toks hs]
    exact List.mem_map_of_mem (List.mem_flatMap.mpr ⟨(l, es), mem_leaves.mpr hd, hx⟩)
  | inner l g ks cs =>
    simp only [Desc.isLeaf, KeptKey, Bool.false_eq_true, if_false]
    exact (mem_seps_toks hs).mpr ⟨_, hd, hk⟩

section FindNode

variable {s : Tree} {name : String} {ndx : Index} {ts : List (Tok Key ℤ)} {key : Key}

/-- What `node::find` reads at the position found in one node: the key itself if it is
there, and otherwise it takes a slot out of use for a match only if the key is kept. -/
theorem findNode_here {d : BlockDesc} {v : View} (hv : Open s ndx d.label v) (hr : v.Reads name d)
    (hs : ∀ x ∈ descKeys d, x.length = ndx.keySize) (hlt : (descKeys d).length < ndx.order)
    (hpos : 0 < (descKeys d).length) (hsort : (descKeys d).Pairwise (· ≤ ·))
    (hsize : ∀ b k, KeptKey ts b k → k.length = ndx.keySize)
    (htidy : ∀ i, (v.slots i).key = [] ∨ KeptKey ts v.isLeaf (v.slots i).key) :
    ∃ e, getElement d.label (find (descKeys d) key) s = .ok e s ∧
      e = (v.slots (find (descKeys d) key)).element v.isLeaf v.ndxName ndx.keySize ∧
      ((descKeys d)[find (descKeys d) key]? = some key → e.key = key) ∧
      (e.key = key → (descKeys d)[find (descKeys d) key]? = some key ∨
        find (descKeys d) key = (descKeys d).length ∧ KeptKey ts v.isLeaf key) := by
  have hf := find_found hsort key
  have hle := hf.le
  refine ⟨_, getElement_eq hv (by omega), rfl, fun hk => ?_, fun hk => ?_⟩
  · obtain ⟨e, he, hee, hek⟩ := getElement_key hv hr hs (by omega) hk
    rw [← hee, hek]
  · rcases Nat.lt_or_ge (find (descKeys d) key) (descKeys d).length with h | h
    · refine .inl ?_
      have hi := List.getElem?_eq_getElem h
      obtain ⟨e, he, hee, hek⟩ := getElement_key hv hr hs (by omega) hi
      rw [hi, ← hek, hee, hk]
    · have hn : find (descKeys d) key = (descKeys d).length := by omega
      rcases hf with hf | ⟨-, hlt', -⟩
      · exact .inl hf
      · refine .inr ⟨hn, ?_⟩
        rw [hn] at hk hlt'
        have hread : readKey ndx.keySize (v.slots (descKeys d).length).key = key := hk
        rcases htidy (descKeys d).length with hz | hz
        · -- an empty slot reads as zero bytes, and the key is above the last key of the node
          exfalso
          have hzero : key = List.replicate ndx.keySize 0 := by
            rw [← hread, hz, readKey]
            simp
          have hi : (descKeys d).length - 1 < (descKeys d).length := by omega
          have hlast := hlt' _ _ hi (List.getElem?_eq_getElem hi)
          rw [hzero, ← hs _ (List.getElem_mem hi)] at hlast
          exact not_lt_zeros hlast
        · rw [readKey_of_length (hsize _ _ hz)] at hread
          rwa [← hread]

/-- What `node::find` does with a key in a tree whose tokens are `ts`. -/
inductive Lookup (s : Tree) (name : String) (ts : List (Tok Key ℤ)) (key : Key) (ds : List BlockDesc) (fuel : ℕ) :
    EStateM.Result Err Tree Iterator → Prop where
  /-- The key is a separator: the search stops at an inner node. -/
  | inner (it : Iterator) (e : Element) (d : BlockDesc) (hk : key ∈ seps ts) (hd : d ∈ ds) (hl : d.isLeaf = false)
      (ho : it.offset = d.label) (he : it.element s = .ok e s) (hb : e.blockOffset = 0) (hr : e.rowPosition = 0) :
      Lookup s name ts key ds fuel (.ok it s)
  /-- The key is not a separator, and the search stops at an element with the key. -/
  | leaf (l : ℤ) (es : List (Key × ℤ)) (i : ℕ) (x : Key × ℤ) (hk : key ∉ seps ts) (hl : Desc.leaf l es ∈ ds)
      (hx : es[i]? = some x) (hxk : x.1 = key) : Lookup s name ts key ds fuel (.ok ⟨i, l, name⟩ s)
  /-- There is no such key. -/
  | absent (hk : key ∉ seps ts) (he : key ∉ (elems ts).map Prod.fst) : Lookup s name ts key ds fuel (endIndex fuel name s)

theorem Lookup.mono {ds ds' : List BlockDesc} {fuel : ℕ} {r : EStateM.Result Err Tree Iterator}
    (h : Lookup s name ts key ds fuel r) (hs : ∀ d ∈ ds, d ∈ ds') : Lookup s name ts key ds' fuel r := by
  cases h with
  | inner it e d hk hd hl ho he hb hr => exact .inner it e d hk (hs d hd) hl ho he hb hr
  | leaf l es i x hk hl hx hxk => exact .leaf l es i x hk (hs _ hl) hx hxk
  | absent hk he => exact .absent hk he

/-- `node::find` below a node that the search has reached. -/
theorem findNode_spec (hx : s.schema.getIndex name = some ndx) (hfit : ndx.Fits) (hkey : key.length = ndx.keySize)
    (hsize : ∀ b k, KeptKey ts b k → k.length = ndx.keySize) {lo hi : ℕ} (hlo : 1 ≤ lo) (hhi : hi < ndx.order) :
    {r h : ℕ} → {T : BlockTree h} → {fuel : ℕ} → 1 ≤ r → (∀ d ∈ descs T, Holds s name ndx.keySize d) →
    s.Tidy (KeptKey ts) ((descs T).map Desc.label) → Shape r lo hi T → Sorted (toks T) →
    (∀ k ∈ seps (toks T), k ∈ seps ts) → (key ∈ seps ts → key ∈ seps (toks T)) →
    (key ∈ (elems ts).map Prod.fst → key ∈ (elems (toks T)).map Prod.fst) → h < fuel →
    Lookup s name ts key (descs T) (fuel - h) (findNode fuel T.label key s)
  | r, 0, ⟨l, es⟩, fuel + 1, hr, hT, htidy, hs, hsort, hsub, hseps, helems, hf => by
    rw [shape_leaf] at hs
    have hH := hT (.leaf l es) (by simp)
    obtain ⟨v, hv, hvr⟩ := hH.open hx hfit
    have hlt : (descKeys (.leaf l es)).length < ndx.order := by simp only [descKeys, List.length_map]; omega
    have hsortk : (descKeys (.leaf l es)).Pairwise (· ≤ ·) := by simpa [Sorted, descKeys] using hsort
    obtain ⟨e, hget, -, h1, h2⟩ := findNode_here hv hvr hH.size hlt (by simp only [descKeys, List.length_map]; omega)
      hsortk hsize (htidy l (by simp) v hv.view)
    obtain ⟨nd, hnd, -, hleaf, -, hname⟩ := nodeAt_eq hv.view
    have hfk := findKey_eq hv hvr hH.size hlt.le key
    have hnsep : key ∉ seps ts := fun h => by simpa using hseps h
    simp only [Desc.label_leaf] at hget hnd hfk
    rw [label_leaf, findNode, run_bind hfk, run_bind hnd, run_bind hget]
    by_cases hek : e.key = key
    · rw [if_pos hek, run_pure, hname, hvr.2.1]
      have hmem : (descKeys (.leaf l es))[find (descKeys (.leaf l es)) key]? = some key := by
        rcases h2 hek with h | ⟨hn, hkept⟩
        · exact h
        · rw [hvr.1, KeptKey, if_pos rfl] at hkept
          by_contra hne
          refine (find_found hsortk key).notMem hne ?_
          simpa [descKeys] using helems hkept
      obtain ⟨x, hxi, hxk⟩ : ∃ x, es[find (descKeys (.leaf l es)) key]? = some x ∧ x.1 = key := by
        simpa only [descKeys, List.getElem?_map, Option.map_eq_some_iff] using hmem
      exact .leaf l es _ x hnsep (by simp) hxi hxk
    · rw [if_neg hek, if_pos (hleaf.trans hvr.1), hname, hvr.2.1]
      refine .absent hnsep fun h => ?_
      refine (find_found hsortk key).notMem (fun hm => hek (h1 hm)) ?_
      simpa [descKeys] using helems h
  | r, h + 1, ⟨l, ks, cs⟩, fuel + 1, hr, hT, htidy, hs, hsort, hsub, hseps, helems, hf => by
    obtain ⟨hks, hlen, hcs⟩ := shape_inner.mp hs
    have hH := hT (.inner l (h + 1) ks (cs.map label)) (by simp)
    obtain ⟨v, hv, hvr⟩ := hH.open hx hfit
    have hsortk : ks.Pairwise (· ≤ ·) := (Sorted.ordered hs hsort).1
    obtain ⟨e, hget, hee, h1, h2⟩ := findNode_here hv hvr hH.size (by simp only [descKeys]; omega)
      (by simp only [descKeys]; omega) hsortk hsize (htidy l (by simp) v hv.view)
    obtain ⟨nd, hnd, -, hleaf, -, hname⟩ := nodeAt_eq hv.view
    have hfk := findKey_eq hv hvr hH.size (by simp only [descKeys]; omega) key
    simp only [Desc.label_inner, descKeys] at hget hnd hfk h1 h2 hv
    rw [label_inner, findNode, run_bind hfk, run_bind hnd, run_bind hget]
    by_cases hek : e.key = key
    · rw [if_pos hek, run_pure]
      have hks' : key ∈ seps ts := by
        rcases h2 hek with h | ⟨-, hkept⟩
        · refine hsub key ?_
          rw [toks_inner, mem_seps_weave (by simpa using hlen)]
          exact .inl (List.mem_of_getElem? h)
        · simpa [hvr.1, KeptKey] using hkept
      have hel : Iterator.element ⟨find ks key, l, nd.ndxName⟩ s = .ok e s := by
        refine (run_bind (getNode_eq hH.aligned hv.view _)).trans ?_
        rw [deref, pure_bind]
        exact hget
      refine .inner _ e _ hks' (List.mem_cons_self ..) rfl rfl hel ?_ ?_
      · rw [hee, descKeys]
        simp [Slot.element, hvr.1]
      · rw [hee, descKeys]
        simp [Slot.element, hvr.1]
    · have hne : ks[find ks key]? ≠ some key := fun hm => hek (h1 hm)
      obtain ⟨c, X, Y, hc, htoks, hX, hY⟩ := lookup_hole hsort hlen (find_found hsortk key) hne
      have hchild := childAt_holds hx hfit hT (n := find ks key) (by have := (find_found hsortk key).le; omega) hc
      rw [if_neg hek, if_neg (by rw [hleaf, hvr.1]; simp), run_bind hchild, Nat.add_sub_add_right]
      rw [htoks] at hsort hsub hseps helems
      have hcm := List.mem_of_getElem? hc
      refine (findNode_spec hx hfit hkey hsize hlo hhi hlo (fun d hd => hT d (descs_child hc d hd)) (fun o ho => ?_)
        (hcs c hcm) hsort.left.right (fun k hk => hsub k (by simp [hk])) (fun hk => ?_) (fun hk => ?_) (by omega)).mono
        (descs_child hc)
      · obtain ⟨d, hd, rfl⟩ := List.mem_map.mp ho
        exact htidy _ (List.mem_map_of_mem (descs_child hc d hd))
      · have := hseps hk
        rw [seps_append, seps_append, List.mem_append, List.mem_append] at this
        rcases this with (h | h) | h
        · exact absurd (hX key (mem_inorder.mpr (.inl h))) (lt_irrefl _)
        · exact h
        · exact absurd (hY key (mem_inorder.mpr (.inl h))) (lt_irrefl _)
      · have := helems hk
        rw [elems_append, elems_append, List.map_append, List.map_append, List.mem_append, List.mem_append] at this
        rcases this with (h | h) | h
        · exact absurd (hX key (mem_inorder.mpr (.inr h))) (lt_irrefl _)
        · exact h
        · exact absurd (hY key (mem_inorder.mpr (.inr h))) (lt_irrefl _)

end FindNode

/-! ### `tree::find` -/

/-- `tree::find` gives the iterator at the element that was inserted with the key, and the
end iterator if there is none. -/
def FindsRight (s : Tree) (name : String) (es : List Element) (key : Key) : Prop :=
  ∃ n, ∀ fuel, n ≤ fuel → ∃ it en, findIndex fuel name key s = .ok it s ∧ endIndex fuel name s = .ok en s ∧
    (∀ e ∈ es, e.key = key → it.eq en = false ∧
      ∃ e', it.element s = .ok e' s ∧ e'.blockOffset = e.blockOffset ∧ e'.rowPosition = e.rowPosition) ∧
    ((∀ e ∈ es, e.key ≠ key) → it.eq en = true)

/-- The key is that of an inner node. -/
def Separates (T : Option ((h : ℕ) × BlockTree h)) (key : Key) : Prop :=
  ∃ d ∈ treeDescs T, d.isLeaf = false ∧ key ∈ descKeys d

section FindIndex

variable {s : Tree} {name : String} {ndx : Index} {t lo : ℕ} {back : ℕ → Prop} {T : Option ((h : ℕ) × BlockTree h)}

theorem separates_iff (hval : Valid t lo T) (key : Key) : Separates T key ↔ key ∈ seps (treeToks T) := by
  cases T with
  | none => simp [Separates, treeDescs, treeToks]
  | some T =>
    rw [treeToks, mem_seps_toks (hval.shape T rfl)]
    refine exists_congr fun d => and_congr_right fun _ => ?_
    cases d <;> simp [Desc.isLeaf, Desc.seps, descKeys]

/-- `tree::find` in the tree of an index. -/
theorem findIndex_lookup {T : (h : ℕ) × BlockTree h} (hreg : ndx.Regular t) (hrep : IndexRep s name ndx back (some T))
    (hval : Valid t lo (some T)) (hlo : 1 ≤ lo)
    (htidy : s.Tidy (KeptKey (toks T.2)) ((descs T.2).map Desc.label)) {key : Key} (hkey : key.length = ndx.keySize)
    {fuel : ℕ} (hf : T.1 < fuel) :
    Lookup s name (toks T.2) key (descs T.2) (fuel - T.1) (findIndex fuel name key s) := by
  have hord := hreg.order
  have ht2 := hreg.two_le
  have hs := hval.shape T rfl
  obtain ⟨hneg, hget⟩ := getRoot_eq hrep
  have hsize : ∀ b k, KeptKey (toks T.2) b k → k.length = ndx.keySize := by
    intro b k hk
    cases b with
    | true =>
      simp only [KeptKey, if_true] at hk
      rw [elems_toks hs] at hk
      obtain ⟨x, hx, rfl⟩ := List.mem_map.mp hk
      obtain ⟨⟨l, es⟩, hl, hx⟩ := List.mem_flatMap.mp hx
      exact (hrep.rep.holds (.leaf l es) (mem_leaves.mp hl)).size _ (List.mem_map_of_mem hx)
    | false =>
      simp only [KeptKey, Bool.false_eq_true, if_false] at hk
      obtain ⟨d, hd, hk⟩ := (mem_seps_toks hs).mp hk
      refine (hrep.rep.holds d hd).size k ?_
      cases d with
      | leaf l es => simp [Desc.seps] at hk
      | inner l g ks cs => exact hk
  rw [findIndex, run_bind (getIndex_eq hrep.index), if_neg hneg, run_bind (getIndex_eq hrep.index), run_bind hget, deref,
    pure_bind]
  exact findNode_spec hrep.index hreg.fits hkey hsize hlo (by omega) (Nat.le_refl 1) hrep.rep.holds htidy hs
    hval.sorted (fun _ h => h) id id hf

/-- In an index of different keys `tree::find` is right about a key exactly if the key is
not that of an inner node, or else is located where an inner node seems to locate it. -/
theorem findsRight_iff {es : List Element} (hreg : ndx.Regular t) (hrep : IndexRep s name ndx back T)
    (hval : Valid t lo T) (hlo : 1 ≤ lo) (htidy : s.Tidy (KeptKey (treeToks T)) ((treeDescs T).map Desc.label))
    (hes : ∀ e ∈ es, e.ndxName = name ∧ e.Located) (hperm : (elems (treeToks T)).Perm (es.map Element.entry))
    (hdist : (es.map Element.key).Nodup) {key : Key} (hkey : key.length = ndx.keySize) :
    FindsRight s name es key ↔
      ¬Separates T key ∨ ∃ e ∈ es, e.key = key ∧ e.blockOffset = 0 ∧ e.rowPosition = 0 := by
  rw [separates_iff hval]
  have hord := hreg.order
  cases T with
  | none =>
    have hroot : ndx.root < 0 := hrep.root
    have hnil : es = [] := by simpa [treeToks] using hperm
    subst hnil
    simp only [treeToks, seps_nil, List.not_mem_nil, not_false_eq_true, true_or, iff_true]
    refine ⟨0, fun fuel _ => ⟨⟨0, invalidSiblingRef, name⟩, ⟨0, invalidSiblingRef, name⟩, ?_, ?_, by simp, by simp [Iterator.eq]⟩⟩
    · rw [findIndex, run_bind (getIndex_eq hrep.index), if_pos hroot]
      rfl
    · rw [endIndex, run_bind (getIndex_eq hrep.index), if_pos hroot]
      rfl
  | some T =>
    have hs := hval.shape T rfl
    have hmem : ∀ {x : Key × ℤ}, x ∈ elems (toks T.2) ↔ ∃ e ∈ es, e.entry = x := fun {x} =>
      hperm.mem_iff.trans List.mem_map
    have huniq : ∀ e ∈ es, ∀ e' ∈ es, e.key = e'.key → e = e' := fun e he e' he' =>
      List.inj_on_of_nodup_map hdist he he'
    obtain ⟨⟨ll, les⟩, hlast⟩ : ∃ x, (leaves T.2).getLast? = some x :=
      ⟨_, List.getLast?_eq_some_getLast (leaves_ne_nil hs)⟩
    have hend : ∀ fuel, T.1 < fuel → endIndex fuel name s = .ok ⟨les.length, ll, name⟩ s := fun fuel hf =>
      endIndex_eq hrep hreg.fits hs (by omega) hlast hf
    have hlmem : Desc.leaf ll les ∈ descs T.2 := mem_leaves.mp (List.mem_of_getLast? hlast)
    have hinner : ∀ (it : Iterator) (d : BlockDesc), d ∈ descs T.2 → d.isLeaf = false → it.offset = d.label →
        it.eq ⟨les.length, ll, name⟩ = false := by
      intro it d hd hl ho
      have hne : it.offset ≠ ll := fun e => by
        rw [hrep.rep.eq_of_label hd hlmem (ho.symm.trans e)] at hl
        simp [Desc.isLeaf] at hl
      simp [Iterator.eq, hne]
    constructor
    · rintro ⟨n, hfind⟩
      obtain ⟨it, en, hit, hen, hfound, habs⟩ := hfind (n + T.1 + 1) (by omega)
      rw [hend _ (by omega)] at hen
      obtain ⟨rfl, -⟩ := EStateM.Result.ok.inj hen
      have hl := @findIndex_lookup _ _ _ _ _ _ _ hreg hrep hval hlo htidy _ hkey (n + T.1 + 1) (by omega)
      generalize hr : findIndex (n + T.1 + 1) name key s = r at hl
      cases hl with
      | inner it' e' d hk hd hleaf ho he hb hrow =>
        obtain ⟨rfl, -⟩ := EStateM.Result.ok.inj (hr.symm.trans hit)
        by_cases h : ∀ e ∈ es, e.key ≠ key
        · have := habs h
          rw [hinner it' d hd hleaf ho] at this
          simp at this
        · push Not at h
          obtain ⟨e, hee, hek⟩ := h
          obtain ⟨-, e'', he'', h1, h2⟩ := hfound e hee hek
          obtain ⟨rfl, -⟩ := EStateM.Result.ok.inj (he.symm.trans he'')
          exact .inr ⟨e, hee, hek, h1.symm.trans hb, h2.symm.trans hrow⟩
      | leaf l es' i x hk hl hx hxk => exact .inl hk
      | absent hk he => exact .inl hk
    · intro hcond
      refine ⟨2 * T.1 + 2, fun fuel hf => ?_⟩
      have hl := @findIndex_lookup _ _ _ _ _ _ _ hreg hrep hval hlo htidy _ hkey fuel (by omega)
      generalize hr : findIndex fuel name key s = r at hl
      cases hl with
      | inner it e' d hk hd hleaf ho he hb hrow =>
        obtain ⟨e0, he0, hek0, h1, h2⟩ := hcond.resolve_left fun h => h hk
        have hne := hinner it d hd hleaf ho
        refine ⟨it, _, rfl, hend fuel (by omega), fun e hee hek => ⟨hne, e', he, ?_, ?_⟩, fun h => absurd hek0 (h e0 he0)⟩
        · rw [huniq e hee e0 he0 (hek.trans hek0.symm), h1, hb]
        · rw [huniq e hee e0 he0 (hek.trans hek0.symm), h2, hrow]
      | leaf l es' i x hk hl hx hxk =>
        have hi := (List.getElem?_eq_some_iff.mp hx).1
        have hH := hrep.rep.holds _ hl
        have hle : es'.length < ndx.order := by
          have := shape_desc_le hs _ hl
          have ht2 := hreg.two_le
          simp only [descKeys, List.length_map] at this
          omega
        obtain ⟨v, hv, -⟩ := hH.reads
        have hel : Iterator.element ⟨i, l, name⟩ s = .ok (Element.ofEntry name x) s := by
          refine (run_bind (getNode_eq hH.aligned hv _)).trans ?_
          rw [deref, pure_bind]
          exact getElement_leaf hrep.index hreg.fits hH hx (by omega)
        have hne : Iterator.eq ⟨i, l, name⟩ ⟨les.length, ll, name⟩ = false := by
          by_cases hll : l = ll
          · have hd := hrep.rep.eq_of_label hl hlmem hll
            obtain ⟨-, rfl⟩ := Desc.leaf.inj hd
            have : (i : ℤ) ≠ es'.length := by omega
            simp [Iterator.eq, this]
          · simp [Iterator.eq, hll]
        have hxm : x ∈ elems (toks T.2) := by
          rw [elems_toks hs]
          exact List.mem_flatMap.mpr ⟨(l, es'), mem_leaves.mpr hl, List.mem_of_getElem? hx⟩
        obtain ⟨e0, he0, rfl⟩ := hmem.mp hxm
        obtain ⟨rfl, hloc⟩ := hes e0 he0
        rw [hloc.ofEntry] at hel
        refine ⟨_, _, rfl, hend fuel (by omega), fun e hee hek => ⟨hne, e0, hel, ?_⟩, fun h => absurd hxk (h e0 he0)⟩
        rw [huniq e hee e0 he0 (hek.trans hxk.symm)]
        exact ⟨rfl, rfl⟩
      | absent hk he =>
        have hno : ∀ e ∈ es, e.key ≠ key := fun e hee hek =>
          he (List.mem_map.mpr ⟨e.entry, hmem.mpr ⟨e, hee, rfl⟩, hek⟩)
        have hen := hend (fuel - T.1) (by omega)
        exact ⟨_, _, hen, hend fuel (by omega), fun e hee hek => absurd hek (hno e hee), fun _ => by simp [Iterator.eq]⟩

/-- The unused slots of an index built by insertions. -/
theorem IndexGrown.kept {W fs : List ℤ} {s' : Tree} {lim : ℤ} (hg : IndexGrown W s name none s' T fs lim)
    (hval : Valid t lo T) : s'.Tidy (KeptKey (treeToks T)) ((treeDescs T).map Desc.label) := by
  refine hg.tidy _ ?_ (by simp [Tree.Tidy, treeDescs])
  cases T with
  | none => simp [KeysIn, treeDescs]
  | some T => exact keysIn_kept (hval.shape T rfl)

/-- After any run of insertions of different keys into an empty index, and for every key:
`tree::find` is right about it exactly if no inner node has it as a key, or the row
is located where an inner node seems to locate it. -/
theorem insertAll_findsRight_iff {fs : List ℤ} {lim : ℤ} (hreg : ndx.Regular t)
    (hx : s.schema.getIndex name = some ndx) (hempty : ndx.root < 0) (hpool : Pool s fs lim) {es : List Element}
    (hes : ∀ e ∈ es, e.For name ndx ∧ e.Located) (hdist : (es.map Element.key).Nodup) {fuel : ℕ}
    (hfuel : es.length ≤ fuel) :
    ∃ s' r T, insertAll fuel es s = .ok () s' ∧ IndexRep s' name { ndx with root := r } (fun _ => True) T ∧
      ∀ key : Key, key.length = ndx.keySize → (FindsRight s' name es key ↔
        ¬Separates T key ∨ ∃ e ∈ es, e.key = key ∧ e.blockOffset = 0 ∧ e.rowPosition = 0) := by
  obtain ⟨s', r, fs', lim', hrun, hrep', hg⟩ := @insertAll_empty _ _ _ (fun _ => True) [] _ _ _ hreg hx hempty hpool _ (fun e he => (hes e he).1) _ hfuel ⟨by simp, by simp⟩
  obtain ⟨hval, hperm⟩ := (valid_none (ι := ℤ) (κ := Key) (α := ℤ) t (t - 1)).insertMany hreg.two_le (Nat.le_refl _)
    (es.map Element.entry) (stream fs lim)
  have ht2 := hreg.two_le
  have hreg' : ({ ndx with root := r } : Index).Regular t := ⟨hreg.fits, hreg.order, hreg.two_le⟩
  exact ⟨s', r, _, hrun, hrep', fun key hkey => findsRight_iff hreg' hrep' hval (by omega) (hg.kept hval)
    (fun e he => ⟨(hes e he).1.1, (hes e he).2⟩) (by simpa [treeToks] using hperm) hdist hkey⟩

end FindIndex

/-- Two insertions into a new table. -/
theorem newTable_findsRight_iff : ∃ s' r T, insertAll 2 [repeated pkNdx 7, repeated pkNdx 3] newTable = .ok () s' ∧
    IndexRep s' pkNdx { (⟨"NDX_000", 4, 8000, -1, ["name"]⟩ : Index) with root := r } (fun _ => True) T ∧
    ∀ key : Key, key.length = 8000 → (FindsRight s' pkNdx [repeated pkNdx 7, repeated pkNdx 3] key ↔
      ¬Separates T key ∨ ∃ e ∈ [repeated pkNdx 7, repeated pkNdx 3], e.key = key ∧ e.blockOffset = 0 ∧ e.rowPosition = 0) :=
  @insertAll_findsRight_iff _ _ ⟨"NDX_000", 4, 8000, -1, ["name"]⟩ 2 _ _ ⟨by decide, rfl, by decide⟩ rfl (by decide) (pool_nil (by decide) (by decide)) _ (by
      intro e he
      simp only [List.mem_cons, List.not_mem_nil, or_false] at he
      rcases he with rfl | rfl <;> exact repeated_for rfl _) (by decide +kernel) _ (by decide)

/-- Four elements in order. -/
def fourRows : List Element := [repeated pkNdx 1, repeated pkNdx 2, repeated pkNdx 3, repeated pkNdx 4]

/-- The key that goes up when the root leaf is split is found in the root, without the
location of its row. -/
theorem separator_not_found : ∃ s', insertAll 4 fourRows newTable = .ok () s' ∧
    ¬FindsRight s' pkNdx fourRows (repeated pkNdx 2).key := by
  have hreg : (⟨"NDX_000", 4, 8000, -1, ["name"]⟩ : Index).Regular 2 := ⟨by decide, rfl, by decide⟩
  have hes : ∀ e ∈ fourRows, e.For pkNdx ⟨"NDX_000", 4, 8000, -1, ["name"]⟩ ∧ e.Located := by
    intro e he
    simp only [fourRows, List.mem_cons, List.not_mem_nil, or_false] at he
    rcases he with rfl | rfl | rfl | rfl <;> exact repeated_for rfl _
  obtain ⟨s', r, fs', lim', hrun, hrep', hg⟩ := @insertAll_empty _ _ _ (fun _ => True) [] _ _ _ hreg rfl (by decide) (pool_nil (s := newTable) (by decide) (by decide)) _ (fun e he => (hes e he).1) 4 (by decide) ⟨by simp, by simp⟩
  obtain ⟨hval, hperm⟩ := (valid_none (ι := ℤ) (κ := Key) (α := ℤ) 2 1).insertMany hreg.two_le (Nat.le_refl _)
    (fourRows.map Element.entry) (stream [] newTable.schema.header.nextOffset)
  have hreg' : (⟨"NDX_000", 4, 8000, r, ["name"]⟩ : Index).Regular 2 := ⟨hreg.fits, hreg.order, hreg.two_le⟩
  refine ⟨s', hrun, fun h => ?_⟩
  have hiff := findsRight_iff hreg' hrep' hval (Nat.le_refl 1) (hg.kept hval)
    (fun e he => ⟨(hes e he).1.1, (hes e he).2⟩) (by simpa [treeToks] using hperm) (by decide +kernel)
    (List.length_replicate : (repeated pkNdx 2).key.length = 8000)
  rcases hiff.mp h with hsep | ⟨e, he, -, -, hrow⟩
  · refine hsep ⟨.inner 32768 1 [(repeated pkNdx 2).key] [0, 65536], ?_, rfl, List.mem_cons_self ..⟩
    have hhead : (treeDescs (insertMany 2 (fourRows.map Element.entry) (stream [] 0)
        (none : Option ((h : ℕ) × BlockTree h)))).head? =
        some (.inner 32768 1 [(repeated pkNdx 2).key] [0, 65536]) := by
      rfl
    exact List.mem_of_head? hhead
  · simp only [fourRows, List.mem_cons, List.not_mem_nil, or_false] at he
    rcases he with rfl | rfl | rfl | rfl <;> exact absurd (show (24 : ℤ) = 0 from hrow) (by decide)

end RedB
