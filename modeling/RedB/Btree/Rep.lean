import RedB.Btree.Split
import RedB.Theory.Insert
import RedB.Theory.Links

/-!
# What a state holds of a tree

A B+tree with block offsets for labels, keys of the index and combined row locations
is a picture of a part of the state. `Rep` says that the picture is true: every node of
it is there and says what the picture says, no offset is used twice, and on every level
the next-sibling fields lead from each node to the one on its right. The
prev-sibling fields are required to lead back on the levels that `back` picks, since
not all operations of the source maintain them on all levels.
-/

namespace RedB

open BPlus Links

/-- A tree of blocks. -/
abbrev BlockTree := BTree ℤ Key ℤ

/-- The description of a block. -/
abbrev BlockDesc := Desc ℤ Key ℤ

/-- The node reads as described. -/
def View.Reads (v : View) (name : String) : BlockDesc → Prop
  | .leaf _ es => v.isLeaf = true ∧ v.ndxName = name ∧ v.numKey = es.length ∧
      ∀ (i : ℕ) e, es[i]? = some e → v.slots i = ⟨e.2, e.1⟩
  | .inner _ _ ks cs => v.isLeaf = false ∧ v.ndxName = name ∧ v.numKey = ks.length ∧
      (∀ (i : ℕ) k, ks[i]? = some k → (v.slots i).key = k) ∧ ∀ (i : ℕ) c, cs[i]? = some c → (v.slots i).ref = c

/-- The keys of a node. -/
def descKeys : BlockDesc → List Key
  | .leaf _ es => es.map Prod.fst
  | .inner _ _ ks _ => ks

/-- No node has more keys than the shape allows. -/
theorem shape_desc_le {r lo hi : ℕ} : {h : ℕ} → {T : BlockTree h} → BTree.Shape r lo hi T →
    ∀ d ∈ T.descs, (descKeys d).length ≤ hi
  | 0, ⟨l, es⟩, hs, d, hd => by
    obtain rfl : d = .leaf l es := by simpa using hd
    simpa [descKeys] using (BTree.shape_leaf.mp hs).2
  | h + 1, ⟨l, ks, cs⟩, hs, d, hd => by
    obtain ⟨hks, -, hcs⟩ := BTree.shape_inner.mp hs
    rw [BTree.descs_inner, List.mem_cons, List.mem_flatMap] at hd
    rcases hd with rfl | ⟨c, hc, hd⟩
    · exact hks.2
    · exact shape_desc_le (hcs c hc) d hd

/-- The block is there and reads as described, and its keys have the key size. -/
structure Holds (s : Tree) (name : String) (k : ℕ) (d : BlockDesc) : Prop where
  /-- The label is the offset of a block. -/
  aligned : Aligned d.label
  /-- The node. -/
  reads : ∃ v, s.view d.label = some v ∧ v.Reads name d
  /-- The key size. -/
  size : ∀ x ∈ descKeys d, x.length = k

/-- The next sibling of the node at `o`. -/
def Tree.nextOf (s : Tree) (o : ℤ) : Option ℤ :=
  (s.view o).bind fun v => if v.next = invalidSiblingRef then none else some v.next

/-- The previous sibling of the node at `o`. -/
def Tree.prevOf (s : Tree) (o : ℤ) : Option ℤ :=
  (s.view o).bind fun v => if v.prev = invalidSiblingRef then none else some v.prev

theorem Tree.nextOf_eq {s : Tree} {o : ℤ} {v : View} (h : s.view o = some v) :
    s.nextOf o = if v.next = invalidSiblingRef then none else some v.next := by
  rw [Tree.nextOf, h]
  rfl

theorem Tree.prevOf_eq {s : Tree} {o : ℤ} {v : View} (h : s.view o = some v) :
    s.prevOf o = if v.prev = invalidSiblingRef then none else some v.prev := by
  rw [Tree.prevOf, h]
  rfl

/-- The nodes described by `ds` are in the state. -/
structure Rep (s : Tree) (name : String) (k : ℕ) (back : ℕ → Prop) (ds : List BlockDesc) : Prop where
  /-- Every node is there. -/
  holds : ∀ d ∈ ds, Holds s name k d
  /-- No two nodes are in one block. -/
  nodup : (ds.map Desc.label).Nodup
  /-- The next-sibling fields of every level. -/
  fwd : ∀ h, Fwd s.nextOf (level h ds)
  /-- The prev-sibling fields of the levels that `back` picks. -/
  bwd : ∀ h, back h → Bwd s.prevOf none (level h ds)

/-! ### Framing -/

/-- Two views that differ at most in their sibling fields. -/
def View.Same (v w : View) : Prop :=
  v.isLeaf = w.isLeaf ∧ v.numKey = w.numKey ∧ v.ndxName = w.ndxName ∧ v.slots = w.slots

theorem View.Reads.same {v w : View} {name : String} {d : BlockDesc} (h : v.Reads name d) (hs : w.Same v) :
    w.Reads name d := by
  obtain ⟨h1, h2, h3, h4⟩ := hs
  cases d with
  | leaf l es => simpa only [View.Reads, h1, h2, h3, h4] using h
  | inner l g ks cs => simpa only [View.Reads, h1, h2, h3, h4] using h

/-- A node that has changed at most in its sibling fields. -/
theorem Holds.same {s s' : Tree} {name : String} {k : ℕ} {d : BlockDesc} (h : Holds s name k d)
    (hs : ∀ v, s.view d.label = some v → ∃ w, s'.view d.label = some w ∧ w.Same v) : Holds s' name k d := by
  obtain ⟨v, hv, hreads⟩ := h.reads
  obtain ⟨w, hw, hsame⟩ := hs v hv
  exact ⟨h.aligned, ⟨w, hw, hreads.same hsame⟩, h.size⟩

theorem Holds.congr {s s' : Tree} {name : String} {k : ℕ} {d : BlockDesc} (h : Holds s name k d)
    (hs : s'.view d.label = s.view d.label) : Holds s' name k d :=
  h.same fun v hv => ⟨v, hs.trans hv, rfl, rfl, rfl, rfl⟩

theorem mem_level {h : ℕ} {ds : List BlockDesc} {o : ℤ} :
    o ∈ level h ds ↔ ∃ d ∈ ds, d.height = h ∧ d.label = o := by
  simp [level, and_assoc]

/-- Nodes that are left alone stay what they are. -/
theorem Rep.frame {s s' : Tree} {name : String} {k : ℕ} {back : ℕ → Prop} {ds : List BlockDesc}
    (h : Rep s name k back ds) (hv : ∀ d ∈ ds, s'.view d.label = s.view d.label) : Rep s' name k back ds where
  holds d hd := (h.holds d hd).congr (hv d hd)
  nodup := h.nodup
  fwd g := (h.fwd g).congr fun o ho => by
    obtain ⟨d, hd, -, rfl⟩ := mem_level.mp ho
    rw [Tree.nextOf, Tree.nextOf, hv d hd]
  bwd g hg := (h.bwd g hg).congr fun o ho => by
    obtain ⟨d, hd, -, rfl⟩ := mem_level.mp ho
    rw [Tree.prevOf, Tree.prevOf, hv d hd]

/-- Two descriptions of one offset are one. -/
theorem Rep.eq_of_label {s : Tree} {name : String} {k : ℕ} {back : ℕ → Prop} {ds : List BlockDesc}
    (h : Rep s name k back ds) {d d' : BlockDesc} (hd : d ∈ ds) (hd' : d' ∈ ds) (he : d.label = d'.label) : d = d' :=
  List.inj_on_of_nodup_map h.nodup hd hd' he

/-- The next sibling of a node is a node of the same level. -/
theorem Rep.next_mem {s : Tree} {name : String} {k : ℕ} {back : ℕ → Prop} {ds : List BlockDesc}
    (h : Rep s name k back ds) {d : BlockDesc} (hd : d ∈ ds) {v : View} (hv : s.view d.label = some v)
    (hn : v.next ≠ invalidSiblingRef) :
    ∃ d' ∈ ds, d'.height = d.height ∧ d'.label = v.next ∧ d'.label ≠ d.label := by
  obtain ⟨X, Y, hXY⟩ := List.append_of_mem (mem_level.mpr ⟨d, hd, rfl, rfl⟩)
  have hf := h.fwd d.height
  rw [hXY] at hf
  have hnext := hf.next
  rw [Tree.nextOf_eq hv, if_neg hn] at hnext
  obtain ⟨Y', rfl⟩ := List.head?_eq_some_iff.mp hnext.symm
  have hmem : v.next ∈ level d.height ds := by simp [hXY]
  obtain ⟨d', hd', hh, hl⟩ := mem_level.mp hmem
  refine ⟨d', hd', hh, hl, ?_⟩
  have hnd : (level d.height ds).Nodup := (List.filter_sublist.map _).nodup h.nodup
  rw [hXY, List.nodup_append, List.nodup_cons] at hnd
  rw [hl]
  exact fun e => hnd.2.1.1 (e ▸ List.mem_cons_self ..)

theorem rep_nil (s : Tree) (name : String) (k : ℕ) (back : ℕ → Prop) : Rep s name k back [] :=
  ⟨by simp, List.nodup_nil, fun _ => trivial, fun _ _ => trivial⟩

/-- A node without siblings on a level of its own. -/
theorem Rep.cons {s : Tree} {name : String} {k : ℕ} {back : ℕ → Prop} {ds : List BlockDesc} {d : BlockDesc}
    (h : Rep s name k back ds) (hd : Holds s name k d) (hl : d.label ∉ ds.map Desc.label)
    (hh : ∀ c ∈ ds, c.height ≠ d.height) (hn : s.nextOf d.label = none) (hp : s.prevOf d.label = none) :
    Rep s name k back (d :: ds) := by
  have hlev : level d.height ds = [] := by
    rw [level, List.filter_eq_nil_iff.mpr (by simpa using hh), List.map_nil]
  constructor
  · intro c hc
    rcases List.mem_cons.mp hc with rfl | hc
    · exact hd
    · exact h.holds c hc
  · exact List.nodup_cons.mpr ⟨hl, h.nodup⟩
  · intro g
    rw [level_cons]
    split
    · rename_i hg
      subst hg
      rw [hlev]
      exact ⟨hn, trivial⟩
    · exact h.fwd g
  · intro g hg
    rw [level_cons]
    split
    · rename_i hg'
      subst hg'
      rw [hlev]
      exact ⟨hp, trivial⟩
    · exact h.bwd g hg

/-! ### A node put behind another -/

/-- How a node that was there before is changed when a new node `f` is linked behind the
node at `prev`, the parent being at `off`. -/
structure Linked (s s' : Tree) (off prev f o : ℤ) : Prop where
  /-- Only the parent and the split node read differently. -/
  same : o ≠ off → o ≠ prev → ∀ v, s.view o = some v → ∃ w, s'.view o = some w ∧ w.Same v
  /-- Only the split node has a new next sibling. -/
  next : o ≠ prev → s'.nextOf o = s.nextOf o
  /-- Only the old neighbour has a new previous sibling. -/
  prev : s'.prevOf o = if s.nextOf prev = some o then some f else s.prevOf o

/-- The labels of a picture in which a node `dR` has been put behind another. -/
theorem labels_split {L X D1 D2 Y : List BlockDesc} {dP dP' dC dL dR : BlockDesc} (hP : dP'.label = dP.label)
    (hL : dL.label = dC.label) :
    ((L ++ dP' :: (X ++ dL :: (D1 ++ dR :: (D2 ++ Y)))).map Desc.label).Perm
      (dR.label :: (L ++ dP :: (X ++ dC :: (D1 ++ (D2 ++ Y)))).map Desc.label) := by
  have e1 : (L ++ dP' :: (X ++ dL :: (D1 ++ dR :: (D2 ++ Y)))).map Desc.label =
      (L ++ dP :: (X ++ dC :: D1)).map Desc.label ++ dR.label :: (D2 ++ Y).map Desc.label := by
    simp [hP, hL]
  have e2 : (L ++ dP :: (X ++ dC :: D1)).map Desc.label ++ (D2 ++ Y).map Desc.label =
      (L ++ dP :: (X ++ dC :: (D1 ++ (D2 ++ Y)))).map Desc.label := by
    simp
  rw [e1, ← e2]
  exact List.perm_middle

/-- The picture after a node has been split: `dC` has become `dL` and `dR`, and the parent
`dP` has become `dP'`. -/
theorem Rep.split {s s' : Tree} {name : String} {k : ℕ} {back : ℕ → Prop} {L X D1 D2 Y : List BlockDesc}
    {dP dP' dC dL dR : BlockDesc} (h : Rep s name k back (L ++ dP :: (X ++ dC :: (D1 ++ (D2 ++ Y)))))
    (hP : dP'.label = dP.label) (hP' : dP'.height = dP.height) (hL : dL.label = dC.label)
    (hL' : dL.height = dC.height) (hR' : dR.height = dC.height) (hD : ∀ d ∈ D1 ++ D2, d.height < dC.height)
    (hf : dR.label ∉ (L ++ dP :: (X ++ dC :: (D1 ++ (D2 ++ Y)))).map Desc.label)
    (hlink : ∀ d ∈ L ++ dP :: (X ++ dC :: (D1 ++ (D2 ++ Y))), Linked s s' dP.label dC.label dR.label d.label)
    (hnext : s'.nextOf dC.label = some dR.label) (hnext' : s'.nextOf dR.label = s.nextOf dC.label)
    (hprev : s'.prevOf dR.label = some dC.label) (hhP : Holds s' name k dP') (hhL : Holds s' name k dL)
    (hhR : Holds s' name k dR) :
    Rep s' name k back (L ++ dP' :: (X ++ dL :: (D1 ++ dR :: (D2 ++ Y)))) := by
  have hmemC : dC ∈ L ++ dP :: (X ++ dC :: (D1 ++ (D2 ++ Y))) := by simp
  have hmemP : dP ∈ L ++ dP :: (X ++ dC :: (D1 ++ (D2 ++ Y))) := by simp
  have hnd := h.nodup
  have hlev1 : level dC.height (L ++ dP :: (X ++ dC :: (D1 ++ (D2 ++ Y)))) =
      level dC.height (L ++ dP :: X) ++ dC.label :: level dC.height Y := by
    have h1 : level dC.height D1 = [] := level_eq_nil fun d hd => hD d (by simp [hd])
    have h2 : level dC.height D2 = [] := level_eq_nil fun d hd => hD d (by simp [hd])
    simp only [level_append, level_cons, h1, h2, if_true, List.nil_append, List.append_assoc]
    split <;> simp
  have hlev2 : level dC.height (L ++ dP' :: (X ++ dL :: (D1 ++ dR :: (D2 ++ Y)))) =
      level dC.height (L ++ dP :: X) ++ dC.label :: dR.label :: level dC.height Y := by
    have h1 : level dC.height D1 = [] := level_eq_nil fun d hd => hD d (by simp [hd])
    have h2 : level dC.height D2 = [] := level_eq_nil fun d hd => hD d (by simp [hd])
    simp only [level_append, level_cons, h1, h2, hP, hP', hL, hL', hR', if_true, List.nil_append,
      List.append_assoc]
    split <;> simp
  have hlev3 : ∀ g, g ≠ dC.height → level g (L ++ dP' :: (X ++ dL :: (D1 ++ dR :: (D2 ++ Y)))) =
      level g (L ++ dP :: (X ++ dC :: (D1 ++ (D2 ++ Y)))) := by
    intro g hg
    simp only [level_append, level_cons, hP, hP', hL', hR', if_neg hg.symm]
  have hndl : (level dC.height (L ++ dP :: X) ++ dC.label :: level dC.height Y).Nodup := by
    rw [← hlev1]
    exact (List.filter_sublist.map _).nodup hnd
  have hmem1 : ∀ b ∈ level dC.height (L ++ dP :: X) ++ dC.label :: level dC.height Y,
      ∃ d ∈ L ++ dP :: (X ++ dC :: (D1 ++ (D2 ++ Y))), d.height = dC.height ∧ d.label = b := by
    intro b hb
    rw [← hlev1] at hb
    exact mem_level.mp hb
  have hfwd := h.fwd dC.height
  rw [hlev1] at hfwd
  constructor
  · intro d hd
    have hother : ∀ d ∈ L ++ dP :: (X ++ dC :: (D1 ++ (D2 ++ Y))), d ≠ dP → d ≠ dC → Holds s' name k d := by
      intro d hd hdP hdC
      refine (h.holds d hd).same ((hlink d hd).same ?_ ?_)
      · exact fun e => hdP (h.eq_of_label hd hmemP e)
      · exact fun e => hdC (h.eq_of_label hd hmemC e)
    have hnd' := List.Nodup.of_map _ hnd
    simp only [List.nodup_append, List.nodup_cons, List.mem_append, List.mem_cons] at hnd'
    simp only [List.mem_append, List.mem_cons] at hd
    rcases hd with hd | rfl | hd | rfl | hd | rfl | hd | hd
    · exact hother d (by simp [hd]) (by grind) (by grind)
    · exact hhP
    · exact hother d (by simp [hd]) (by grind) (by grind)
    · exact hhL
    · exact hother d (by simp [hd]) (by grind) (by grind)
    · exact hhR
    · exact hother d (by simp [hd]) (by grind) (by grind)
    · exact hother d (by simp [hd]) (by grind) (by grind)
  · rw [(labels_split hP hL).nodup_iff]
    exact List.nodup_cons.mpr ⟨hf, hnd⟩
  · intro g
    by_cases hg : g = dC.height
    · subst hg
      rw [hlev2]
      refine hfwd.insert hndl hnext hnext' fun b hb hbC => ?_
      obtain ⟨d, hd, -, rfl⟩ := hmem1 b hb
      exact (hlink d hd).next hbC
    · rw [hlev3 g hg]
      refine (h.fwd g).congr fun b hb => ?_
      obtain ⟨d, hd, hdg, rfl⟩ := mem_level.mp hb
      refine (hlink d hd).next fun e => hg ?_
      rw [← hdg, h.eq_of_label hd hmemC e]
  · intro g hg
    by_cases hgC : g = dC.height
    · subst hgC
      rw [hlev2]
      have hbwd := h.bwd dC.height hg
      rw [hlev1] at hbwd
      refine hbwd.insert hprev (fun b hb => ?_) (fun b hb hbY => ?_) hndl
      · have hbm := List.mem_of_head? hb
        obtain ⟨d, hd, -, rfl⟩ := hmem1 b (by simp [hbm])
        rw [(hlink d hd).prev, if_pos (hfwd.next.trans hb)]
      · obtain ⟨d, hd, -, rfl⟩ := hmem1 b hb
        rw [(hlink d hd).prev, if_neg fun e => hbY (hfwd.next.symm.trans e)]
    · rw [hlev3 g hgC]
      refine (h.bwd g hg).congr fun b hb => ?_
      obtain ⟨d, hd, hdg, rfl⟩ := mem_level.mp hb
      rw [(hlink d hd).prev, if_neg fun e => hgC ?_]
      rw [hfwd.next] at e
      obtain ⟨d', hd', hdh, hdl⟩ := mem_level.mp (List.mem_of_head? e)
      rw [← hdg, ← h.eq_of_label (by simp [hd']) hd hdl, hdh]

/-! ### A node that is changed in place -/

/-- The picture after one node has been written and its siblings left as they were. -/
theorem Rep.write {s s' : Tree} {name : String} {k : ℕ} {back : ℕ → Prop} {L R : List BlockDesc}
    {d d' : BlockDesc} {v w : View} (h : Rep s name k back (L ++ d :: R)) (hv : s.view d.label = some v)
    (hw : Wrote s d.label w s') (hl : d'.label = d.label) (hh : d'.height = d.height) (hr : w.Reads name d')
    (hs : ∀ x ∈ descKeys d', x.length = k) (hn : w.next = v.next) (hp : w.prev = v.prev) :
    Rep s' name k back (L ++ d' :: R) := by
  have hlab : (L ++ d' :: R).map Desc.label = (L ++ d :: R).map Desc.label := by simp [hl]
  have hlev : ∀ g, level g (L ++ d' :: R) = level g (L ++ d :: R) := by
    intro g
    simp only [level_append, level_cons, hl, hh]
  have hnext : ∀ o, s'.nextOf o = s.nextOf o := by
    intro o
    by_cases ho : o = d.label
    · subst ho
      rw [Tree.nextOf_eq hw.view, Tree.nextOf_eq hv, hn]
    · rw [Tree.nextOf, Tree.nextOf, hw.view_ne ho]
  have hprev : ∀ o, s'.prevOf o = s.prevOf o := by
    intro o
    by_cases ho : o = d.label
    · subst ho
      rw [Tree.prevOf_eq hw.view, Tree.prevOf_eq hv, hp]
    · rw [Tree.prevOf, Tree.prevOf, hw.view_ne ho]
  constructor
  · intro c hc
    have hnd := h.nodup
    simp only [List.map_append, List.map_cons, List.nodup_append, List.nodup_cons, List.mem_cons] at hnd
    have hother : ∀ c, c ∈ L ∨ c ∈ R → Holds s' name k c := by
      intro c hc
      refine (h.holds c (by simp; tauto)).congr (hw.view_ne fun e => ?_)
      rcases hc with hc | hc
      · exact hnd.2.2 _ (List.mem_map_of_mem hc) _ (.inl rfl) e
      · exact hnd.2.1.1 (e ▸ List.mem_map_of_mem hc)
    simp only [List.mem_append, List.mem_cons] at hc
    rcases hc with hc | rfl | hc
    · exact hother c (.inl hc)
    · exact ⟨hl ▸ (h.holds d (by simp)).aligned, ⟨w, hl ▸ hw.view, hr⟩, hs⟩
    · exact hother c (.inr hc)
  · rw [hlab]
    exact h.nodup
  · intro g
    rw [hlev]
    exact (h.fwd g).congr fun o _ => hnext o
  · intro g hg
    rw [hlev]
    exact (h.bwd g hg).congr fun o _ => hprev o

end RedB
