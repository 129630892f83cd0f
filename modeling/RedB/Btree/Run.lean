import RedB.Btree.Walk

/-!
# Building an index

Any number of calls of `tree::insert(element)`, one after the other, on an index that is
empty to begin with: the state holds a B+tree throughout (`insertAll_rep`), and
everything that is said of B+trees can be read off it (`insertAll_built`).

The blocks of the index must not be handed out twice. `tree::next_offset` sees to that
unless the free list ends, at the end that was freed first, with a block that lies
before another one of the list: after the whole list has been used the next block is
taken to be the one behind it (`recycled_not_built`).
-/

namespace RedB

open BPlus BPlus.BTree Links

/-- Calls of `tree::insert(element)`, one after the other. -/
def insertAll (fuel : ℕ) : List Element → M Unit
  | [] => pure ()
  | e :: es => do
    insertElement fuel e
    insertAll fuel es

/-- The element belongs in the index: it names it and its key has the key size. -/
def Element.For (e : Element) (name : String) (ndx : Index) : Prop :=
  e.ndxName = name ∧ e.key.length = ndx.keySize

section Run

variable {name : String} {ndx : Index} {t : ℕ} {back : ℕ → Prop} {W : List ℤ}

/-- A run of insertions does to the state what it does to the picture. -/
theorem insertAll_rep {lo : ℕ} (hreg : ndx.Regular t) (hlo : lo ≤ t - 1) {es : List Element} :
    ∀ {s : Tree} {fs : List ℤ} {lim r : ℤ} {T : Option ((h : ℕ) × BlockTree h)} {fuel : ℕ},
    (∀ e ∈ es, e.For name ndx) → IndexRep s name { ndx with root := r } back T → Valid t lo T → Pool s fs lim →
    Outside ((treeDescs T).map Desc.label ++ W) fs lim → treeHeight T + es.length ≤ fuel →
    ∃ s' r' fs' lim', insertAll fuel es s = .ok () s' ∧
      IndexRep s' name { ndx with root := r' } back (insertMany t (es.map Element.entry) (stream fs lim) T) ∧
      IndexGrown W s name T s' (insertMany t (es.map Element.entry) (stream fs lim) T) fs' lim' := by
  induction es with
  | nil =>
    intro s fs lim r T fuel _ hrep _ hpool hout _
    exact ⟨s, r, fs, lim, rfl, hrep, .refl hrep hpool hout⟩
  | cons e es ih =>
    intro s fs lim r T fuel hes hrep hval hpool hout hfuel
    obtain ⟨hname, hkey⟩ := hes e (List.mem_cons_self ..)
    have hreg' : ({ ndx with root := r } : Index).Regular t := ⟨hreg.fits, hreg.order, hreg.two_le⟩
    obtain ⟨s1, r1, fs1, lim1, hrun, hq, hrep1, hg1⟩ := @insertElement_rep _ _ _ _ _ W _ _ _ hreg' hlo e hname hkey _ hrep hval.shape hpool hout fuel fun T' hT' => by
        subst hT'
        simp only [treeHeight, List.length_cons] at hfuel
        omega
    obtain ⟨hval1, -, hh1⟩ := hval.insert hreg.two_le hlo e.entry (stream fs lim)
    obtain ⟨s2, r2, fs2, lim2, hrun2, hrep2, hg2⟩ := @ih _ _ _ _ _ fuel (fun e' he' => hes e' (List.mem_cons_of_mem _ he'))
      hrep1 hval1 hg1.pool hg1.out (by simp only [List.length_cons] at hfuel; omega)
    rw [List.map_cons, insertMany, hq]
    exact ⟨s2, r2, fs2, lim2, (run_bind hrun).trans hrun2, hrep2, hg1.trans hg2⟩

/-- A run that starts from an empty index. -/
theorem insertAll_empty {s : Tree} {fs : List ℤ} {lim : ℤ} (hreg : ndx.Regular t)
    (hx : s.schema.getIndex name = some ndx) (hempty : ndx.root < 0) (hpool : Pool s fs lim) {es : List Element}
    (hes : ∀ e ∈ es, e.For name ndx) {fuel : ℕ} (hfuel : es.length ≤ fuel) (hW : Outside W fs lim) :
    ∃ s' r fs' lim', insertAll fuel es s = .ok () s' ∧
      IndexRep s' name { ndx with root := r } back (insertMany t (es.map Element.entry) (stream fs lim) none) ∧
      IndexGrown W s name none s' (insertMany t (es.map Element.entry) (stream fs lim) none) fs' lim' :=
  insertAll_rep hreg (Nat.zero_le _) hes (r := ndx.root) ⟨hx, hempty, rep_nil ..⟩ (valid_none t 0) hpool
    (by simpa [treeDescs] using hW) (by simpa [treeHeight] using hfuel)

end Run

/-! ### What there is to see -/

/-- The state holds the B+tree `T` of the elements `es` under the index `ndx`. All leaves
of a `BlockTree h` have the same depth. -/
structure Built (s : Tree) (name : String) (es : List Element) (ndx : Index)
    (T : Option ((h : ℕ) × BlockTree h)) : Prop where
  /-- The nodes are those of the tree, and on every level the sibling fields lead through
  the nodes from left to right and back. -/
  rep : IndexRep s name ndx (fun _ => True) T
  /-- Every node holds at most `order - 1` keys, and every inner node has one child more
  than keys. -/
  shape : ∀ T', T = some T' → Shape 1 0 (ndx.order - 1) T'.2
  /-- The keys of every node are in order, and so are those of the children around them. -/
  ordered : ∀ T', T = some T' → Ordered T'.2
  /-- On every level the prev-sibling fields are the inverse of the next-sibling fields. -/
  links : ∀ h, ∀ a ∈ level h (treeDescs T), ∀ b ∈ level h (treeDescs T), s.nextOf a = some b ↔ s.prevOf b = some a
  /-- Walking the leaves gives the elements in the order of their keys, each once. -/
  elements : ∃ n l, (∀ fuel, n ≤ fuel → indexElements fuel name s = .ok l s) ∧ l.Perm es ∧
    (l.map Element.key).Pairwise (· ≤ ·)

/-- What the picture of a B+tree says of the state. -/
theorem IndexRep.built {s : Tree} {name : String} {ndx : Index} {t lo : ℕ} {T : Option ((h : ℕ) × BlockTree h)}
    {es : List Element} (hrep : IndexRep s name ndx (fun _ => True) T) (hreg : ndx.Regular t) (hval : Valid t lo T)
    (hes : ∀ e ∈ es, e.ndxName = name ∧ e.Located) (hperm : (elems (treeToks T)).Perm (es.map Element.entry)) :
    Built s name es ndx T where
  rep := hrep
  shape T' hT' := by
    have := (hval.shape T' hT').mono (Nat.zero_le lo)
    rwa [hreg.order]
  ordered T' hT' := by
    have hs := hval.sorted
    rw [hT'] at hs
    exact Sorted.ordered (hval.shape T' hT') hs
  links h a ha b hb := (hrep.rep.fwd h).iff_bwd (hrep.rep.bwd h trivial) ha hb
  elements := by
    have hord := hreg.order
    refine ⟨T.elim 0 fun T' => T'.1 + 1 + (leaves T'.2).length, (elems (treeToks T)).map (Element.ofEntry name),
      fun fuel hf => ?_, ?_, ?_⟩
    · refine indexElements_eq hrep hreg.fits hval.shape (by omega) fun T' hT' => ?_
      subst hT'
      simp only [Option.elim_some] at hf
      omega
    · refine (hperm.map _).trans ?_
      rw [List.map_map, List.map_congr_left (g := id), List.map_id]
      intro e he
      obtain ⟨rfl, hloc⟩ := hes e he
      exact hloc.ofEntry
    · rw [List.map_map]
      exact hval.sorted.elems

/-- Every run of insertions into an empty index whose order keeps the contract builds a
B+tree of the inserted elements, if the allocator does not hand out a block twice. -/
theorem insertAll_built {s : Tree} {name : String} {ndx : Index} {t : ℕ} {fs : List ℤ} {lim : ℤ}
    (hreg : ndx.Regular t) (hx : s.schema.getIndex name = some ndx) (hempty : ndx.root < 0) (hpool : Pool s fs lim)
    {es : List Element} (hes : ∀ e ∈ es, e.For name ndx ∧ e.Located) {fuel : ℕ} (hfuel : es.length ≤ fuel) :
    ∃ s' r T, insertAll fuel es s = .ok () s' ∧ Built s' name es { ndx with root := r } T := by
  obtain ⟨s', r, fs', lim', hrun, hrep', -⟩ := @insertAll_empty _ _ _ (fun _ => True) [] _ _ _ hreg hx hempty hpool _ (fun e he => (hes e he).1) _ hfuel ⟨by simp, by simp⟩
  obtain ⟨hval, hperm⟩ := (valid_none (ι := ℤ) (κ := Key) (α := ℤ) t 0).insertMany hreg.two_le (Nat.zero_le _)
    (es.map Element.entry) (stream fs lim)
  refine ⟨s', r, _, hrun, hrep'.built ⟨hreg.fits, hreg.order, hreg.two_le⟩ hval
    (fun e he => ⟨(hes e he).1.1, (hes e he).2⟩) ?_⟩
  simpa [treeToks] using hperm

/-! ### Two cases -/

/-- A new table file with one index of minimum degree `2`. -/
def newTable : Tree where
  schema := ⟨⟨1, 1, 0, 0, 0, -1, -1, -1, -1⟩, [], [⟨"NDX_000", 4, 8000, -1, ["name"]⟩]⟩
  cache := fun _ => none
  flushList := []
  disk := fun _ => none
  node := fun _ => none
  data := fun _ => false

/-- An element whose key is a byte repeated. -/
def repeated (name : String) (b : Byte) : Element := ⟨24, 0, name, List.replicate 8000 b⟩

theorem repeated_for {name : String} {ndx : Index} (hn : ndx.keySize = 8000) (b : Byte) :
    (repeated name b).For name ndx ∧ (repeated name b).Located :=
  ⟨⟨rfl, by rw [hn]; exact List.length_replicate⟩, ⟨show Aligned 0 by decide, show (0 : ℤ) ≤ 24 by decide,
    show (24 : ℤ) < bufferSz by decide⟩⟩

/-- Two insertions into a new table. -/
theorem newTable_built : ∃ s' r T, insertAll 2 [repeated pkNdx 7, repeated pkNdx 3] newTable = .ok () s' ∧
    Built s' pkNdx [repeated pkNdx 7, repeated pkNdx 3] { (⟨"NDX_000", 4, 8000, -1, ["name"]⟩ : Index) with root := r } T :=
  @insertAll_built _ _ ⟨"NDX_000", 4, 8000, -1, ["name"]⟩ 2 _ _ ⟨by decide, rfl, by decide⟩ rfl (by decide) (pool_nil (by decide) (by decide)) _ (by
      intro e he
      simp only [List.mem_cons, List.not_mem_nil, or_false] at he
      rcases he with rfl | rfl <;> exact repeated_for rfl _) _ (by decide)

/-- A root whose first two child offsets are the same is not the root of a B+tree. -/
theorem not_built_of_twice {s : Tree} {name : String} {ndx : Index} {es : List Element} {v : View}
    {T : Option ((h : ℕ) × BlockTree h)} (hroot : ¬ndx.root < 0) (hv : s.view ndx.root = some v)
    (hleaf : v.isLeaf = false) (hnum : v.numKey = 1) (hsame : (v.slots 0).ref = (v.slots 1).ref) :
    ¬Built s name es ndx T := by
  intro hb
  cases T with
  | none => exact hroot hb.rep.root
  | some T =>
    obtain ⟨h, T⟩ := T
    have hr : ndx.root = T.label := hb.rep.root
    have hholds := hb.rep.rep.holds
    have hnd := hb.rep.rep.nodup
    cases h with
    | zero =>
      obtain ⟨l, es⟩ := T
      obtain ⟨w, hw, hwr⟩ := (hholds (.leaf l es) (by simp [treeDescs])).reads
      obtain rfl : v = w := Option.some_inj.mp (hv.symm.trans ((congrArg s.view hr).trans hw))
      exact absurd (hwr.1.symm.trans hleaf) (by simp)
    | succ h =>
      obtain ⟨l, ks, cs⟩ := T
      obtain ⟨w, hw, hwr⟩ := (hholds (.inner l (h + 1) ks (cs.map label)) (by simp [treeDescs])).reads
      obtain rfl : v = w := Option.some_inj.mp (hv.symm.trans ((congrArg s.view hr).trans hw))
      obtain ⟨-, hlen, -⟩ := shape_inner.mp (hb.shape _ rfl)
      have hks : ks.length = 1 := by
        have := hwr.2.2.1.symm.trans hnum
        omega
      obtain ⟨a, b, rfl⟩ : ∃ a b, cs = [a, b] := List.length_eq_two.mp (by omega)
      have ha : (v.slots 0).ref = a.label := hwr.2.2.2.2 0 _ rfl
      have hb' : (v.slots 1).ref = b.label := hwr.2.2.2.2 1 _ rfl
      have hab : a.label = b.label := ha.symm.trans (hsame.trans hb')
      simp only [treeDescs, descs_inner, List.flatMap_cons, List.flatMap_nil, descs_eq a, descs_eq b, List.map_cons,
        List.map_append, label_rootDesc, List.cons_append, List.nodup_cons, List.mem_append, List.mem_cons] at hnd
      exact hnd.2.1 (.inr (.inl hab))

/-- A block on the free list. -/
def freed (prev next : ℤ) : Block := { Block.zero with prev := prev, next := next }

/-- A table of four blocks: the rows, the primary-key index, and two blocks of dropped
indexes of one leaf each, the one at `2 * 32768` freed first. A new index is empty. -/
def recycled : Tree where
  schema := ⟨⟨2, 2, 4, 0, 4 * 32768, 0, 0, 2 * 32768, 3 * 32768⟩, [],
    [⟨"NDX_000", 2976, 3, 32768, ["id"]⟩, ⟨"NDX_003", 4, 8000, -1, ["name"]⟩]⟩
  cache := fun o => if o = 2 * 32768 then some (freed invalidSiblingRef (3 * 32768))
    else if o = 3 * 32768 then some (freed (2 * 32768) invalidSiblingRef) else none
  flushList := []
  disk := fun _ => none
  node := fun _ => none
  data := fun _ => false

/-- Four elements in order. -/
def four : List Element := [repeated "NDX_003" 1, repeated "NDX_003" 2, repeated "NDX_003" 3, repeated "NDX_003" 4]

/-- The root leaf takes the block freed last, the new root the other one, and then the new
half of the root leaf takes the block of the root leaf. -/
theorem recycled_not_built :
    recycled.schema.getIndex "NDX_003" = some ⟨"NDX_003", 4, 8000, -1, ["name"]⟩ ∧
      (⟨"NDX_003", 4, 8000, -1, ["name"]⟩ : Index).Regular 2 ∧
      (∀ e ∈ four, e.For "NDX_003" ⟨"NDX_003", 4, 8000, -1, ["name"]⟩ ∧ e.Located) ∧
      ∃ s', insertAll 5 four recycled = .ok () s' ∧ ∀ r T,
        s'.schema.getIndex "NDX_003" = some ⟨"NDX_003", 4, 8000, r, ["name"]⟩ →
        ¬Built s' "NDX_003" four ⟨"NDX_003", 4, 8000, r, ["name"]⟩ T := by
  refine ⟨rfl, ⟨by decide, rfl, by decide⟩, fun e he => ?_, ?_⟩
  · simp only [four, List.mem_cons, List.not_mem_nil, or_false] at he
    rcases he with rfl | rfl | rfl | rfl <;> exact repeated_for rfl _
  · have hfin : (match insertAll 5 four recycled with
        | .ok _ s => ((s.schema.getIndex "NDX_003").map Index.root, (s.view (2 * 32768)).map fun v =>
            (v.isLeaf, v.numKey, decide ((v.slots 0).ref = (v.slots 1).ref)))
        | .error _ _ => (none, none)) = (some (2 * 32768), some (false, 1, true)) := by
      decide +kernel
    cases h : insertAll 5 four recycled with
    | error e s' =>
      rw [h] at hfin
      simp at hfin
    | ok u s' =>
      refine ⟨s', rfl, fun r T hx => ?_⟩
      rw [h] at hfin
      simp only [Prod.mk.injEq, Option.map_eq_some_iff, decide_eq_true_eq] at hfin
      obtain ⟨⟨ndx, hndx, hroot⟩, v, hv, hleaf, hnum, hsame⟩ := hfin
      obtain rfl := Option.some_inj.mp (hndx.symm.trans hx)
      have hr : r = 2 * 32768 := hroot
      subst hr
      exact not_built_of_twice (by simp) hv hleaf hnum hsame

end RedB
