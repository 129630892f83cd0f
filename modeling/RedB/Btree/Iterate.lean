import RedB.Btree.Run

/-!
# Iterating over an index

An iterator names a leaf and a position in it. It is always left at an element of the leaf, or behind the last
element of the last leaf (`At`). So the iterators over an index are its positions from `0` to the number of its
elements: `++` goes one up (`At.incr`), `--` one down (`At.decr`), and from `tree::begin` to `tree::end` all the
elements of an index come one after the other, and back again in the reverse order (`insertAll_iterates`).
-/

namespace RedB

open BPlus BPlus.BTree Links

/-- `iterator::operator+` -/
def Iterator.add (it : Iterator) : ℕ → M Iterator
  | 0 => return it
  | n + 1 => do Iterator.incr (← it.add n)

/-- `iterator::operator-` -/
def Iterator.sub (it : Iterator) : ℕ → M Iterator
  | 0 => return it
  | n + 1 => do Iterator.decr (← it.sub n)

/-- Going through the index from `tree::begin` gives the elements `l` one after the other and ends at `tree::end`;
going back from there gives them in the reverse order and ends at `tree::begin`. At the ends the iterator stays. -/
def Iterates (s : Tree) (name : String) (l : List Element) : Prop :=
  ∃ n, ∀ fuel, n ≤ fuel → ∃ b e, Returns (beginIndex fuel name s) b s ∧ Returns (endIndex fuel name s) e s ∧
    Returns (b.add l.length s) e s ∧ Returns (e.sub l.length s) b s ∧
    (∀ i x, l[i]? = some x → ∃ it, Returns (b.add i s) it s ∧ Returns (e.sub (l.length - i) s) it s ∧ it.eq e = false ∧
      Returns (it.element s) x s) ∧
    (l ≠ [] → Returns (e.incr s) e s ∧ Returns (b.decr s) b s)

/-- The leaves of an index, from left to right. -/
structure LeafChain (s : Tree) (name : String) (ndx : Index) (ls : List (ℤ × List (Key × ℤ))) : Prop where
  index : s.schema.getIndex name = some ndx
  fits : ndx.Fits
  holds : ∀ x ∈ ls, Holds s name ndx.keySize (.leaf x.1 x.2)
  full : ∀ x ∈ ls, x.2 ≠ [] ∧ x.2.length ≤ ndx.order
  nodup : (ls.map Prod.fst).Nodup
  fwd : Fwd s.nextOf (ls.map Prod.fst)
  bwd : Bwd s.prevOf none (ls.map Prod.fst)

/-- The iterator is at element `i` of the leaves, or behind the last one. -/
def At (name : String) (ls : List (ℤ × List (Key × ℤ))) (i : ℕ) (it : Iterator) : Prop :=
  ∃ X x Y j, ls = X ++ x :: Y ∧ it = ⟨(j : ℕ), x.1, name⟩ ∧ i = (X.flatMap Prod.snd).length + j ∧
    (j < x.2.length ∨ j = x.2.length ∧ Y = [])

section Positions

variable {s : Tree} {name : String} {ndx : Index} {ls : List (ℤ × List (Key × ℤ))} {i i' : ℕ} {it it' : Iterator}

/-- Two leaves of a list are one, or one is before the other. -/
theorem split_twice {α : Type} {X Y X' Y' : List α} {x x' : α} (h : X ++ x :: Y = X' ++ x' :: Y') :
    (X = X' ∧ x = x' ∧ Y = Y') ∨ (∃ Z, X' = X ++ x :: Z ∧ Y = Z ++ x' :: Y') ∨ (∃ Z, X = X' ++ x' :: Z ∧ Y' = Z ++ x :: Y) := by
  rcases List.append_eq_append_iff.mp h with ⟨Z, rfl, hZ⟩ | ⟨Z, rfl, hZ⟩
  · cases Z with
    | nil =>
      obtain ⟨rfl, rfl⟩ := List.cons.inj hZ
      exact .inl ⟨(List.append_nil X).symm, rfl, rfl⟩
    | cons z Z =>
      obtain ⟨rfl, rfl⟩ := List.cons.inj hZ
      exact .inr (.inl ⟨Z, rfl, rfl⟩)
  · cases Z with
    | nil =>
      obtain ⟨rfl, rfl⟩ := List.cons.inj hZ
      exact .inl ⟨List.append_nil X', rfl, rfl⟩
    | cons z Z =>
      obtain ⟨rfl, rfl⟩ := List.cons.inj hZ
      exact .inr (.inr ⟨Z, rfl, rfl⟩)

/-- There is one iterator at a position. -/
theorem At.unique (h : At name ls i it) (h' : At name ls i it') : it = it' := by
  obtain ⟨X, x, Y, j, rfl, rfl, hi, hj⟩ := h
  obtain ⟨X', x', Y', j', hls, rfl, hi', hj'⟩ := h'
  rcases split_twice hls with ⟨rfl, rfl, rfl⟩ | ⟨Z, rfl, rfl⟩ | ⟨Z, rfl, rfl⟩
  · obtain rfl : j = j' := by omega
    rfl
  · have hlt : j < x.2.length := hj.resolve_right fun h => by simp at h
    simp only [List.flatMap_append, List.flatMap_cons, List.length_append] at hi'
    omega
  · have hlt : j' < x'.2.length := hj'.resolve_right fun h => by simp at h
    simp only [List.flatMap_append, List.flatMap_cons, List.length_append] at hi
    omega

/-- An iterator is at one position. -/
theorem At.position (hn : (ls.map Prod.fst).Nodup) (h : At name ls i it) (h' : At name ls i' it) : i = i' := by
  have apart : ∀ {X Z Y : List (ℤ × List (Key × ℤ))} {x x' : ℤ × List (Key × ℤ)},
      ((X ++ x :: (Z ++ x' :: Y)).map Prod.fst).Nodup → x.1 ≠ x'.1 := by
    intro X Z Y x x' hn he
    rw [List.map_append, List.nodup_append, List.map_cons, List.nodup_cons] at hn
    apply hn.2.1.1
    rw [he]
    simp
  obtain ⟨X, x, Y, j, rfl, rfl, hi, hj⟩ := h
  obtain ⟨X', x', Y', j', hls, hit, hi', hj'⟩ := h'
  obtain ⟨hjj, hxx⟩ : j = j' ∧ x.1 = x'.1 := by simpa using hit
  rcases split_twice hls with ⟨rfl, rfl, rfl⟩ | ⟨Z, rfl, rfl⟩ | ⟨Z, rfl, rfl⟩
  · omega
  · exact absurd hxx (apart hn)
  · rw [List.append_assoc, List.cons_append] at hn
    exact absurd hxx.symm (apart hn)

/-- The node object of a leaf. -/
theorem LeafChain.node (h : LeafChain s name ndx ls) {X Y : List (ℤ × List (Key × ℤ))} {x : ℤ × List (Key × ℤ)}
    (hls : ls = X ++ x :: Y) : ∃ nd b, getNode name x.1 s = .ok (some x.1) s ∧ nodeAt x.1 s = .ok nd s ∧
      nd.numKey = x.2.length ∧ buffer x.1 s = .ok b s ∧
      b.next = ((Y.map Prod.fst).head?).getD invalidSiblingRef ∧
      b.prev = ((X.map Prod.fst).getLast?).getD invalidSiblingRef := by
  have hmem : x ∈ ls := by
    rw [hls]
    simp
  have hH := h.holds x hmem
  obtain ⟨v, hv, hr⟩ := hH.reads
  rw [Desc.label_leaf] at hv
  obtain ⟨nd, hnd, -, -, hnum, -⟩ := nodeAt_eq hv
  obtain ⟨b, hb, -, -, hbp, hbn⟩ := buffer_eq hv
  refine ⟨nd, b, getNode_eq hH.aligned hv name, hnd, hnum.trans hr.2.2.1, hb, ?_, ?_⟩
  · have hfwd := h.fwd
    rw [hls, List.map_append, List.map_cons] at hfwd
    have hnext := hfwd.next
    rw [Tree.nextOf_eq hv] at hnext
    rw [hbn, ← hnext]
    split
    · assumption
    · rfl
  · have hbwd := h.bwd
    rw [hls, List.map_append, List.map_cons, Bwd.append] at hbwd
    have hprev := hbwd.2.1
    rw [Tree.prevOf_eq hv, lastOr, Option.or_none] at hprev
    rw [hbp, ← hprev]
    split
    · assumption
    · rfl

/-- The offset of a leaf is one. -/
theorem LeafChain.aligned (h : LeafChain s name ndx ls) {x : ℤ × List (Key × ℤ)} (hx : x ∈ ls) : x.1 ≠ invalidSiblingRef :=
  Aligned.ne_invalid (h.holds x hx).aligned

/-- `++` goes to the next position. -/
theorem At.incr (h : LeafChain s name ndx ls) (ha : At name ls i it) (hi : i < (ls.flatMap Prod.snd).length) :
    ∃ it', it.incr s = .ok it' s ∧ At name ls (i + 1) it' := by
  obtain ⟨X, x, Y, j, hls, rfl, rfl, hj⟩ := ha
  have hlt : j < x.2.length := by
    refine hj.resolve_right ?_
    rintro ⟨rfl, rfl⟩
    rw [hls] at hi
    simp at hi
  obtain ⟨nd, b, hget, hnd, hnum, hb, hnext, -⟩ := h.node hls
  have hrun : Iterator.incr ⟨(j : ℕ), x.1, name⟩ s = (do
      if ((j + 1 : ℕ) : ℤ) = x.2.length then
        let offset ← getNextSiblingOffset x.1
        if offset ≠ invalidSiblingRef then return { offset := offset, index := 0, ndxName := name }
      return ⟨((j + 1 : ℕ) : ℤ), x.1, name⟩ : M Iterator) s := by
    rw [Iterator.incr, run_bind hget, deref, pure_bind, run_bind hnd]
    simp only [hnum, Nat.cast_lt, if_pos hlt, Nat.cast_add, Nat.cast_one]
  rw [hrun]
  by_cases hend : j + 1 = x.2.length
  · rw [if_pos (by exact_mod_cast hend), getNextSiblingOffset, bind_assoc, run_bind hb, pure_bind, hnext]
    cases Y with
    | nil => exact ⟨_, rfl, X, x, [], j + 1, hls, rfl, (Nat.add_assoc ..), .inr ⟨hend, rfl⟩⟩
    | cons y Y =>
      have hy : y ∈ ls := by
        rw [hls]
        simp
      refine ⟨_, by rw [List.map_cons, List.head?_cons, Option.getD_some, if_pos (h.aligned hy)]; rfl, X ++ [x], y, Y, 0, ?_, rfl, ?_,
        .inl (List.length_pos_of_ne_nil (h.full y hy).1)⟩
      · rw [hls, List.append_assoc]
        rfl
      · simp only [List.flatMap_append, List.flatMap_singleton, List.length_append]
        omega
  · rw [if_neg (by exact_mod_cast hend)]
    exact ⟨_, rfl, X, x, Y, j + 1, hls, rfl, (Nat.add_assoc ..), .inl (by omega)⟩

/-- `--` goes to the position before. -/
theorem At.decr (h : LeafChain s name ndx ls) (ha : At name ls (i + 1) it) :
    ∃ it', it.decr s = .ok it' s ∧ At name ls i it' := by
  obtain ⟨X, x, Y, j, hls, rfl, hij, hj⟩ := ha
  cases j with
  | succ j =>
    refine ⟨⟨(j : ℕ), x.1, name⟩, ?_, X, x, Y, j, hls, rfl, by omega, .inl (by omega)⟩
    rw [Iterator.decr]
    simp only [Nat.cast_add, Nat.cast_one]
    rw [if_neg (by omega), if_pos (by omega), add_sub_cancel_right]
    rfl
  | zero =>
    obtain ⟨nd, b, hget, hnd, hnum, hb, -, hprev⟩ := h.node hls
    rcases List.eq_nil_or_concat X with rfl | ⟨X, w, rfl⟩
    · simp at hij
    · rw [List.concat_eq_append] at hls hij hprev
      have hls' : ls = X ++ w :: (x :: Y) := by
        rw [hls, List.append_assoc]
        rfl
      have hw : w ∈ ls := by
        rw [hls']
        simp
      obtain ⟨nd', b', hget', hnd', hnum', -⟩ := h.node hls'
      have hpos := List.length_pos_of_ne_nil (h.full w hw).1
      rw [List.map_append, List.map_singleton, List.getLast?_append, List.getLast?_singleton, Option.some_or, Option.getD_some] at hprev
      refine ⟨⟨((w.2.length - 1 : ℕ) : ℤ), w.1, name⟩, ?_, X, w, x :: Y, w.2.length - 1, hls', rfl, ?_, .inl (by omega)⟩
      · rw [Iterator.decr]
        simp only [Nat.cast_zero, if_true]
        rw [run_bind hget, deref, pure_bind, getPrevSiblingOffset, bind_assoc, run_bind hb, pure_bind, hprev, if_pos (h.aligned hw),
          run_bind hget', deref, pure_bind, run_bind hnd', run_pure, hnum']
        rw [if_pos (by omega)]
        congr 2
        omega
      · simp only [List.flatMap_append, List.flatMap_singleton, List.length_append] at hij
        omega

/-- Some steps of `++`. -/
theorem At.add (h : LeafChain s name ndx ls) (ha : At name ls i it) {n : ℕ} (hn : i + n ≤ (ls.flatMap Prod.snd).length) :
    ∃ it', it.add n s = .ok it' s ∧ At name ls (i + n) it' := by
  induction n with
  | zero => exact ⟨it, rfl, ha⟩
  | succ n ih =>
    obtain ⟨it1, h1, ha1⟩ := ih (by omega)
    obtain ⟨it2, h2, ha2⟩ := ha1.incr h (by omega)
    exact ⟨it2, (run_bind h1).trans h2, ha2⟩

/-- Some steps of `--`. -/
theorem At.sub (h : LeafChain s name ndx ls) {n : ℕ} (ha : At name ls (i + n) it) :
    ∃ it', it.sub n s = .ok it' s ∧ At name ls i it' := by
  induction n generalizing i with
  | zero => exact ⟨it, rfl, ha⟩
  | succ n ih =>
    rw [Nat.add_comm n 1, ← Nat.add_assoc] at ha
    obtain ⟨it1, h1, ha1⟩ := ih ha
    obtain ⟨it2, h2, ha2⟩ := ha1.decr h
    exact ⟨it2, (run_bind h1).trans h2, ha2⟩

/-- The element at a position. -/
theorem At.element (h : LeafChain s name ndx ls) (ha : At name ls i it) {x : Key × ℤ} (hx : (ls.flatMap Prod.snd)[i]? = some x) :
    it.element s = .ok (Element.ofEntry name x) s := by
  obtain ⟨X, y, Y, j, hls, rfl, rfl, hj⟩ := ha
  have hy : y ∈ ls := by
    rw [hls]
    simp
  obtain ⟨nd, b, hget, -⟩ := h.node hls
  have hlt : j < y.2.length := by
    refine hj.resolve_right ?_
    rintro ⟨rfl, rfl⟩
    rw [hls, List.getElem?_eq_none (by simp)] at hx
    cases hx
  rw [hls, List.flatMap_append, List.flatMap_cons, List.getElem?_append_right (Nat.le_add_right ..), Nat.add_sub_cancel_left,
    List.getElem?_append_left hlt] at hx
  rw [Iterator.element, run_bind hget, deref, pure_bind]
  exact getElement_leaf h.index h.fits (h.holds y hy) hx (hlt.trans_le (h.full y hy).2)

/-- The elements are gone through both ways. -/
theorem LeafChain.iterates (h : LeafChain s name ndx ls) {b e : Iterator} (hb : At name ls 0 b)
    (he : At name ls (ls.flatMap Prod.snd).length e) :
    Returns (b.add (ls.flatMap Prod.snd).length s) e s ∧ Returns (e.sub (ls.flatMap Prod.snd).length s) b s ∧
      ∀ i x, (ls.flatMap Prod.snd)[i]? = some x → ∃ it, Returns (b.add i s) it s ∧
        Returns (e.sub ((ls.flatMap Prod.snd).length - i) s) it s ∧ it.eq e = false ∧
        Returns (it.element s) (Element.ofEntry name x) s := by
  refine ⟨?_, ?_, fun i x hx => ?_⟩
  · obtain ⟨it, hit, ha⟩ := hb.add h (Nat.zero_add _).le
    rw [Nat.zero_add] at ha
    rw [ha.unique he] at hit
    exact hit
  · rw [← Nat.zero_add (ls.flatMap Prod.snd).length] at he
    obtain ⟨it, hit, ha⟩ := he.sub h
    rw [ha.unique hb] at hit
    exact hit
  · have hi : i < (ls.flatMap Prod.snd).length := (List.getElem?_eq_some_iff.mp hx).1
    obtain ⟨it, hit, ha⟩ := hb.add h (n := i) (by omega)
    rw [Nat.zero_add] at ha
    have he' := he
    rw [← Nat.add_sub_of_le hi.le] at he'
    obtain ⟨it', hit', ha'⟩ := he'.sub h
    rw [ha'.unique ha] at hit'
    refine ⟨it, hit, hit', ?_, ha.element h hx⟩
    rw [Iterator.eq, decide_eq_false_iff_not]
    rintro ⟨ho, hidx⟩
    have hname : it.ndxName = e.ndxName := by
      obtain ⟨_, _, _, _, -, rfl, -⟩ := ha
      obtain ⟨_, _, _, _, -, rfl, -⟩ := he
      rfl
    have hie : it = e := by
      obtain ⟨_, _, _⟩ := it
      obtain ⟨_, _, _⟩ := e
      obtain rfl : _ = _ := ho
      obtain rfl : _ = _ := hidx
      obtain rfl : _ = _ := hname
      rfl
    exact absurd (ha.position h.nodup (hie ▸ he)) hi.ne

/-- At the end `++` leaves the iterator where it is, and so does `--` at the beginning. -/
theorem LeafChain.stays (h : LeafChain s name ndx ls) {b e : Iterator} (hb : At name ls 0 b)
    (he : At name ls (ls.flatMap Prod.snd).length e) : Returns (e.incr s) e s ∧ Returns (b.decr s) b s := by
  constructor
  · obtain ⟨X, x, Y, j, hls, rfl, hij, hj⟩ := he
    rw [hls] at hij
    simp only [List.flatMap_append, List.flatMap_cons, List.length_append] at hij
    obtain ⟨rfl, rfl⟩ : j = x.2.length ∧ Y = [] := hj.resolve_left (by omega)
    obtain ⟨nd, blk, hget, hnd, hnum, hb, hnext, -⟩ := h.node hls
    rw [Iterator.incr, run_bind hget, deref, pure_bind, run_bind hnd]
    simp only [hnum, lt_irrefl, if_false, if_true]
    rw [getNextSiblingOffset, bind_assoc, run_bind hb, pure_bind, hnext]
    rfl
  · obtain ⟨X, x, Y, j, hls, rfl, hij, -⟩ := hb
    have hX : X = [] := by
      rcases X with _ | ⟨y, X⟩
      · rfl
      · have hy := (h.full y (by rw [hls]; simp)).1
        have := List.length_pos_of_ne_nil hy
        simp only [List.flatMap_cons, List.length_append] at hij
        omega
    obtain rfl : j = 0 := by omega
    subst hX
    obtain ⟨nd, blk, hget, hnd, hnum, hb, -, hprev⟩ := h.node hls
    rw [Iterator.decr]
    simp only [Nat.cast_zero, if_true]
    rw [run_bind hget, deref, pure_bind, getPrevSiblingOffset, bind_assoc, run_bind hb, pure_bind, hprev]
    rfl

end Positions

section Iterating

variable {s : Tree} {name : String} {ndx : Index} {t : ℕ} {fs : List ℤ} {lim : ℤ}

/-- The iterators over an index that holds a tree. -/
theorem IndexRep.iterates {T : Option ((h : ℕ) × BlockTree h)} {lo hi : ℕ} (hrep : IndexRep s name ndx (fun _ => True) T)
    (hfit : ndx.Fits) (hlo : 1 ≤ lo) (hhi : hi ≤ ndx.order) (hs : ∀ T', T = some T' → Shape 1 lo hi T'.2) :
    Iterates s name ((elems (treeToks T)).map (Element.ofEntry name)) := by
  cases T with
  | none =>
    have hroot : ndx.root < 0 := hrep.root
    have hb : ∀ fuel, beginIndex fuel name s = .ok ⟨0, invalidSiblingRef, name⟩ s := by
      intro fuel
      rw [beginIndex, run_bind (getIndex_eq hrep.index), if_pos hroot]
      rfl
    have he : ∀ fuel, endIndex fuel name s = .ok ⟨0, invalidSiblingRef, name⟩ s := by
      intro fuel
      rw [endIndex, run_bind (getIndex_eq hrep.index), if_pos hroot]
      rfl
    exact ⟨0, fun fuel _ => ⟨_, _, hb fuel, he fuel, rfl, rfl, fun i x hx => by simp [treeToks] at hx, fun h => absurd rfl h⟩⟩
  | some T =>
    have hsh := hs T rfl
    have hne := leaves_ne_nil hsh
    have hfull := shape_leaves hsh
    have hmem : ∀ x ∈ leaves T.2, Desc.leaf x.1 x.2 ∈ treeDescs (some T) := fun x hx => mem_leaves.mp hx
    have hchain : LeafChain s name ndx (leaves T.2) := by
      have hlevel : level 0 (treeDescs (some T)) = (leaves T.2).map Prod.fst := level_leaves T.2
      refine ⟨hrep.index, hfit, fun x hx => hrep.rep.holds _ (hmem x hx), fun x hx => ?_, ?_, ?_, ?_⟩
      · have := hfull x hx
        exact ⟨List.length_pos_iff.mp (by omega), by omega⟩
      · rw [← hlevel]
        exact hrep.rep.nodup.sublist (List.filter_sublist.map _)
      · rw [← hlevel]
        exact hrep.rep.fwd 0
      · rw [← hlevel]
        exact hrep.rep.bwd 0 trivial
    obtain ⟨x, ls, hx⟩ := List.exists_cons_of_ne_nil hne
    obtain ⟨ls', y, hy⟩ : ∃ ls' y, leaves T.2 = ls' ++ [y] := by
      rcases List.eq_nil_or_concat (leaves T.2) with h | ⟨ls', y, h⟩
      · exact absurd h hne
      · exact ⟨ls', y, h.trans List.concat_eq_append⟩
    have hb : At name (leaves T.2) 0 ⟨0, x.1, name⟩ :=
      ⟨[], x, ls, 0, hx, rfl, rfl, .inl (List.length_pos_of_ne_nil (hchain.full x (by rw [hx]; exact List.mem_cons_self ..)).1)⟩
    have he : At name (leaves T.2) ((leaves T.2).flatMap Prod.snd).length ⟨y.2.length, y.1, name⟩ := by
      refine ⟨ls', y, [], y.2.length, hy, rfl, ?_, .inr ⟨rfl, rfl⟩⟩
      rw [hy, List.flatMap_append, List.flatMap_singleton, List.length_append]
    refine ⟨T.1 + 1, fun fuel hfuel => ⟨_, _, beginIndex_eq hrep hfit hsh hhi (by rw [hx]; rfl) hfuel,
      endIndex_eq hrep hfit hsh hhi (by rw [hy, List.getLast?_append]; rfl) hfuel, ?_⟩⟩
    obtain ⟨h1, h2, h3⟩ := hchain.iterates hb he
    rw [treeToks, elems_toks hsh, List.length_map]
    refine ⟨h1, h2, fun i z hz => ?_, fun _ => hchain.stays hb he⟩
    rw [List.getElem?_map, Option.map_eq_some_iff] at hz
    obtain ⟨z, hz, rfl⟩ := hz
    exact h3 i z hz

/-- After every run of insertions into an empty index, its iterators go through the inserted elements in the order of
their keys, each once, from the beginning to the end and back. -/
theorem insertAll_iterates (hreg : ndx.Regular t) (hx : s.schema.getIndex name = some ndx) (hempty : ndx.root < 0)
    (hpool : Pool s fs lim) {es : List Element} (hes : ∀ e ∈ es, e.For name ndx ∧ e.Located) {fuel : ℕ} (hfuel : es.length ≤ fuel) :
    ∃ s' l, insertAll fuel es s = .ok () s' ∧ l.Perm es ∧ (l.map Element.key).Pairwise (· ≤ ·) ∧ Iterates s' name l := by
  obtain ⟨s', r, fs', lim', hrun, hrep', -⟩ := @insertAll_empty _ _ _ (fun _ => True) [] _ _ _ hreg hx hempty hpool _ (fun e he => (hes e he).1) _ hfuel ⟨by simp, by simp⟩
  have ht := hreg.two_le
  have hord := hreg.order
  obtain ⟨hval, hperm⟩ := (valid_none (ι := ℤ) (κ := Key) (α := ℤ) t (t - 1)).insertMany ht le_rfl
    (es.map Element.entry) (stream fs lim)
  refine ⟨s', _, hrun, ?_, ?_, hrep'.iterates hreg.fits (by omega) ?_ hval.shape⟩
  · rw [treeToks, elems_nil, List.append_nil] at hperm
    refine (hperm.map _).trans ?_
    rw [List.map_map, List.map_congr_left (g := id), List.map_id]
    intro e he
    obtain ⟨⟨rfl, -⟩, hloc⟩ := hes e he
    exact hloc.ofEntry
  · rw [List.map_map]
    exact hval.sorted.elems
  · show 2 * t - 1 ≤ ndx.order
    omega

/-- Three insertions into a new table, two of them with the same key. -/
theorem newTable_iterates : ∃ s' l, insertAll 3 [repeated pkNdx 7, repeated pkNdx 3, repeated pkNdx 7] newTable = .ok () s' ∧
    l.Perm [repeated pkNdx 7, repeated pkNdx 3, repeated pkNdx 7] ∧ (l.map Element.key).Pairwise (· ≤ ·) ∧ Iterates s' pkNdx l :=
  @insertAll_iterates newTable pkNdx ⟨"NDX_000", 4, 8000, -1, ["name"]⟩ 2 _ _ ⟨by decide, rfl, by decide⟩ rfl (by decide) (pool_nil (by decide) (by decide)) _ (by
      intro e he
      simp only [List.mem_cons, List.not_mem_nil, or_false] at he
      rcases he with rfl | rfl | rfl <;> exact repeated_for rfl _) _ (by decide)

end Iterating

end RedB
