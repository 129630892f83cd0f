import RedB.Theory.BPlusTree

/-!
# The leaves of a B+tree, and the order of its keys

`leaves` lists the leaves from left to right. They carry all the elements
(`elems_toks`), they are the lowest level of the tree (`level_leaves`), and the leaf at
the far left is reached from the root by the first child of every node.

A tree whose tokens are sorted is ordered node by node (`Sorted.ordered`): this is how
the textbook says it, and how a search uses it.
-/

namespace BPlus

namespace BTree

variable {ι κ α : Type}

/-- The leaves from left to right. -/
def leaves : {h : ℕ} → BTree ι κ α h → List (ι × List (κ × α))
  | 0, t => [(Leaf.lbl t, Leaf.elems t)]
  | _ + 1, t => (Inner.children t).flatMap leaves

@[simp] theorem leaves_leaf (l : ι) (es : List (κ × α)) : @leaves ι κ α 0 ⟨l, es⟩ = [(l, es)] := rfl

@[simp] theorem leaves_inner {h : ℕ} (l : ι) (ks : List κ) (cs : List (BTree ι κ α h)) :
    @leaves ι κ α (h + 1) ⟨l, ks, cs⟩ = cs.flatMap leaves := rfl

/-- A leaf is one of the nodes. -/
theorem mem_leaves {l : ι} {es : List (κ × α)} :
    {h : ℕ} → {t : BTree ι κ α h} → ((l, es) ∈ leaves t ↔ Desc.leaf l es ∈ descs t)
  | 0, ⟨l', es'⟩ => by simp
  | h + 1, ⟨l', ks, cs⟩ => by
    simp only [leaves_inner, descs_inner, List.mem_flatMap, List.mem_cons, reduceCtorEq, false_or]
    exact exists_congr fun c => and_congr_right fun _ => mem_leaves

/-- The leaves are the nodes of height zero. -/
theorem level_leaves : {h : ℕ} → (t : BTree ι κ α h) → level 0 (descs t) = (leaves t).map Prod.fst
  | 0, ⟨l, es⟩ => by simp
  | h + 1, ⟨l, ks, cs⟩ => by
    simp only [descs_inner, level_cons, Desc.height_inner, Nat.add_one_ne_zero, if_false, leaves_inner]
    induction cs with
    | nil => rfl
    | cons c cs ih => simp [level_leaves c, ih]

/-- What the separators put between the children has no elements. -/
theorem elems_weave {ks : List κ} {cs : List (List (Tok κ α))} (h : cs.length = ks.length + 1) :
    elems (weave ks cs) = cs.flatMap elems := by
  obtain ⟨c, cs, rfl⟩ := List.exists_cons_of_length_eq_add_one h
  rw [weave, elems_append, List.flatMap_cons]
  congr 1
  induction ks generalizing cs with
  | nil =>
    obtain rfl : cs = [] := by simpa using h
    rfl
  | cons k ks ih =>
    obtain ⟨d, cs, rfl⟩ := List.exists_cons_of_length_eq_add_one (by simpa using h)
    simp [after, ih cs (by simpa using h)]

/-- The elements of the tree are those of its leaves. -/
theorem elems_toks {r lo hi : ℕ} : {h : ℕ} → {t : BTree ι κ α h} → Shape r lo hi t →
    elems (toks t) = (leaves t).flatMap Prod.snd
  | 0, ⟨l, es⟩, _ => by simp
  | h + 1, ⟨l, ks, cs⟩, hs => by
    obtain ⟨-, hlen, hcs⟩ := shape_inner.mp hs
    rw [toks_inner, elems_weave (by simpa using hlen), leaves_inner, List.flatMap_map, List.flatMap_assoc]
    exact List.flatMap_congr fun c hc => elems_toks (hcs c hc)

/-- A tree has a leaf, and more precisely its first child has its first leaf. -/
theorem leaves_ne_nil {r lo hi : ℕ} : {h : ℕ} → {t : BTree ι κ α h} → Shape r lo hi t → leaves t ≠ []
  | 0, _, _ => List.cons_ne_nil _ _
  | h + 1, ⟨l, ks, cs⟩, hs => by
    obtain ⟨-, hlen, hcs⟩ := shape_inner.mp hs
    obtain ⟨c, cs, rfl⟩ := List.exists_cons_of_length_eq_add_one hlen
    rw [leaves_inner, List.flatMap_cons]
    exact List.append_ne_nil_of_left_ne_nil (leaves_ne_nil (hcs c (List.mem_cons_self ..))) _

/-- Leaves have as many elements as the shape says. -/
theorem shape_leaves {r lo hi : ℕ} : {h : ℕ} → {t : BTree ι κ α h} → Shape r lo hi t →
    ∀ x ∈ leaves t, min r lo ≤ x.2.length ∧ x.2.length ≤ hi
  | 0, ⟨l, es⟩, hs, x, hx => by
    obtain rfl := List.mem_singleton.mp hx
    obtain ⟨h1, h2⟩ := shape_leaf.mp hs
    exact ⟨(Nat.min_le_left r lo).trans h1, h2⟩
  | h + 1, ⟨l, ks, cs⟩, hs, x, hx => by
    obtain ⟨-, -, hcs⟩ := shape_inner.mp hs
    obtain ⟨c, hc, hx⟩ := List.mem_flatMap.mp hx
    obtain ⟨h1, h2⟩ := shape_leaves (hcs c hc) x hx
    rw [Nat.min_self] at h1
    exact ⟨(Nat.min_le_right r lo).trans h1, h2⟩

/-- The leaf reached from the root by child `pick n` of every node of `n` keys. -/
def leafAt (pick : ℕ → ℕ) : {h : ℕ} → BTree ι κ α h → Option (ι × List (κ × α))
  | 0, t => some (Leaf.lbl t, Leaf.elems t)
  | _ + 1, t => (Inner.children t)[pick (Inner.keys t).length]?.bind (leafAt pick)

/-- The first children lead to the first leaf. -/
theorem leafAt_first {r lo hi : ℕ} : {h : ℕ} → {t : BTree ι κ α h} → Shape r lo hi t →
    leafAt (fun _ => 0) t = (leaves t).head?
  | 0, _, _ => rfl
  | h + 1, ⟨l, ks, cs⟩, hs => by
    obtain ⟨-, hlen, hcs⟩ := shape_inner.mp hs
    obtain ⟨c, cs, rfl⟩ := List.exists_cons_of_length_eq_add_one hlen
    have hc := hcs c (List.mem_cons_self ..)
    rw [leaves_inner, List.flatMap_cons, List.head?_append_of_ne_nil _ (leaves_ne_nil hc), ← leafAt_first hc]
    rfl

/-- The last children lead to the last leaf. -/
theorem leafAt_last {r lo hi : ℕ} : {h : ℕ} → {t : BTree ι κ α h} → Shape r lo hi t →
    leafAt id t = (leaves t).getLast?
  | 0, _, _ => rfl
  | h + 1, ⟨l, ks, cs⟩, hs => by
    obtain ⟨-, hlen, hcs⟩ := shape_inner.mp hs
    obtain ⟨cs, c, rfl⟩ : ∃ cs' c, cs = cs' ++ [c] := by
      rcases List.eq_nil_or_concat cs with rfl | ⟨cs', c, rfl⟩
      · simp at hlen
      · exact ⟨cs', c, by simp⟩
    have hc := hcs c (by simp)
    have hk : ks.length = cs.length := by simpa using hlen.symm
    rw [leaves_inner, List.flatMap_append, List.flatMap_singleton,
      List.getLast?_append_of_ne_nil _ (leaves_ne_nil hc), ← leafAt_last hc]
    simp [leafAt, hk]

/-- The tokens of a tree end with a leaf. -/
theorem toks_eq_concat {r lo hi : ℕ} : {h : ℕ} → {t : BTree ι κ α h} → Shape r lo hi t →
    ∃ Z es, toks t = Z ++ [.leaf es]
  | 0, ⟨_, es⟩, _ => ⟨[], es, rfl⟩
  | h + 1, ⟨l, ks, cs⟩, hs => by
    obtain ⟨-, hlen, hcs⟩ := shape_inner.mp hs
    obtain ⟨cs, c, rfl⟩ : ∃ cs' c, cs = cs' ++ [c] := by
      rcases List.eq_nil_or_concat cs with rfl | ⟨cs', c, rfl⟩
      · simp at hlen
      · exact ⟨cs', c, by simp⟩
    obtain ⟨Z, es, hc⟩ := toks_eq_concat (hcs c (by simp))
    have hk : cs.length = ks.length := by simpa using hlen
    refine ⟨before ks (cs.map toks) ++ Z, es, ?_⟩
    have := weave_hole (P := ks) (A := cs.map toks) (by simpa using hk) [] (toks c) []
    rw [List.append_nil] at this
    rw [toks_inner, List.map_append, List.map_cons, List.map_nil, this, hc]
    simp [after]

/-- Asking less of the nodes below the root. -/
theorem Shape.mono {r lo lo' hi : ℕ} (hlo : lo' ≤ lo) : {h : ℕ} → {t : BTree ι κ α h} → Shape r lo hi t →
    Shape r lo' hi t
  | 0, _, h => h
  | _ + 1, ⟨_, _, _⟩, h =>
    ⟨h.1, h.2.1, fun c hc => ((h.2.2 c hc).mono hlo).root (hlo.trans (h.2.2 c hc).le_count)⟩

/-! ### Subtrees -/

/-- The trees below all nodes, each node before its children. -/
def subtrees : {h : ℕ} → BTree ι κ α h → List ((h : ℕ) × BTree ι κ α h)
  | 0, t => [⟨0, t⟩]
  | h + 1, t => ⟨h + 1, t⟩ :: (Inner.children t).flatMap subtrees

/-- What each child has of its parent holds everywhere. -/
theorem forall_subtrees {P : {h : ℕ} → BTree ι κ α h → Prop}
    (hP : ∀ {h : ℕ} {l : ι} {ks : List κ} {cs : List (BTree ι κ α h)}, @P (h + 1) ⟨l, ks, cs⟩ → ∀ c ∈ cs, P c) :
    {h : ℕ} → {t : BTree ι κ α h} → P t → ∀ x ∈ subtrees t, P x.2
  | 0, t, ht, x, hx => by
    obtain rfl := List.mem_singleton.mp hx
    exact ht
  | h + 1, ⟨l, ks, cs⟩, ht, x, hx => by
    rcases List.mem_cons.mp hx with rfl | hx
    · exact ht
    · obtain ⟨c, hc, hx⟩ := List.mem_flatMap.mp hx
      exact forall_subtrees hP (hP ht c hc) x hx

/-! ### Separators -/

theorem mem_seps_weave {ks : List κ} {cs : List (List (Tok κ α))} {k : κ} (h : cs.length = ks.length + 1) :
    k ∈ seps (weave ks cs) ↔ k ∈ ks ∨ ∃ c ∈ cs, k ∈ seps c := by
  obtain ⟨c, cs, rfl⟩ := List.exists_cons_of_length_eq_add_one h
  suffices H : k ∈ seps (after ks cs) ↔ k ∈ ks ∨ ∃ c ∈ cs, k ∈ seps c by
    rw [weave, seps_append, List.mem_append, H, List.exists_mem_cons_iff]
    exact or_left_comm
  induction ks generalizing cs with
  | nil =>
    obtain rfl : cs = [] := by simpa using h
    simp [after]
  | cons k' ks ih =>
    obtain ⟨d, cs, rfl⟩ := List.exists_cons_of_length_eq_add_one (by simpa using h)
    have := ih cs (by simpa using h)
    rw [after, seps_sep, seps_append, List.mem_cons, List.mem_append, this, List.mem_cons, List.exists_mem_cons_iff]
    tauto

/-- The separators of a tree are those of its inner nodes. -/
theorem mem_seps_toks {k : κ} {r lo hi : ℕ} : {h : ℕ} → {t : BTree ι κ α h} → Shape r lo hi t →
    (k ∈ seps (toks t) ↔ ∃ d ∈ descs t, k ∈ d.seps)
  | 0, ⟨l, es⟩, _ => by simp [Desc.seps]
  | h + 1, ⟨l, ks, cs⟩, hs => by
    obtain ⟨-, hlen, hcs⟩ := shape_inner.mp hs
    rw [toks_inner, mem_seps_weave (by simpa using hlen), descs_inner, List.exists_mem_cons_iff]
    refine or_congr (Iff.refl _) ⟨?_, ?_⟩
    · rintro ⟨ts, hts, hk⟩
      obtain ⟨c, hc, rfl⟩ := List.mem_map.mp hts
      obtain ⟨d, hd, hk⟩ := (mem_seps_toks (hcs c hc)).mp hk
      exact ⟨d, List.mem_flatMap.mpr ⟨c, hc, hd⟩, hk⟩
    · rintro ⟨d, hd, hk⟩
      obtain ⟨c, hc, hd⟩ := List.mem_flatMap.mp hd
      exact ⟨_, List.mem_map_of_mem hc, (mem_seps_toks (hcs c hc)).mpr ⟨d, hd, hk⟩⟩

/-! ### Order, node by node -/

/-- The two children around a separator, in the string of tokens. -/
theorem toks_sep {h i : ℕ} {l : ι} {ks : List κ} {cs : List (BTree ι κ α h)} {k : κ}
    (hlen : cs.length = ks.length + 1) (hk : ks[i]? = some k) :
    ∃ c c' X Y, cs[i]? = some c ∧ cs[i + 1]? = some c' ∧
      @toks ι κ α (h + 1) ⟨l, ks, cs⟩ = X ++ toks c ++ .sep k :: (toks c' ++ Y) := by
  obtain ⟨P, Q, rfl, rfl, -⟩ := hole hk
  simp only [List.length_append, List.length_cons] at hlen
  obtain ⟨c, hc⟩ : ∃ c, cs[P.length]? = some c := ⟨_, List.getElem?_eq_getElem (by omega)⟩
  obtain ⟨A, B, rfl, hA, -⟩ := hole hc
  simp only [List.length_append, List.length_cons] at hlen
  obtain ⟨c', B, rfl⟩ : ∃ c' B', B = c' :: B' := List.exists_cons_of_length_eq_add_one (n := Q.length) (by omega)
  refine ⟨c, c', before P (A.map toks), after Q (B.map toks), hc, by simp [← hA], ?_⟩
  rw [toks_inner, List.map_append, List.map_cons, weave_hole (by simpa using hA)]
  rfl

/-- The separators of a node stand in its tokens in their order. -/
theorem sublist_weave {ks : List κ} {cs : List (List (Tok κ α))} (h : cs.length = ks.length + 1) :
    ks.Sublist (inorder (weave ks cs)) := by
  obtain ⟨c, cs, rfl⟩ := List.exists_cons_of_length_eq_add_one h
  rw [weave, inorder_append]
  refine List.Sublist.trans ?_ (List.sublist_append_right _ _)
  induction ks generalizing cs with
  | nil => exact List.nil_sublist _
  | cons k ks ih =>
    obtain ⟨d, cs, rfl⟩ := List.exists_cons_of_length_eq_add_one (by simpa using h)
    rw [after, inorder_sep, inorder_append]
    exact ((ih cs (by simpa using h)).trans (List.sublist_append_right _ _)).cons_cons k

section Order

variable [LinearOrder κ]

/-- The keys of every node do not decrease, and every key of the child before a separator
is at most the separator, every key of the child behind it at least the separator. -/
def Ordered : {h : ℕ} → BTree ι κ α h → Prop
  | 0, t => ((Leaf.elems t).map Prod.fst).Pairwise (· ≤ ·)
  | _ + 1, t =>
    (Inner.keys t).Pairwise (· ≤ ·) ∧
      (∀ i k, (Inner.keys t)[i]? = some k →
        (∀ c, (Inner.children t)[i]? = some c → ∀ x ∈ inorder (toks c), x ≤ k) ∧
          ∀ c, (Inner.children t)[i + 1]? = some c → ∀ x ∈ inorder (toks c), k ≤ x) ∧
      ∀ c ∈ Inner.children t, Ordered c

/-- A tree whose tokens are sorted is ordered. -/
theorem Sorted.ordered {r lo hi : ℕ} : {h : ℕ} → {t : BTree ι κ α h} → Shape r lo hi t → Sorted (toks t) →
    Ordered t
  | 0, ⟨l, es⟩, _, hs => by simpa [Sorted, Ordered] using hs
  | h + 1, ⟨l, ks, cs⟩, hshape, hs => by
    obtain ⟨-, hlen, hcs⟩ := shape_inner.mp hshape
    refine ⟨hs.sublist (sublist_weave (by simpa using hlen)), fun i k hk => ?_, fun c hc => ?_⟩
    · obtain ⟨c, c', X, Y, hci, hci', ht⟩ := toks_sep (l := l) hlen hk
      rw [ht] at hs
      constructor
      · intro d hd x hx
        obtain rfl : c = d := Option.some_inj.mp (hci.symm.trans hd)
        exact hs.le (by simp [hx]) (by simp)
      · intro d hd x hx
        obtain rfl : c' = d := Option.some_inj.mp (hci'.symm.trans hd)
        have : Sorted ([.sep k] ++ (toks c' ++ Y)) := hs.right
        exact this.le (by simp) (by simp [hx])
    · obtain ⟨i, hi, rfl⟩ := List.getElem_of_mem hc
      have hci : cs[i]? = some cs[i] := List.getElem?_eq_getElem hi
      obtain ⟨X, Y, htoks, -, -⟩ := toks_hole (l := l) hci hlen
      have hself := htoks cs[i]
      rw [set_self hci] at hself
      rw [hself] at hs
      exact Sorted.ordered (hcs _ hc) hs.left.right

/-- Where a key that a node does not have must be: everything before the child found is
below it and everything behind is above it. -/
theorem lookup_bounds {h : ℕ} {l : ι} {P Q : List κ} {A B : List (BTree ι κ α h)} {c : BTree ι κ α h} {key : κ}
    (hs : Sorted (@toks ι κ α (h + 1) ⟨l, P ++ Q, A ++ c :: B⟩)) (hA : A.length = P.length)
    (hf : Found (P ++ Q) key P.length) (hne : (P ++ Q)[P.length]? ≠ some key) :
    (∀ x ∈ inorder (before P (A.map toks)), x < key) ∧ ∀ y ∈ inorder (after Q (B.map toks)), key < y := by
  rw [toks_inner, List.map_append, List.map_cons, weave_hole (by simpa using hA)] at hs
  obtain ⟨-, hlt, hgt⟩ := hf.resolve_left hne
  refine ⟨fun x hx => ?_, fun y hy => ?_⟩
  · rcases List.eq_nil_or_concat P with rfl | ⟨P, p, rfl⟩
    · simp [before] at hx
    · rw [List.concat_eq_append] at hA hs hlt hx
      have hpk := hlt P.length p (by simp) (by simp)
      rw [before_concat (by simpa using hA)] at hs hx
      rw [inorder_append, List.mem_append] at hx
      rcases hx with hx | hx
      · exact (hs.left.left.le hx (by simp)).trans_lt hpk
      · obtain rfl : x = p := by simpa using hx
        exact hpk
  · cases Q with
    | nil => simp [after] at hy
    | cons q Q =>
      have hqk := hgt P.length q (Nat.le_refl _) (by simp)
      cases B with
      | nil => simp [after] at hy
      | cons b B =>
        rw [List.map_cons, after] at hs hy
        rw [inorder_sep, List.mem_cons] at hy
        rcases hy with rfl | hy
        · exact hqk
        · have hr : Sorted ([.sep q] ++ _) := hs.right
          exact hqk.trans_le (hr.le (by simp) hy)

theorem lookup_hole {h n : ℕ} {l : ι} {ks : List κ} {cs : List (BTree ι κ α h)} {key : κ}
    (hs : Sorted (@toks ι κ α (h + 1) ⟨l, ks, cs⟩)) (hlen : cs.length = ks.length + 1) (hf : Found ks key n)
    (hne : ks[n]? ≠ some key) : ∃ c X Y, cs[n]? = some c ∧ @toks ι κ α (h + 1) ⟨l, ks, cs⟩ = X ++ toks c ++ Y ∧
      (∀ x ∈ inorder X, x < key) ∧ ∀ y ∈ inorder Y, key < y := by
  have hle := hf.le
  obtain ⟨c, hc⟩ : ∃ c, cs[n]? = some c := ⟨_, List.getElem?_eq_getElem (by omega)⟩
  obtain ⟨A, B, rfl, rfl, -⟩ := hole hc
  have hP : (ks.take A.length).length = A.length := List.length_take_of_le hle
  have hks := List.take_append_drop A.length ks
  generalize ks.take A.length = P at hP hks
  generalize ks.drop A.length = Q at hks
  subst hks
  rw [← hP] at hf hne
  obtain ⟨h1, h2⟩ := lookup_bounds hs hP.symm hf hne
  refine ⟨c, before P (A.map toks), after Q (B.map toks), hc, ?_, h1, h2⟩
  rw [toks_inner, List.map_append, List.map_cons, weave_hole (by simpa using hP.symm)]

end Order

end BTree

end BPlus
