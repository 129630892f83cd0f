import RedB.Theory.Search
import RedB.Theory.Tokens

/-!
# B+trees

A B+tree of height `h` over node labels `ι`, keys `κ` and values `α`. The height is an
index of the type, so that all leaves of a tree have the same depth by construction.
The labels stand for whatever names the nodes in a store; a tree is then a picture of
the store, and `descs`, the list of its node descriptors, is what the store has to
hold for the picture to be true.
-/

namespace BPlus

/-- A leaf. -/
structure Leaf (ι κ α : Type) where
  /-- The name of the node. -/
  lbl : ι
  /-- Its elements. -/
  elems : List (κ × α)

/-- An inner node. -/
structure Inner (ι κ β : Type) where
  /-- The name of the node. -/
  lbl : ι
  /-- Its separators. -/
  keys : List κ
  /-- Its children. -/
  children : List β

/-- The B+trees of height `h`. -/
def BTree (ι κ α : Type) : ℕ → Type
  | 0 => Leaf ι κ α
  | h + 1 => Inner ι κ (BTree ι κ α h)

/-- What a node says about itself, its children given by name. -/
inductive Desc (ι κ α : Type) where
  /-- A leaf with its elements. -/
  | leaf (lbl : ι) (es : List (κ × α))
  /-- An inner node with its height, its separators and its children. -/
  | inner (lbl : ι) (height : ℕ) (ks : List κ) (cs : List ι)

variable {ι κ α : Type}

/-- The name of the node. -/
def Desc.label : Desc ι κ α → ι
  | .leaf l _ => l
  | .inner l _ _ _ => l

/-- The height of the node. -/
def Desc.height : Desc ι κ α → ℕ
  | .leaf _ _ => 0
  | .inner _ h _ _ => h

/-- Whether the node is a leaf. -/
def Desc.isLeaf : Desc ι κ α → Bool
  | .leaf _ _ => true
  | .inner _ _ _ _ => false

/-- The separators of the node. -/
def Desc.seps : Desc ι κ α → List κ
  | .leaf _ _ => []
  | .inner _ _ ks _ => ks

@[simp] theorem Desc.label_leaf (l : ι) (es : List (κ × α)) : (Desc.leaf l es).label = l := rfl

@[simp] theorem Desc.label_inner (l : ι) (h : ℕ) (ks : List κ) (cs : List ι) :
    (Desc.inner l h ks cs : Desc ι κ α).label = l := rfl

@[simp] theorem Desc.height_leaf (l : ι) (es : List (κ × α)) : (Desc.leaf l es).height = 0 := rfl

@[simp] theorem Desc.height_inner (l : ι) (h : ℕ) (ks : List κ) (cs : List ι) :
    (Desc.inner l h ks cs : Desc ι κ α).height = h := rfl

/-- The names of the nodes of height `h`, from left to right. -/
def level (h : ℕ) (ds : List (Desc ι κ α)) : List ι := (ds.filter fun d => d.height = h).map Desc.label

@[simp] theorem level_nil (h : ℕ) : level h ([] : List (Desc ι κ α)) = [] := rfl

@[simp] theorem level_append (h : ℕ) (a b : List (Desc ι κ α)) : level h (a ++ b) = level h a ++ level h b := by
  simp [level]

@[simp] theorem level_cons (h : ℕ) (d : Desc ι κ α) (ds : List (Desc ι κ α)) :
    level h (d :: ds) = if d.height = h then d.label :: level h ds else level h ds := by
  rw [level, List.filter_cons]
  split <;> simp_all [level]

/-- There is nothing at a height that no node has. -/
theorem level_eq_nil {h : ℕ} {ds : List (Desc ι κ α)} (hd : ∀ d ∈ ds, d.height < h) : level h ds = [] := by
  rw [level, List.filter_eq_nil_iff.mpr, List.map_nil]
  intro d hm
  have := hd d hm
  simp
  omega

namespace BTree

/-! ### Reading a tree -/

/-- The name of the root. -/
def label : {h : ℕ} → BTree ι κ α h → ι
  | 0, t => Leaf.lbl t
  | _ + 1, t => Inner.lbl t

/-- The number of keys in the root. -/
def count : {h : ℕ} → BTree ι κ α h → ℕ
  | 0, t => (Leaf.elems t).length
  | _ + 1, t => (Inner.keys t).length

/-- The descriptors of the nodes, each node before its children. -/
def descs : {h : ℕ} → BTree ι κ α h → List (Desc ι κ α)
  | 0, t => [.leaf (Leaf.lbl t) (Leaf.elems t)]
  | h + 1, t =>
    .inner (Inner.lbl t) (h + 1) (Inner.keys t) ((Inner.children t).map label) ::
      (Inner.children t).flatMap descs

@[simp] theorem label_leaf (l : ι) (es : List (κ × α)) : @label ι κ α 0 ⟨l, es⟩ = l := rfl

@[simp] theorem label_inner {h : ℕ} (l : ι) (ks : List κ) (cs : List (BTree ι κ α h)) :
    @label ι κ α (h + 1) ⟨l, ks, cs⟩ = l := rfl

@[simp] theorem count_leaf (l : ι) (es : List (κ × α)) : @count ι κ α 0 ⟨l, es⟩ = es.length := rfl

@[simp] theorem count_inner {h : ℕ} (l : ι) (ks : List κ) (cs : List (BTree ι κ α h)) :
    @count ι κ α (h + 1) ⟨l, ks, cs⟩ = ks.length := rfl

@[simp] theorem descs_leaf (l : ι) (es : List (κ × α)) : @descs ι κ α 0 ⟨l, es⟩ = [.leaf l es] := rfl

@[simp] theorem descs_inner {h : ℕ} (l : ι) (ks : List κ) (cs : List (BTree ι κ α h)) :
    @descs ι κ α (h + 1) ⟨l, ks, cs⟩ = .inner l (h + 1) ks (cs.map label) :: cs.flatMap descs := rfl

/-- The descriptor of the root. -/
def rootDesc : {h : ℕ} → BTree ι κ α h → Desc ι κ α
  | 0, t => .leaf (Leaf.lbl t) (Leaf.elems t)
  | h + 1, t => .inner (Inner.lbl t) (h + 1) (Inner.keys t) ((Inner.children t).map label)

/-- The descriptors of the nodes below the root. -/
def subDescs : {h : ℕ} → BTree ι κ α h → List (Desc ι κ α)
  | 0, _ => []
  | _ + 1, t => (Inner.children t).flatMap descs

theorem descs_eq : {h : ℕ} → (t : BTree ι κ α h) → descs t = rootDesc t :: subDescs t
  | 0, _ => rfl
  | _ + 1, _ => rfl

@[simp] theorem label_rootDesc : {h : ℕ} → (t : BTree ι κ α h) → (rootDesc t).label = t.label
  | 0, _ => rfl
  | _ + 1, _ => rfl

@[simp] theorem height_rootDesc : {h : ℕ} → (t : BTree ι κ α h) → (rootDesc t).height = h
  | 0, _ => rfl
  | _ + 1, _ => rfl

/-- No node is higher than the tree. -/
theorem height_le : {h : ℕ} → (t : BTree ι κ α h) → ∀ d ∈ descs t, d.height ≤ h
  | 0, ⟨l, es⟩, d, hd => by
    obtain rfl : d = .leaf l es := by simpa using hd
    exact Nat.le_refl _
  | h + 1, ⟨l, ks, cs⟩, d, hd => by
    rw [descs_inner, List.mem_cons, List.mem_flatMap] at hd
    rcases hd with rfl | ⟨c, -, hc⟩
    · exact Nat.le_refl _
    · exact (height_le c d hc).trans (Nat.le_succ h)

/-- The nodes below the root are lower than the tree. -/
theorem height_lt : {h : ℕ} → (t : BTree ι κ α h) → ∀ d ∈ subDescs t, d.height < h
  | 0, _, d, hd => by simp [subDescs] at hd
  | h + 1, ⟨l, ks, cs⟩, d, hd => by
    obtain ⟨c, -, hc⟩ := List.mem_flatMap.mp hd
    exact Nat.lt_succ_of_le (height_le c d hc)

/-! ### A tree as a string of tokens -/

/-- Trees behind separators, one after the other. -/
def after : List κ → List (List (Tok κ α)) → List (Tok κ α)
  | k :: ks, c :: cs => .sep k :: (c ++ after ks cs)
  | _, _ => []

/-- Trees before separators, one after the other. -/
def before : List κ → List (List (Tok κ α)) → List (Tok κ α)
  | k :: ks, c :: cs => c ++ .sep k :: before ks cs
  | _, _ => []

/-- The separators of a node between its children. -/
def weave (ks : List κ) : List (List (Tok κ α)) → List (Tok κ α)
  | [] => []
  | c :: cs => c ++ after ks cs

/-- The tokens of a tree. -/
def toks : {h : ℕ} → BTree ι κ α h → List (Tok κ α)
  | 0, t => [.leaf (Leaf.elems t)]
  | _ + 1, t => weave (Inner.keys t) ((Inner.children t).map toks)

@[simp] theorem toks_leaf (l : ι) (es : List (κ × α)) : @toks ι κ α 0 ⟨l, es⟩ = [.leaf es] := rfl

@[simp] theorem toks_inner {h : ℕ} (l : ι) (ks : List κ) (cs : List (BTree ι κ α h)) :
    @toks ι κ α (h + 1) ⟨l, ks, cs⟩ = weave ks (cs.map toks) := rfl

/-- A node seen from one of its children. -/
theorem weave_hole {P : List κ} {A : List (List (Tok κ α))} (h : A.length = P.length) (Q : List κ)
    (c : List (Tok κ α)) (B : List (List (Tok κ α))) :
    weave (P ++ Q) (A ++ c :: B) = before P A ++ c ++ after Q B := by
  cases A with
  | nil =>
    obtain rfl : P = [] := List.eq_nil_of_length_eq_zero h.symm
    rfl
  | cons a A =>
    rw [List.cons_append, weave]
    induction P generalizing a A with
    | nil => simp at h
    | cons p P ih =>
      cases A with
      | nil =>
        obtain rfl : P = [] := by simpa using h.symm
        simp [after, before]
      | cons a' A =>
        have := ih a' A (by simpa using h)
        simp only [List.cons_append, after, before, this, List.append_assoc]

/-- What lies before a child ends with the separator before the child. -/
theorem before_concat {P : List κ} {A : List (List (Tok κ α))} (h : A.length = P.length + 1) (p : κ) :
    before (P ++ [p]) A = weave P A ++ [.sep p] := by
  obtain ⟨a, A, rfl⟩ := List.exists_cons_of_length_eq_add_one h
  rw [weave]
  induction P generalizing a A with
  | nil =>
    obtain rfl : A = [] := by simpa using h
    simp [before, after]
  | cons q P ih =>
    obtain ⟨b, A, rfl⟩ := List.exists_cons_of_length_eq_add_one (by simpa using h)
    have := ih b A (by simpa using h)
    simp only [List.cons_append, before, after, this, List.append_assoc]

/-! ### Shape -/

/-- The root has `r` to `hi` keys, every other node `lo` to `hi`, and every inner node
one child more than keys. -/
def Shape (r lo hi : ℕ) : {h : ℕ} → BTree ι κ α h → Prop
  | 0, t => r ≤ (Leaf.elems t).length ∧ (Leaf.elems t).length ≤ hi
  | _ + 1, t =>
    (r ≤ (Inner.keys t).length ∧ (Inner.keys t).length ≤ hi) ∧
      (Inner.children t).length = (Inner.keys t).length + 1 ∧ ∀ c ∈ Inner.children t, Shape lo lo hi c

theorem shape_leaf {r lo hi : ℕ} {l : ι} {es : List (κ × α)} :
    @Shape ι κ α r lo hi 0 ⟨l, es⟩ ↔ r ≤ es.length ∧ es.length ≤ hi := Iff.rfl

theorem shape_inner {r lo hi h : ℕ} {l : ι} {ks : List κ} {cs : List (BTree ι κ α h)} :
    @Shape ι κ α r lo hi (h + 1) ⟨l, ks, cs⟩ ↔
      (r ≤ ks.length ∧ ks.length ≤ hi) ∧ cs.length = ks.length + 1 ∧ ∀ c ∈ cs, Shape lo lo hi c := Iff.rfl

theorem Shape.count_le {r lo hi : ℕ} : {h : ℕ} → {t : BTree ι κ α h} → Shape r lo hi t → t.count ≤ hi
  | 0, _, h => h.2
  | _ + 1, _, h => h.1.2

theorem Shape.le_count {r lo hi : ℕ} : {h : ℕ} → {t : BTree ι κ α h} → Shape r lo hi t → r ≤ t.count
  | 0, _, h => h.1
  | _ + 1, _, h => h.1.1

/-- Only the number of keys of the root depends on the root's bound. -/
theorem Shape.root {r r' lo hi : ℕ} :
    {h : ℕ} → {t : BTree ι κ α h} → Shape r lo hi t → r' ≤ t.count → Shape r' lo hi t
  | 0, _, h, hr => ⟨hr, h.2⟩
  | _ + 1, _, h, hr => ⟨⟨hr, h.1.2⟩, h.2⟩

/-! ### One child of a node -/

/-- A position of a list, with what lies left and right of it. -/
theorem hole {β : Type} {cs : List β} {n : ℕ} {c : β} (h : cs[n]? = some c) :
    ∃ A B, cs = A ++ c :: B ∧ A.length = n ∧ ∀ c', cs.set n c' = A ++ c' :: B := by
  obtain ⟨hn, rfl⟩ := List.getElem?_eq_some_iff.mp h
  refine ⟨cs.take n, cs.drop (n + 1), ?_, List.length_take_of_le (Nat.le_of_lt hn), fun c' => ?_⟩
  · rw [List.getElem_cons_drop, List.take_append_drop]
  · rw [List.set_eq_take_append_cons_drop, if_pos hn]

theorem set_self {β : Type} {cs : List β} {n : ℕ} {c : β} (h : cs[n]? = some c) : cs.set n c = cs := by
  obtain ⟨hn, rfl⟩ := List.getElem?_eq_some_iff.mp h
  exact List.set_getElem_self hn

/-- The descriptors of a node around those of one of its children. -/
theorem descs_hole {h : ℕ} (l : ι) (ks : List κ) {cs : List (BTree ι κ α h)} {n : ℕ} {c : BTree ι κ α h}
    (hc : cs[n]? = some c) : ∃ A B, ∀ c', c'.label = c.label →
      @descs ι κ α (h + 1) ⟨l, ks, cs.set n c'⟩ = A ++ descs c' ++ B := by
  obtain ⟨A, B, rfl, rfl, hset⟩ := hole hc
  refine ⟨.inner l (h + 1) ks ((A ++ c :: B).map label) :: A.flatMap descs, B.flatMap descs, fun c' hc' => ?_⟩
  rw [hset]
  simp [hc']

/-- The tokens of a node around one of its children. -/
theorem toks_hole {h : ℕ} {l : ι} {ks : List κ} {cs : List (BTree ι κ α h)} {n : ℕ} {c : BTree ι κ α h}
    (hc : cs[n]? = some c) (hlen : cs.length = ks.length + 1) :
    ∃ X Y, (∀ c', @toks ι κ α (h + 1) ⟨l, ks, cs.set n c'⟩ = X ++ toks c' ++ Y) ∧
      (X = [] ∨ ∃ m p X', n = m + 1 ∧ ks[m]? = some p ∧ X = X' ++ [.sep p]) ∧
      (Y = [] ∨ ∃ q Y', ks[n]? = some q ∧ Y = .sep q :: Y') := by
  obtain ⟨A, B, rfl, rfl, hset⟩ := hole hc
  simp only [List.length_append, List.length_cons] at hlen
  have hP : (ks.take A.length).length = A.length := by simp; omega
  refine ⟨before (ks.take A.length) (A.map toks), after (ks.drop A.length) (B.map toks), fun c' => ?_, ?_, ?_⟩
  · rw [toks_inner, hset, List.map_append, List.map_cons, ← weave_hole (by simp [hP]),
      List.take_append_drop]
  · rcases List.eq_nil_or_concat (ks.take A.length) with h0 | ⟨P, p, h0⟩
    · left
      rw [h0]
      rfl
    · right
      rw [List.concat_eq_append] at h0
      rw [h0, List.length_append, List.length_singleton] at hP
      have hX := before_concat (P := P) (A := A.map toks) (by simp [hP]) p
      refine ⟨P.length, p, _, hP.symm, ?_, by rw [h0, hX]⟩
      have : (ks.take A.length)[P.length]? = some p := by simp [h0]
      rwa [List.getElem?_take_of_lt (by omega)] at this
  · cases hQ : ks.drop A.length with
    | nil => exact .inl rfl
    | cons q Q =>
      cases B with
      | nil => exact .inl rfl
      | cons b B =>
        refine .inr ⟨q, _, ?_, rfl⟩
        have : (ks.drop A.length)[0]? = some q := by rw [hQ]; rfl
        simpa using this

end BTree

end BPlus
