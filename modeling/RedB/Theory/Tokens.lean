import Mathlib.Data.List.Basic
import Mathlib.Data.List.Chain
import Mathlib.Data.List.Pairwise
import Mathlib.Data.Nat.Notation
import Mathlib.Logic.Relation
import Mathlib.Order.Defs.LinearOrder
import Mathlib.Order.Lattice

/-!
# What a B+tree says, read from left to right

In a B+tree every element lives in a leaf and the inner nodes hold only separators,
so the tree read in order is a string that alternates leaves and separators: its
*tokens*. Rebalancing the inner levels does not change the string; splitting a leaf
puts a separator in it; inserting changes one leaf of it. The order of the tree
(`Sorted`) and the rule that a separator repeats the last key of the leaf before it
(`SepLast`) are properties of the string alone.
-/

namespace BPlus

variable {κ α : Type}

/-- A leaf with its elements, or a separator. -/
inductive Tok (κ α : Type) where
  /-- A leaf. -/
  | leaf (es : List (κ × α))
  /-- A separator between two leaves. -/
  | sep (k : κ)

/-- The keys of a token. -/
def Tok.keys : Tok κ α → List κ
  | .leaf es => es.map Prod.fst
  | .sep k => [k]

/-- The elements of a token. -/
def Tok.elems : Tok κ α → List (κ × α)
  | .leaf es => es
  | .sep _ => []

/-- The separator that a token is. -/
def Tok.seps : Tok κ α → List κ
  | .leaf _ => []
  | .sep k => [k]

/-- The keys of a string of tokens, separators included. -/
def inorder (ts : List (Tok κ α)) : List κ := ts.flatMap Tok.keys

/-- The elements of a string of tokens. -/
def elems (ts : List (Tok κ α)) : List (κ × α) := ts.flatMap Tok.elems

/-- The separators of a string of tokens. -/
def seps (ts : List (Tok κ α)) : List κ := ts.flatMap Tok.seps

@[simp] theorem seps_nil : seps ([] : List (Tok κ α)) = [] := rfl

@[simp] theorem seps_append (a b : List (Tok κ α)) : seps (a ++ b) = seps a ++ seps b := by
  simp [seps]

@[simp] theorem seps_leaf (es : List (κ × α)) (ts : List (Tok κ α)) : seps (.leaf es :: ts) = seps ts := rfl

@[simp] theorem seps_sep (k : κ) (ts : List (Tok κ α)) : seps (.sep k :: ts) = k :: seps ts := rfl

@[simp] theorem inorder_nil : inorder ([] : List (Tok κ α)) = [] := rfl

@[simp] theorem inorder_append (a b : List (Tok κ α)) : inorder (a ++ b) = inorder a ++ inorder b := by
  simp [inorder]

@[simp] theorem inorder_leaf (es : List (κ × α)) (ts : List (Tok κ α)) :
    inorder (.leaf es :: ts) = es.map Prod.fst ++ inorder ts := rfl

@[simp] theorem inorder_sep (k : κ) (ts : List (Tok κ α)) : inorder (.sep k :: ts) = k :: inorder ts := rfl

@[simp] theorem elems_nil : elems ([] : List (Tok κ α)) = [] := rfl

@[simp] theorem elems_append (a b : List (Tok κ α)) : elems (a ++ b) = elems a ++ elems b := by
  simp [elems]

@[simp] theorem elems_leaf (es : List (κ × α)) (ts : List (Tok κ α)) :
    elems (.leaf es :: ts) = es ++ elems ts := rfl

@[simp] theorem elems_sep (k : κ) (ts : List (Tok κ α)) : elems (.sep k :: ts) = elems ts := rfl

/-- The keys of the elements are among the keys of the string, in the same order. -/
theorem elems_sublist (ts : List (Tok κ α)) : ((elems ts).map Prod.fst).Sublist (inorder ts) := by
  induction ts with
  | nil => exact List.Sublist.refl _
  | cons t ts ih =>
    cases t with
    | leaf es => simpa using (List.append_sublist_append_left (es.map Prod.fst)).mpr ih
    | sep k => simpa using ih.cons k

/-- A key of the string is a separator or the key of an element. -/
theorem mem_inorder {k : κ} {ts : List (Tok κ α)} : k ∈ inorder ts ↔ k ∈ seps ts ∨ k ∈ (elems ts).map Prod.fst := by
  induction ts with
  | nil => simp
  | cons t ts ih =>
    cases t with
    | leaf es =>
      rw [inorder_leaf, List.mem_append, ih, seps_leaf, elems_leaf, List.map_append, List.mem_append]
      exact or_left_comm
    | sep k' => rw [inorder_sep, List.mem_cons, ih, seps_sep, List.mem_cons, elems_sep, or_assoc]

/-! ### Order -/

section Order

variable [LinearOrder κ]

/-- The keys do not decrease from left to right. -/
def Sorted (ts : List (Tok κ α)) : Prop := (inorder ts).Pairwise (· ≤ ·)

theorem Sorted.left {a b : List (Tok κ α)} (h : Sorted (a ++ b)) : Sorted a := by
  rw [Sorted, inorder_append] at h
  exact (List.pairwise_append.mp h).1

theorem Sorted.right {a b : List (Tok κ α)} (h : Sorted (a ++ b)) : Sorted b := by
  rw [Sorted, inorder_append] at h
  exact (List.pairwise_append.mp h).2.1

theorem Sorted.le {a b : List (Tok κ α)} (h : Sorted (a ++ b)) {x y : κ} (hx : x ∈ inorder a)
    (hy : y ∈ inorder b) : x ≤ y := by
  rw [Sorted, inorder_append] at h
  exact (List.pairwise_append.mp h).2.2 x hx y hy

/-- The elements of a sorted string are sorted by key. -/
theorem Sorted.elems {ts : List (Tok κ α)} (h : Sorted ts) :
    ((BPlus.elems ts).map Prod.fst).Pairwise (· ≤ ·) := h.sublist (elems_sublist ts)

end Order

/-! ### Separators -/

/-- What may follow what: the separator behind a leaf is the leaf's last key. -/
def Follows : Tok κ α → Tok κ α → Prop
  | .leaf es, .sep k => (es.map Prod.fst).getLast? = some k
  | _, _ => True

/-- Every separator repeats the last key of the leaf just left of it. -/
def SepLast (ts : List (Tok κ α)) : Prop := ts.IsChain Follows

theorem SepLast.left {a b : List (Tok κ α)} (h : SepLast (a ++ b)) : SepLast a :=
  (List.isChain_append.mp h).1

theorem SepLast.right {a b : List (Tok κ α)} (h : SepLast (a ++ b)) : SepLast b :=
  (List.isChain_append.mp h).2.1

/-- A leaf in the middle of a string, when what follows it follows its last key. -/
theorem sepLast_replace {X Y : List (Tok κ α)} {es es' : List (κ × α)} (h : SepLast (X ++ .leaf es :: Y))
    (hl : ∀ k, Y.head? = some (.sep k) → (es.map Prod.fst).getLast? = some k →
      (es'.map Prod.fst).getLast? = some k) : SepLast (X ++ .leaf es' :: Y) := by
  obtain ⟨hX, hY, hXY⟩ := List.isChain_append.mp h
  refine List.isChain_append.mpr ⟨hX, ?_, ?_⟩
  · cases Y with
    | nil => exact List.isChain_singleton _
    | cons y Y =>
      rw [List.isChain_cons_cons] at hY ⊢
      refine ⟨?_, hY.2⟩
      cases y with
      | leaf _ => trivial
      | sep k => exact hl k rfl hY.1
  · intro x hx y hy
    simp only [List.head?_cons, Option.mem_some_iff] at hy
    subst hy
    cases x <;> trivial

/-! ### Splitting a leaf -/

/-- One leaf of the string is split behind one of its elements, whose key becomes the
separator. -/
inductive SplitLeaf : List (Tok κ α) → List (Tok κ α) → Prop where
  /-- The leaf `l; e; r` becomes the leaves `l; e` and `r`. -/
  | mk (X Y : List (Tok κ α)) (l r : List (κ × α)) (e : κ × α) (hr : r ≠ []) :
      SplitLeaf (X ++ .leaf (l ++ e :: r) :: Y) (X ++ .leaf (l ++ [e]) :: .sep e.1 :: .leaf r :: Y)

/-- Any number of leaf splits. -/
def Splits : List (Tok κ α) → List (Tok κ α) → Prop := Relation.ReflTransGen SplitLeaf

theorem Splits.refl (a : List (Tok κ α)) : Splits a a := Relation.ReflTransGen.refl

theorem Splits.trans {a b c : List (Tok κ α)} (h : Splits a b) (h' : Splits b c) : Splits a c :=
  Relation.ReflTransGen.trans h h'

/-- Splitting leaves of a part of the string. -/
theorem Splits.frame {a b : List (Tok κ α)} (h : Splits a b) (L R : List (Tok κ α)) :
    Splits (L ++ a ++ R) (L ++ b ++ R) := by
  induction h with
  | refl => exact Splits.refl _
  | tail _ hs ih =>
    obtain ⟨X, Y, l, r, e, hr⟩ := hs
    refine ih.tail ?_
    simpa [List.append_assoc] using SplitLeaf.mk (L ++ X) (Y ++ R) l r e hr

/-- Splitting leaves moves no element. -/
theorem Splits.elems {a b : List (Tok κ α)} (h : Splits a b) : BPlus.elems b = BPlus.elems a := by
  induction h with
  | refl => rfl
  | tail _ hs ih =>
    rw [← ih]
    obtain ⟨X, Y, l, r, e, hr⟩ := hs
    simp

/-- Splitting leaves keeps the keys in order. -/
theorem Splits.sorted [LinearOrder κ] {a b : List (Tok κ α)} (h : Splits a b) (ha : Sorted a) :
    Sorted b := by
  induction h with
  | refl => exact ha
  | tail _ hs ih =>
    obtain ⟨X, Y, l, r, e, hr⟩ := hs
    simp only [Sorted, inorder_append, inorder_leaf, inorder_sep, List.map_append, List.map_cons,
      List.map_nil, List.append_assoc, List.pairwise_append, List.cons_append, List.nil_append,
      List.pairwise_cons, List.mem_append, List.mem_cons] at ih ⊢
    grind

/-- Splitting leaves keeps the rule for separators. -/
theorem Splits.sepLast {a b : List (Tok κ α)} (h : Splits a b) (ha : SepLast a) : SepLast b := by
  induction h with
  | refl => exact ha
  | tail _ hs ih =>
    obtain ⟨X, Y, l, r, e, hr⟩ := hs
    obtain ⟨hX, hY, -⟩ := List.isChain_append.mp ih
    refine List.isChain_append.mpr ⟨hX, ?_, fun x _ y hy => ?_⟩
    · refine List.isChain_cons_cons.mpr ⟨by simp [Follows], List.isChain_cons_cons.mpr ⟨trivial, ?_⟩⟩
      refine sepLast_replace (X := []) hY fun k _ hk => ?_
      rwa [List.map_append, List.map_cons, List.getLast?_append_of_ne_nil _ (by simp),
        List.getLast?_cons_of_ne_nil (by simpa using hr)] at hk
    · obtain rfl : Tok.leaf (l ++ [e]) = y := by simpa using hy
      cases x <;> trivial

end BPlus
