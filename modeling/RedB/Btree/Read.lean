import RedB.Btree.Access
import RedB.Storage.Pool
import RedB.Theory.Runs

/-!
# Nodes that have not been read

A new tree object has read no node: `get_node` reads the block of a child or of a sibling when it is asked
for. What a table holds of an index is therefore said of the table with every block read that has not been
(`Tree.loaded`). `getNode_loaded` is what `get_node` does in these terms.
-/

namespace RedB

open Runs

/-- The table with every block read that has not been. -/
def Tree.loaded (s : Tree) (name : String) : Tree :=
  { s with
    cache := fun o => match s.node o with
      | some _ => s.cache o
      | none => s.blockAt s.schema.header.nextOffset o
    node := fun o => match s.node o with
      | some nd => some nd
      | none => (s.blockAt s.schema.header.nextOffset o).map fun b => ⟨b.head.isLeaf, false, b.head.numKey, name⟩ }

section Loaded

variable {s : Tree} {name : String} {o : ℤ}

theorem Tree.loaded_node {nd : Node} (h : s.node o = some nd) (name : String) : (s.loaded name).node o = some nd := by
  simp [Tree.loaded, h]

theorem Tree.loaded_cache (h : (s.node o).isSome) (name : String) : (s.loaded name).cache o = s.cache o := by
  obtain ⟨nd, hn⟩ := Option.isSome_iff_exists.mp h
  simp [Tree.loaded, hn]

theorem Tree.loaded_node_none (h : s.node o = none) (name : String) : (s.loaded name).node o =
    (s.blockAt s.schema.header.nextOffset o).map fun b => ⟨b.head.isLeaf, false, b.head.numKey, name⟩ := by
  simp [Tree.loaded, h]

theorem Tree.loaded_cache_none (h : s.node o = none) (name : String) :
    (s.loaded name).cache o = s.blockAt s.schema.header.nextOffset o := by
  simp [Tree.loaded, h]

/-- A node that has been read is not read again. -/
theorem Tree.loaded_view {v : View} (h : s.view o = some v) (name : String) : (s.loaded name).view o = some v := by
  obtain ⟨nd, b, hn, hb, rfl⟩ := Tree.view_eq_some.mp h
  simp [Tree.view, Tree.loaded, hn, hb]

/-- A node object that is there says what it says. -/
theorem Tree.view_of_loaded {v : View} (h : (s.loaded name).view o = some v) (hn : (s.node o).isSome) : s.view o = some v := by
  obtain ⟨nd, hnd⟩ := Option.isSome_iff_exists.mp hn
  obtain ⟨nd', b, hnd', hb, rfl⟩ := Tree.view_eq_some.mp h
  rw [Tree.loaded_node hnd] at hnd'
  rw [Tree.loaded_cache hn] at hb
  exact Tree.view_eq_some.mpr ⟨nd', b, hnd.trans hnd', hb, rfl⟩

/-- A node object that is there is found. -/
theorem getNode_of_node (ha : Aligned o) (h : (s.node o).isSome) (name : String) : getNode name o s = .ok (some o) s := by
  obtain ⟨nd, hn⟩ := Option.isSome_iff_exists.mp h
  rw [getNode, if_neg ha.not_bad, run_bind (run_get s), hn]
  rfl

/-- The table when the node of a block has been read. -/
def Tree.read (s : Tree) (name : String) (o : ℤ) (b : Block) : Tree :=
  { s with
    cache := Function.update s.cache o (some b)
    node := Function.update s.node o (some ⟨b.head.isLeaf, false, b.head.numKey, name⟩) }

/-- A node that has been read would have been read anyway. -/
theorem Tree.read_loaded {b : Block} (hn : s.node o = none) (hb : s.blockAt s.schema.header.nextOffset o = some b) :
    (s.read name o b).loaded name = s.loaded name := by
  simp only [Tree.loaded, Tree.read, Tree.mk.injEq, true_and, and_true]
  refine ⟨funext fun o' => ?_, funext fun o' => ?_⟩
  · rcases eq_or_ne o' o with rfl | ho
    · simp [hn, hb]
    · simp [Tree.blockAt, Function.update_of_ne ho]
  · rcases eq_or_ne o' o with rfl | ho
    · simp [hn, hb]
    · simp [Tree.blockAt, Function.update_of_ne ho]

/-- A node that is not there is read from its block, if there is one. -/
theorem getNode_read (ha : Aligned o) (hn : s.node o = none) : getNode name o s =
    match s.blockAt s.schema.header.nextOffset o with
    | some b => .ok (some o) (s.read name o b)
    | none => if o ≥ s.schema.header.nextOffset then .ok none s else .error .hang s := by
  rw [getNode, if_neg ha.not_bad, run_bind (run_get s), hn]
  show loadNode name o s = _
  rw [loadNode, Tree.blockAt]
  cases hc : s.cache o with
  | some b =>
    have hget : getBlock o s = .ok (some b) s := by
      rw [getBlock, if_neg ha.not_bad, run_bind (run_get s), hc]
      rfl
    rw [run_bind hget]
    show EStateM.Result.ok (some o) _ = EStateM.Result.ok (some o) (s.read name o b)
    rw [Tree.read, ← hc, Function.update_eq_self]
  | none =>
    have hget : getBlock o s = loadBlock o s := by
      rw [getBlock, if_neg ha.not_bad, run_bind (run_get s), hc]
    by_cases hlim : o ≥ s.schema.header.nextOffset
    · have hload : getBlock o s = .ok none s := by
        rw [hget, loadBlock, run_bind (run_get s), if_pos hlim]
        rfl
      rw [run_bind hload]
      simp only [if_pos hlim]
      rfl
    · cases hd : s.disk o with
      | none =>
        have hload : getBlock o s = .error .hang s := by
          rw [hget, loadBlock, run_bind (run_get s), if_neg hlim, hd]
          rfl
        rw [bind_throw hload]
        simp only [if_neg hlim]
      | some b =>
        have hload : getBlock o s = .ok (some b) { s with cache := Function.update s.cache o (some b) } := by
          rw [hget, loadBlock, run_bind (run_get s), if_neg hlim, hd]
          rfl
        rw [run_bind hload]
        simp only [if_neg hlim]
        rfl

/-- No node but the one at `o` has been read. -/
structure HasRead (o : ℤ) (s s' : Tree) : Prop where
  schema : s'.schema = s.schema
  node : ∀ o', o' ≠ o → s'.node o' = s.node o'
  cache : ∀ o', o' ≠ o → s'.cache o' = s.cache o'
  disk : s'.disk = s.disk
  data : s'.data = s.data

theorem HasRead.view_ne {s' : Tree} {o' : ℤ} (h : HasRead o s s') (ho : o' ≠ o) : s'.view o' = s.view o' := by
  rw [Tree.view, Tree.view, h.node o' ho, h.cache o' ho]

/-- A node is read, or has been. -/
theorem getNode_loaded {v : View} (ha : Aligned o) (hv : (s.loaded name).view o = some v) :
    ∃ s', getNode name o s = .ok (some o) s' ∧ s'.view o = some v ∧ HasRead o s s' := by
  cases hn : s.node o with
  | some nd =>
    have hsome : (s.node o).isSome := by
      rw [hn]
      rfl
    exact ⟨s, getNode_of_node ha hsome name, Tree.view_of_loaded hv hsome, rfl, fun _ _ => rfl, fun _ _ => rfl, rfl, rfl⟩
  | none =>
    obtain ⟨nd, b, hnd, hb, rfl⟩ := Tree.view_eq_some.mp hv
    rw [Tree.loaded_cache_none hn] at hb
    rw [Tree.loaded_node_none hn, hb] at hnd
    obtain rfl := Option.some.inj hnd
    refine ⟨s.read name o b, ?_, Tree.view_eq_some.mpr ⟨_, b, Function.update_self .., Function.update_self .., rfl⟩, rfl,
      fun o' ho' => Function.update_of_ne ho' _ _, fun o' ho' => Function.update_of_ne ho' _ _, rfl, rfl⟩
    rw [getNode_read ha hn, hb]

/-- What is read of a node that has not changed. -/
theorem loaded_view_congr {s' : Tree} (hn : s'.node o = s.node o) (hc : s'.cache o = s.cache o) (hd : s'.disk o = s.disk o)
    (he : s'.schema.header.nextOffset = s.schema.header.nextOffset) : (s'.loaded name).view o = (s.loaded name).view o := by
  simp only [Tree.view, Tree.loaded, Tree.blockAt, hn, hc, hd, he]

/-- The table with another end of the file. -/
def Tree.withEnd (s : Tree) (next : ℤ) : Tree :=
  { s with schema := { s.schema with header := { s.schema.header with nextOffset := next } } }

end Loaded

end RedB
