import RedB.Btree.Fill

/-!
# Nodes that are read on demand

A member of a node whose node object is there does the same on a table and on the table with every node
read, up to the nodes that have been read (`OnDemand`): it gets to other nodes by `child_at` only.
-/

namespace RedB

open Runs

/-- A node that is read from its block is alive. -/
theorem Tree.loaded_alive {s : Tree} {name : String} {o : ℤ} : (s.loaded name).Alive o ↔ s.Alive o := by
  unfold Tree.Alive
  cases hn : s.node o with
  | some nd => rw [Tree.loaded_node hn]
  | none =>
    rw [Tree.loaded_node_none hn]
    refine iff_of_true (fun nd hnd => ?_) nofun
    obtain ⟨b, -, rfl⟩ := Option.map_eq_some_iff.mp hnd
    rfl

/-! ### Members of a node -/

/-- The node object of the node itself is there, of this index, and those of some others. -/
structure There (name : String) (off : ℤ) (K : List ℤ) (s : Tree) : Prop where
  self : ∃ nd, s.node off = some nd ∧ nd.ndxName = name
  others : ∀ o ∈ K, (s.node o).isSome

/-- A member of the node at `off` that uses the nodes `K`, and reads others: it does the same if all have been read. -/
abbrev OnDemand {α : Type} (name : String) (off : ℤ) (K : List ℤ) (x : M α) (K' : α → List ℤ) : Prop :=
  Commutes (fun s => s.loaded name) (There name off K) x fun a => There name off (K' a)

section OnDemand

variable {α β : Type} {name : String} {off o : ℤ} {K K' : List ℤ}

theorem There.isSome {s : Tree} (h : There name off K s) (ho : o ∈ off :: K) : (s.node o).isSome := by
  rcases List.mem_cons.mp ho with rfl | ho
  · obtain ⟨nd, hn, -⟩ := h.self
    rw [hn]
    rfl
  · exact h.others o ho

theorem There.mono {s : Tree} (h : There name off K s) (hK : ∀ o ∈ K', o ∈ K) : There name off K' s :=
  ⟨h.self, fun o ho => h.others o (hK o ho)⟩

/-- What has been used need not be used again. -/
theorem OnDemand.drop {x : M α} {K₁ : List ℤ} (h : OnDemand name off K x fun _ => K₁) (hK : ∀ o ∈ K', o ∈ K₁) :
    OnDemand name off K x fun _ => K' :=
  h.mono (fun _ hs => hs) fun _ _ hs => hs.mono hK

theorem onDemand_pure (a : α) : OnDemand name off K (pure a : M α) fun _ => K := commutes_pure fun _ hs => hs

theorem onDemand_throw (e : Err) : OnDemand name off K (throw e : M α) fun _ => K := commutes_throw e

theorem commutes_nodeAt (ho : o ∈ off :: K) : Commutes (fun s => s.loaded name) (There name off K) (nodeAt o)
    fun nd s => There name off K s ∧ s.node o = some nd := by
  refine commutes_get_bind (fun s hs => ?_) fun s a s' hs h => ?_
  · obtain ⟨nd, hn⟩ := Option.isSome_iff_exists.mp (hs.isSome ho)
    rw [Tree.loaded_node hn, hn]
    rfl
  · obtain ⟨nd, hn⟩ := Option.isSome_iff_exists.mp (hs.isSome ho)
    rw [hn] at h
    obtain ⟨rfl, rfl⟩ := EStateM.Result.ok.inj h
    exact ⟨hs, hn⟩

theorem onDemand_nodeAt (ho : o ∈ off :: K) : OnDemand name off K (nodeAt o) fun _ => K :=
  (commutes_nodeAt ho).mono (fun _ hs => hs) fun _ _ hs => hs.1

theorem onDemand_buffer (ho : o ∈ off :: K) : OnDemand name off K (buffer o) fun _ => K := by
  refine commutes_get_bind (fun s hs => ?_) fun s a s' hs h => ?_
  · rw [Tree.loaded_cache (hs.isSome ho)]
    cases s.cache o with
    | some b => rfl
    | none => rfl
  · cases hc : s.cache o with
    | some b =>
      rw [hc] at h
      obtain ⟨rfl, rfl⟩ := EStateM.Result.ok.inj h
      exact hs
    | none =>
      rw [hc] at h
      cases h

theorem onDemand_getIndex (n : String) : OnDemand name off K (getIndex n) fun _ => K := by
  refine commutes_get_bind (fun s hs => ?_) fun s a s' hs h => ?_
  · rw [Tree.loaded]
    cases s.schema.getIndex n with
    | some ndx => rfl
    | none => rfl
  · cases hx : s.schema.getIndex n with
    | some ndx =>
      rw [hx] at h
      obtain ⟨rfl, rfl⟩ := EStateM.Result.ok.inj h
      exact hs
    | none =>
      rw [hx] at h
      cases h

theorem onDemand_setBuffer (ho : o ∈ off :: K) (b : Block) : OnDemand name off K (setBuffer o b) fun _ => K := by
  refine commutes_modify (fun s hs => ?_) fun s hs => ⟨hs.self, hs.others⟩
  obtain ⟨nd, hn⟩ := Option.isSome_iff_exists.mp (hs.isSome ho)
  simp only [Tree.loaded, Tree.mk.injEq, true_and, and_true]
  refine ⟨funext fun o' => ?_, funext fun o' => ?_⟩
  · rcases eq_or_ne o' o with rfl | hne
    · simp [hn]
    · simp [Tree.blockAt, Function.update_of_ne hne]
  · rcases eq_or_ne o' o with rfl | hne
    · simp [hn]
    · simp [Tree.blockAt, Function.update_of_ne hne]

/-- The node object is changed as it was read, but for other fields than the name of its index. -/
theorem onDemand_setNode (ho : o ∈ off :: K) {f : Node → Node} (hf : ∀ nd, (f nd).ndxName = nd.ndxName) :
    OnDemand name off K (do setNode o (f (← nodeAt o)) : M Unit) fun _ => K := by
  refine (commutes_nodeAt ho).bind fun nd => commutes_modify ?_ ?_
  · rintro s ⟨hs, hn⟩
    simp only [Tree.loaded, Tree.mk.injEq, true_and, and_true]
    refine ⟨funext fun o' => ?_, funext fun o' => ?_⟩
    · rcases eq_or_ne o' o with rfl | hne
      · simp [hn]
      · simp [Tree.blockAt, Function.update_of_ne hne]
    · rcases eq_or_ne o' o with rfl | hne
      · simp
      · simp [Tree.blockAt, Function.update_of_ne hne]
  · rintro s ⟨hs, hn⟩
    refine ⟨?_, fun o' ho' => ?_⟩
    · obtain ⟨nd0, hn0, hname⟩ := hs.self
      rcases eq_or_ne off o with rfl | hne
      · obtain rfl := Option.some.inj (hn0.symm.trans hn)
        exact ⟨f nd0, by simp, (hf nd0).trans hname⟩
      · exact ⟨nd0, by simp [Function.update_of_ne hne, hn0], hname⟩
    · rcases eq_or_ne o' o with rfl | hne
      · simp
      · simpa [Function.update_of_ne hne] using hs.others o' ho'

theorem onDemand_flush (ho : o ∈ off :: K) : OnDemand name off K (flush o) fun _ => K := by
  have hcommit : OnDemand name off K (commit o) fun _ => K :=
    (onDemand_nodeAt ho).bind fun _ => (onDemand_buffer ho).bind fun _ => onDemand_setBuffer ho _
  refine hcommit.bind fun _ => commutes_modify (fun s hs => ?_) fun s hs => ?_
  · show (if o ∈ s.flushList then _ else _) = Tree.loaded (if o ∈ s.flushList then _ else _) name
    split
    · rfl
    · rfl
  · split
    · exact hs
    · exact ⟨hs.self, hs.others⟩

theorem onDemand_setNumKey (ho : o ∈ off :: K) (n : ℤ) : OnDemand name off K (setNumKey o n) fun _ => K := by
  have h := (@onDemand_setNode name off o K ho (fun nd => { nd with numKey := n }) fun _ => rfl).bind fun _ => onDemand_flush ho
  rwa [bind_assoc] at h

theorem onDemand_incNumKey (ho : o ∈ off :: K) (n : ℤ) : OnDemand name off K (incNumKey o n) fun _ => K :=
  (onDemand_nodeAt ho).bind fun _ => onDemand_setNumKey ho _

theorem onDemand_decNumKey (ho : o ∈ off :: K) (n : ℤ) : OnDemand name off K (decNumKey o n) fun _ => K :=
  (onDemand_nodeAt ho).bind fun _ => onDemand_setNumKey ho _

theorem onDemand_indexOf (ho : o ∈ off :: K) : OnDemand name off K (indexOf o) fun _ => K :=
  (onDemand_nodeAt ho).bind fun _ => onDemand_getIndex _

theorem onDemand_minDegree (ho : o ∈ off :: K) : OnDemand name off K (minDegree o) fun _ => K :=
  (onDemand_indexOf ho).bind fun _ => onDemand_pure _

theorem onDemand_getChildOffset (ho : o ∈ off :: K) (n : ℤ) : OnDemand name off K (getChildOffset o n) fun _ => K :=
  (onDemand_indexOf ho).bind fun _ => (onDemand_buffer ho).bind fun _ => (onDemand_throw _).ite (onDemand_pure _)

theorem onDemand_getElement (ho : o ∈ off :: K) (n : ℤ) : OnDemand name off K (getElement o n) fun _ => K :=
  (onDemand_nodeAt ho).bind fun _ => (onDemand_indexOf ho).bind fun _ => (onDemand_buffer ho).bind fun _ =>
    (onDemand_throw _).ite (onDemand_pure _)

theorem onDemand_putChildOffset (ho : o ∈ off :: K) (n c : ℤ) : OnDemand name off K (putChildOffset o n c) fun _ => K :=
  (onDemand_indexOf ho).bind fun _ => (onDemand_buffer ho).bind fun _ =>
    (onDemand_throw _).ite ((onDemand_setBuffer ho _).bind fun _ => onDemand_flush ho)

theorem onDemand_putElement (ho : o ∈ off :: K) (n : ℤ) (e : Element) : OnDemand name off K (putElement o n e) fun _ => K :=
  (onDemand_nodeAt ho).bind fun _ => (onDemand_indexOf ho).bind fun _ => (onDemand_buffer ho).bind fun _ =>
    (onDemand_throw _).ite ((onDemand_throw _).ite ((onDemand_setBuffer ho _).bind fun _ => onDemand_flush ho))

theorem onDemand_forUp {body : ℤ → M Unit} (h : ∀ i, OnDemand name off K (body i) fun _ => K) (a : ℤ) (n : ℕ) :
    OnDemand name off K (forUp body a n) fun _ => K := by
  induction n generalizing a with
  | zero => exact onDemand_pure ()
  | succ n ih => exact (h a).bind fun _ => ih (a + 1)

theorem onDemand_forDown {body : ℤ → M Unit} (h : ∀ i, OnDemand name off K (body i) fun _ => K) (a : ℤ) (n : ℕ) :
    OnDemand name off K (forDown body a n) fun _ => K := by
  induction n generalizing a with
  | zero => exact onDemand_pure ()
  | succ n ih => exact (h a).bind fun _ => ih (a - 1)

/-- A node is read, or has been. -/
theorem commutes_getNode (c : ℤ) : Commutes (fun s => s.loaded name) (There name off K) (getNode name c)
    fun p s => There name off K s ∧ ∀ c' ∈ p, (s.node c').isSome := by
  by_cases hbad : c < 0 ∨ c % bufferSz ≠ 0
  · rw [getNode, if_pos hbad]
    exact commutes_pure fun s hs => ⟨hs, fun c' hc' => by cases hc'⟩
  have ha : Aligned c := by
    rw [not_or, not_lt, not_ne_iff] at hbad
    exact hbad
  refine ⟨fun s hs => ?_, fun s p s' hs h => ?_⟩
  · cases hn : s.node c with
    | some nd =>
      rw [getNode_of_node (s := s.loaded name) ha (by rw [Tree.loaded_node hn]; rfl), getNode_of_node ha (by rw [hn]; rfl)]
      rfl
    | none =>
      rw [getNode_read ha hn]
      cases hb : s.blockAt s.schema.header.nextOffset c with
      | some b =>
        have hsome : ((s.loaded name).node c).isSome := by
          rw [Tree.loaded_node_none hn, hb]
          rfl
        rw [getNode_of_node ha hsome]
        exact congrArg _ (Tree.read_loaded hn hb).symm
      | none =>
        have hn' : (s.loaded name).node c = none := by
          rw [Tree.loaded_node_none hn, hb]
          rfl
        have hb' : (s.loaded name).blockAt (s.loaded name).schema.header.nextOffset c = none := by
          rw [Tree.blockAt, Tree.loaded_cache_none hn, hb]
          rw [Tree.blockAt] at hb
          cases hc : s.cache c with
          | some b =>
            rw [hc] at hb
            cases hb
          | none =>
            rw [hc] at hb
            exact hb
        rw [getNode_read ha hn', hb']
        dsimp only
        show (if c ≥ s.schema.header.nextOffset then _ else _) = _
        split
        · rfl
        · rfl
  · cases hn : s.node c with
    | some nd =>
      rw [getNode_of_node ha (by rw [hn]; rfl)] at h
      obtain ⟨rfl, rfl⟩ := EStateM.Result.ok.inj h
      refine ⟨hs, fun c' hc' => ?_⟩
      obtain rfl := Option.some.inj hc'
      rw [hn]
      rfl
    | none =>
      rw [getNode_read ha hn] at h
      cases hb : s.blockAt s.schema.header.nextOffset c with
      | some b =>
        rw [hb] at h
        obtain ⟨rfl, rfl⟩ := EStateM.Result.ok.inj h
        have hkeep : ∀ o nd, s.node o = some nd → (s.read name c b).node o = some nd := by
          intro o nd ho
          have hne : o ≠ c := by
            rintro rfl
            cases hn.symm.trans ho
          simpa [Tree.read, Function.update_of_ne hne] using ho
        refine ⟨⟨?_, fun o ho => ?_⟩, fun c' hc' => ?_⟩
        · obtain ⟨nd, hnd, hname⟩ := hs.self
          exact ⟨nd, hkeep off nd hnd, hname⟩
        · obtain ⟨nd, hnd⟩ := Option.isSome_iff_exists.mp (hs.others o ho)
          rw [hkeep o nd hnd]
          rfl
        · obtain rfl := Option.some.inj hc'
          simp [Tree.read]
      | none =>
        rw [hb] at h
        dsimp only at h
        split at h
        · obtain ⟨rfl, rfl⟩ := EStateM.Result.ok.inj h
          exact ⟨hs, fun c' hc' => by cases hc'⟩
        · cases h

theorem onDemand_childAt (n : ℤ) : OnDemand name off K (childAt off n) fun c => c :: K := by
  have hself := @commutes_nodeAt name off off K List.mem_cons_self
  refine Commutes.bind (Q := fun nd s => There name off K s ∧ nd.ndxName = name) (hself.mono (fun _ hs => hs) ?_) fun nd => ?_
  · rintro nd s ⟨hs, hn⟩
    obtain ⟨nd', hn', hname⟩ := hs.self
    obtain rfl := Option.some.inj (hn'.symm.trans hn)
    exact ⟨hs, hname⟩
  refine commutes_of_known fun hname => (onDemand_getChildOffset List.mem_cons_self n).bind fun c => ?_
  rw [hname]
  refine (commutes_getNode c).bind fun p => ?_
  cases p with
  | none => exact commutes_throw _
  | some c' =>
    exact commutes_pure fun s hs => ⟨hs.1.self, List.forall_mem_cons.mpr ⟨hs.2 c' rfl, hs.1.others⟩⟩

theorem onDemand_childHasMin (n t : ℤ) : OnDemand name off K (childHasMin off n t) fun _ => K :=
  (onDemand_childAt n).bind fun _ => (onDemand_nodeAt (List.mem_cons_of_mem _ List.mem_cons_self)).bind fun _ =>
    commutes_pure fun _ hs => hs.mono fun _ ho => List.mem_cons_of_mem _ ho

theorem onDemand_moveElement {p : ℤ} (ho : o ∈ off :: K) (hp : p ∈ off :: K) (j i : ℤ) :
    OnDemand name off K (do putElement o j (← getElement p i) : M Unit) fun _ => K :=
  (onDemand_getElement hp i).bind fun _ => onDemand_putElement ho j _

theorem onDemand_moveChild {p : ℤ} (ho : o ∈ off :: K) (hp : p ∈ off :: K) (j i : ℤ) :
    OnDemand name off K (do putChildOffset o j (← getChildOffset p i) : M Unit) fun _ => K :=
  (onDemand_getChildOffset hp i).bind fun _ => onDemand_putChildOffset ho j _

theorem onDemand_getNextSiblingOffset (ho : o ∈ off :: K) : OnDemand name off K (getNextSiblingOffset o) fun _ => K :=
  (onDemand_buffer ho).bind fun _ => onDemand_pure _

theorem onDemand_setNextSiblingOffset (ho : o ∈ off :: K) (c : ℤ) : OnDemand name off K (setNextSiblingOffset o c) fun _ => K :=
  (onDemand_buffer ho).bind fun _ => onDemand_setBuffer ho _

/-! ### Borrowing and merging -/

/-- Two children are read first. -/
theorem onDemand_children {n m : ℤ} {f : ℤ → ℤ → M α}
    (hf : ∀ child sibling, OnDemand name off (sibling :: child :: K) (f child sibling) fun _ => sibling :: child :: K) :
    OnDemand name off K (do f (← childAt off n) (← childAt off m) : M α) fun _ => K := by
  refine (onDemand_childAt n).bind fun child => (onDemand_childAt m).bind fun sibling => ?_
  exact (hf child sibling).drop fun o ho => List.mem_cons_of_mem _ (List.mem_cons_of_mem _ ho)

theorem onDemand_borrowFromPrev (n : ℤ) : OnDemand name off K (borrowFromPrev off n) fun _ => K := by
  refine onDemand_children fun y x => ?_
  have hoff : off ∈ off :: x :: y :: K := List.mem_cons_self
  have hx : x ∈ off :: x :: y :: K := by simp
  have hy : y ∈ off :: x :: y :: K := by simp
  have hlast : OnDemand name off (x :: y :: K) (do
      putElement off (n - 1) (← getElement x ((← nodeAt x).numKey - 1))
      decNumKey x 1 : M Unit) fun _ => x :: y :: K :=
    (onDemand_nodeAt hx).bind fun _ => (onDemand_getElement hx _).bind fun _ =>
      (onDemand_putElement hoff _ _).bind fun _ => onDemand_decNumKey hx 1
  refine (onDemand_nodeAt hy).bind fun _ => ?_
  refine (onDemand_forDown (fun i => onDemand_moveElement hy hy (i + 1) i) _ _).bind fun _ => ?_
  refine (onDemand_getElement hoff _).bind fun _ => (onDemand_putElement hy 0 _).bind fun _ => ?_
  refine (onDemand_incNumKey hy 1).bind fun _ => (onDemand_nodeAt hy).bind fun _ => hlast.ite ?_
  refine (onDemand_nodeAt hy).bind fun _ => ?_
  refine (onDemand_forDown (fun i => onDemand_moveChild hy hy (i + 1) i) _ _).bind fun _ => ?_
  refine (onDemand_nodeAt hx).bind fun _ => (onDemand_getChildOffset hx _).bind fun _ => ?_
  exact (onDemand_putChildOffset hy 0 _).bind fun _ => hlast

theorem onDemand_borrowFromNext (n : ℤ) : OnDemand name off K (borrowFromNext off n) fun _ => K := by
  refine onDemand_children fun x y => ?_
  have hoff : off ∈ off :: y :: x :: K := List.mem_cons_self
  have hx : x ∈ off :: y :: x :: K := by simp
  have hy : y ∈ off :: y :: x :: K := by simp
  have hlast : OnDemand name off (y :: x :: K) (do
      incNumKey x 1
      decNumKey y 1 : M Unit) fun _ => y :: x :: K :=
    (onDemand_incNumKey hx 1).bind fun _ => onDemand_decNumKey hy 1
  have hrest : OnDemand name off (y :: x :: K) (do
      putElement off n (← getElement y 0)
      let numKey := (← nodeAt y).numKey
      forUp (fun i => do putElement y (i - 1) (← getElement y i)) 1 (numKey - 1).toNat
      unless (← nodeAt y).isLeaf do
        forUp (fun i => do putChildOffset y (i - 1) (← getChildOffset y i)) 1 numKey.toNat
      incNumKey x 1
      decNumKey y 1) fun _ => y :: x :: K := by
    refine (onDemand_getElement hy 0).bind fun _ => (onDemand_putElement hoff n _).bind fun _ => ?_
    refine (onDemand_nodeAt hy).bind fun _ => ?_
    refine (onDemand_forUp (fun i => onDemand_moveElement hy hy (i - 1) i) _ _).bind fun _ => ?_
    refine (onDemand_nodeAt hy).bind fun _ => hlast.ite ?_
    exact (onDemand_forUp (fun i => onDemand_moveChild hy hy (i - 1) i) _ _).bind fun _ => hlast
  refine (onDemand_nodeAt hx).bind fun _ => ?_
  refine (onDemand_getElement hoff n).bind fun _ => (onDemand_putElement hx _ _).bind fun _ => ?_
  refine (onDemand_nodeAt hx).bind fun _ => hrest.ite ?_
  refine (onDemand_nodeAt hx).bind fun _ => (onDemand_getChildOffset hy 0).bind fun _ => ?_
  exact (onDemand_putChildOffset hx _ _).bind fun _ => hrest

theorem onDemand_merge (n : ℤ) : OnDemand name off K (merge off n) fun _ => K := by
  refine onDemand_children fun x y => ?_
  have hoff : off ∈ off :: y :: x :: K := List.mem_cons_self
  have hx : x ∈ off :: y :: x :: K := by simp
  have hy : y ∈ off :: y :: x :: K := by simp
  have hlast : OnDemand name off (y :: x :: K) (do
      incNumKey x ((← nodeAt y).numKey + 1)
      decNumKey off 1
      setNextSiblingOffset x (← getNextSiblingOffset y)
      setNode y { ← nodeAt y with dead := true } : M Unit) fun _ => y :: x :: K := by
    refine (onDemand_nodeAt hy).bind fun _ => (onDemand_incNumKey hx _).bind fun _ => ?_
    refine (onDemand_decNumKey hoff 1).bind fun _ => (onDemand_getNextSiblingOffset hy).bind fun _ => ?_
    exact (onDemand_setNextSiblingOffset hx _).bind fun _ =>
      onDemand_setNode hy (f := fun nd => { nd with dead := true }) fun _ => rfl
  refine (onDemand_minDegree hoff).bind fun _ => (onDemand_getElement hoff n).bind fun _ => ?_
  refine (onDemand_putElement hx _ _).bind fun _ => (onDemand_nodeAt hoff).bind fun _ => ?_
  refine (onDemand_forUp (fun i => onDemand_moveElement hoff hoff (i - 1) i) _ _).bind fun _ => ?_
  refine (onDemand_forUp (fun i => onDemand_moveChild hoff hoff (i - 1) i) _ _).bind fun _ => ?_
  refine (onDemand_nodeAt hy).bind fun _ => ?_
  refine (onDemand_forUp (fun i => onDemand_moveElement hx hy _ i) _ _).bind fun _ => ?_
  refine (onDemand_nodeAt hx).bind fun _ => hlast.ite ?_
  exact (onDemand_forUp (fun i => onDemand_moveChild hx hy _ i) _ _).bind fun _ => hlast

/-- `fill` does the same if all nodes have been read. -/
theorem onDemand_fill (n : ℤ) : OnDemand name off K (fill off n) fun _ => K := by
  have hoff : off ∈ off :: K := List.mem_cons_self
  refine (onDemand_minDegree hoff).bind fun t => (onDemand_nodeAt hoff).bind fun nd => ?_
  have hmerge : OnDemand name off K (if n ≠ nd.numKey then merge off n else merge off (n - 1)) fun _ => K :=
    (onDemand_merge n).ite (onDemand_merge (n - 1))
  have hnext (b : Bool) : OnDemand name off K
      (if b then borrowFromNext off n else if n ≠ nd.numKey then merge off n else merge off (n - 1)) fun _ => K :=
    (onDemand_borrowFromNext n).ite hmerge
  have hprev (b : Bool) : OnDemand name off K (if b then borrowFromPrev off n else do
      let fromNext ← if n ≠ nd.numKey then childHasMin off (n + 1) t else pure false
      if fromNext then borrowFromNext off n else if n ≠ nd.numKey then merge off n else merge off (n - 1)) fun _ => K := by
    refine (onDemand_borrowFromPrev n).ite (Commutes.ite ?_ ?_)
    · exact (onDemand_childHasMin (n + 1) t).bind fun b => hnext b
    · exact (onDemand_pure false).bind fun b => hnext b
  refine Commutes.ite ?_ ?_
  · exact (onDemand_childHasMin (n - 1) t).bind fun b => hprev b
  · exact (onDemand_pure false).bind fun b => hprev b

/-! ### Walks to the leaves -/

/-- A child is read, and a member goes on with it. -/
theorem onDemand_nextElementLoop (fuel : ℕ) {child : ℤ} (hc : child ∈ off :: K) :
    OnDemand name off K (nextElementLoop off fuel child) fun leaf => leaf :: K := by
  induction fuel generalizing K child with
  | zero => exact commutes_throw _
  | succ fuel ih =>
    refine (commutes_nodeAt hc).bind fun nd => Commutes.ite ?_ ?_
    · refine commutes_pure fun s hs => ⟨hs.1.self, List.forall_mem_cons.mpr ⟨hs.1.isSome hc, hs.1.others⟩⟩
    · refine Commutes.mono (P := There name off K) ?_ (fun _ hs => hs.1) fun _ _ hs => hs
      refine (onDemand_childAt 0).bind fun c => (ih (K := c :: K) (by simp)).mono (fun _ hs => hs) fun leaf _ hs => ?_
      exact hs.mono fun o ho => by
        simp only [List.mem_cons] at ho ⊢
        tauto

theorem onDemand_prevElementLoop (fuel : ℕ) {child : ℤ} (hc : child ∈ off :: K) :
    OnDemand name off K (prevElementLoop off fuel child) fun leaf => leaf :: K := by
  induction fuel generalizing K child with
  | zero => exact commutes_throw _
  | succ fuel ih =>
    refine (commutes_nodeAt hc).bind fun nd => Commutes.ite ?_ ?_
    · refine commutes_pure fun s hs => ⟨hs.1.self, List.forall_mem_cons.mpr ⟨hs.1.isSome hc, hs.1.others⟩⟩
    · refine Commutes.mono (P := There name off K) ?_ (fun _ hs => hs.1) fun _ _ hs => hs
      refine (onDemand_nodeAt hc).bind fun nd' => (onDemand_childAt nd'.numKey).bind fun c => ?_
      refine (ih (K := c :: K) (by simp)).mono (fun _ hs => hs) fun leaf _ hs => ?_
      exact hs.mono fun o ho => by
        simp only [List.mem_cons] at ho ⊢
        tauto

theorem onDemand_getNextElement (fuel : ℕ) (n : ℤ) : OnDemand name off K (getNextElement fuel off n) fun _ => K := by
  refine (onDemand_childAt (n + 1)).bind fun c => (onDemand_nextElementLoop fuel (by simp)).bind fun leaf => ?_
  refine OnDemand.drop (onDemand_getElement (by simp) 0) fun o ho => ?_
  exact List.mem_cons_of_mem _ (List.mem_cons_of_mem _ ho)

theorem onDemand_getPrevElement (fuel : ℕ) (n : ℤ) : OnDemand name off K (getPrevElement fuel off n) fun _ => K := by
  refine (onDemand_childAt n).bind fun c => (onDemand_prevElementLoop fuel (by simp)).bind fun leaf => ?_
  refine (onDemand_nodeAt (by simp)).bind fun nd => OnDemand.drop (onDemand_getElement (by simp) _) fun o ho => ?_
  exact List.mem_cons_of_mem _ (List.mem_cons_of_mem _ ho)

end OnDemand

end RedB
