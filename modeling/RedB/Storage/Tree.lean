import RedB.Storage.Block

/-!
# The tree object

`tree` is the handle on a table file: the table's schema, the block cache with its
flush list, the node and data objects loaded so far, and the file itself
(`btree/btree.h`, `cache/cache.h`, `schema/schema.h`).

## The model

A node object or data object is identified by its offset, and its `m_buffer` is the
cached block at that offset, which is what the source's shared pointers amount to:
the cache keeps one block for an offset and every object is constructed around it. A
`std::shared_ptr<node>` is therefore an offset. The members of `tree` run in
`EStateM`: an exception leaves behind the state reached when it was thrown. Recursions
and loops that the source does not bound take fuel, and running out of it is the
error `Err.fuel`, which no call of the source raises.

Writing a block to the file is taken to succeed. Reading a block that the file does
not hold never returns (`read_block` reads nothing over and over): `Err.hang`.
-/

namespace RedB

/-- How a call can end other than by returning. -/
inductive Err where
  /-- A null `shared_ptr` is dereferenced. -/
  | nullPtr
  /-- `ERRNO_BUF_INDEX_ERROR`: a position outside the block. -/
  | bufIndex
  /-- `ERRNO_BUF_REMAINING_ERROR`: no room for what is put. -/
  | bufRemaining
  /-- `ERRNO_INDEX_ERROR`: no index of that name. -/
  | indexError
  /-- `ERRNO_SYSTEM_ERROR`. -/
  | systemError
  /-- A key longer than its slot is put: it runs on into the next slot, which the
  model does not follow. -/
  | overrun
  /-- The call does not return. -/
  | hang
  /-- The fuel given to the model is used up. -/
  | fuel
  deriving DecidableEq

/-! ### Schemas -/

/-- The column types that `make_key` tells apart. -/
inductive ColType where
  /-- `TYPE_FLOAT`. -/
  | float
  /-- `TYPE_INT`. -/
  | int
  /-- Any other type. -/
  | other
  deriving DecidableEq

/-- `schema::column`. -/
structure Column where
  /-- `m_name`. -/
  name : String
  /-- `m_type`. -/
  type : ColType
  /-- `m_size`. -/
  size : ℕ

/-- `schema::index`: an index descriptor. -/
structure Index where
  /-- `m_name`. -/
  name : String
  /-- `m_order`. -/
  order : ℕ
  /-- `m_key_size`. -/
  keySize : ℕ
  /-- `m_root`: the offset of the root node, negative if the index is empty. -/
  root : ℤ
  /-- `m_col_name_list`. -/
  colNameList : List String

/-- `schema::header`. -/
structure Header where
  /-- `m_index_count`. -/
  indexCount : ℤ
  /-- `m_column_count`. -/
  columnCount : ℕ
  /-- `m_row_count`. -/
  rowCount : ℤ
  /-- `m_generation`. -/
  generation : ℤ
  /-- `m_next_offset`: the end of the file. -/
  nextOffset : ℤ
  /-- `m_data_offset`: the data block that receives rows, negative before the first. -/
  dataOffset : ℤ
  /-- `m_data_root`: the first data block. -/
  dataRoot : ℤ
  /-- `m_free_head`: the block put on the free list first. -/
  freeHead : ℤ
  /-- `m_free_tail`: the block put on the free list last. -/
  freeTail : ℤ

/-- `schema::schema`. -/
structure Schema where
  /-- `m_header`. -/
  header : Header
  /-- `m_column`. -/
  column : List Column
  /-- `m_index`. -/
  index : List Index

/-- `PK_NDX`. -/
def pkNdx : String := "NDX_000"

/-- `schema::get_index`. -/
def Schema.getIndex (sch : Schema) (name : String) : Option Index :=
  sch.index.find? fun i => i.name = name

/-- Set the root of the first index called `name`. -/
def setRootOf (name : String) (root : ℤ) : List Index → List Index
  | [] => []
  | i :: is => if i.name = name then { i with root := root } :: is else i :: setRootOf name root is

theorem find_setRootOf {name : String} {root : ℤ} {l : List Index} {ndx : Index}
    (h : l.find? (fun i => i.name = name) = some ndx) :
    (setRootOf name root l).find? (fun i => i.name = name) = some { ndx with root := root } := by
  induction l with
  | nil => simp at h
  | cons i l ih =>
    rw [setRootOf]
    by_cases hi : i.name = name
    · rw [List.find?_cons_of_pos (by simpa using hi)] at h
      obtain rfl := Option.some_inj.mp h
      rw [if_pos hi, List.find?_cons_of_pos (by simpa using hi)]
    · rw [List.find?_cons_of_neg (by simpa using hi)] at h
      rw [if_neg hi, List.find?_cons_of_neg (by simpa using hi)]
      exact ih h

theorem setRootOf_setRootOf (name : String) (root root' : ℤ) (l : List Index) :
    setRootOf name root' (setRootOf name root l) = setRootOf name root' l := by
  induction l with
  | nil => rfl
  | cons i l ih =>
    by_cases hi : i.name = name
    · simp [setRootOf, hi]
    · simp [setRootOf, hi, ih]

theorem setRootOf_self {name : String} {l : List Index} {ndx : Index}
    (h : l.find? (fun i => i.name = name) = some ndx) : setRootOf name ndx.root l = l := by
  induction l with
  | nil => rfl
  | cons i l ih =>
    rw [setRootOf]
    split
    · rename_i hi
      rw [List.find?_cons_of_pos (by simpa using hi)] at h
      obtain rfl := Option.some_inj.mp h
      rfl
    · rename_i hi
      rw [List.find?_cons_of_neg (by simpa using hi)] at h
      rw [ih h]

/-- `schema::remove_index`: the primary-key index is never removed. -/
def Schema.removeIndex (sch : Schema) (name : String) : Schema :=
  if name = pkNdx then sch
  else if sch.index.any fun i => i.name = name then
    { sch with
      index := sch.index.eraseP fun i => i.name = name
      header := { sch.header with indexCount := sch.header.indexCount - 1 } }
  else sch

/-! ### The tree object -/

/-- `node`: an index node object. -/
structure Node where
  /-- `m_leaf`. -/
  isLeaf : Bool
  /-- `m_dead`. -/
  dead : Bool
  /-- `m_num_key`. -/
  numKey : ℤ
  /-- `m_ndx_name`. -/
  ndxName : String

/-- `element`. -/
structure Element where
  /-- `m_row_position`. -/
  rowPosition : ℤ
  /-- `m_block_offset`. -/
  blockOffset : ℤ
  /-- `m_ndx_name`. -/
  ndxName : String
  /-- `m_key`. -/
  key : Key
  deriving DecidableEq

/-- `INVALID_ELEMENT`. -/
def Element.invalid : Element := ⟨-1, -1, "", []⟩

/-- `element::is_valid`. -/
def Element.isValid (e : Element) : Bool :=
  ¬(e.rowPosition = -1 ∨ e.blockOffset = -1 ∨ e.ndxName = "" ∨ e.key = [])

/-- `tree`, with its block cache and its file. -/
structure Tree where
  /-- `m_block_cache->m_schema`. -/
  schema : Schema
  /-- `m_block_cache->m_cache`. -/
  cache : ℤ → Option Block
  /-- `m_block_cache->m_flush_list`. -/
  flushList : List ℤ
  /-- The blocks of the file. -/
  disk : ℤ → Option Block
  /-- `m_node`. -/
  node : ℤ → Option Node
  /-- The offsets in `m_data`. -/
  data : ℤ → Bool

/-- What a member of `tree`, `node` or `block_cache` does. -/
abbrev M := EStateM Err Tree

/-- The outcome is that the call returns `a` and leaves `s`. -/
abbrev Returns {α : Type} (r : EStateM.Result Err Tree α) (a : α) (s : Tree) : Prop := r = .ok a s

/-! ### The block cache -/

/-- `block_cache::flush_block`. -/
def flushBlock (offset : ℤ) : M Unit :=
  modify fun s => if offset ∈ s.flushList then s else { s with flushList := s.flushList ++ [offset] }

/-- `block_cache::write_block`. -/
def Tree.writeBlock (s : Tree) (blk : Block) (offset : ℤ) : Tree :=
  { s with disk := Function.update s.disk offset (some blk) }

/-- `block_cache::flush_cache`. -/
def flushCache : M Unit :=
  modify fun s =>
    let s' := s.flushList.foldl (fun s offset =>
      match s.cache offset with
      | some blk => s.writeBlock blk offset
      | none => s) s
    { s' with flushList := [] }

/-- `block_cache::load_block`. -/
def loadBlock (offset : ℤ) : M (Option Block) := do
  let s ← get
  if offset ≥ s.schema.header.nextOffset then return none
  match s.disk offset with
  | none => throw .hang
  | some blk =>
    set { s with cache := Function.update s.cache offset (some blk) }
    return some blk

/-- `block_cache::get_block`. -/
def getBlock (offset : ℤ) : M (Option Block) := do
  if offset < 0 ∨ offset % bufferSz ≠ 0 then return none
  match (← get).cache offset with
  | some blk => return some blk
  | none => loadBlock offset

/-- `block_cache::new_block`: the block is written to the file at once. -/
def newBlock (offset : ℤ) : M Unit :=
  modify fun s =>
    { s.writeBlock Block.zero offset with cache := Function.update s.cache offset (some Block.zero) }

/-! ### Members of the tree object that nodes and rows share -/

/-- `tree::get_header`. -/
def getHeader : M Header := return (← get).schema.header

/-- Change the schema header. -/
def modifyHeader (f : Header → Header) : M Unit :=
  modify fun s => { s with schema := { s.schema with header := f s.schema.header } }

/-- `tree::get_index`. -/
def getIndex (name : String) : M Index := do
  match (← get).schema.getIndex name with
  | some ndx => return ndx
  | none => throw .indexError

/-- `get_index(name).root(offset)`. -/
def setRoot (name : String) (offset : ℤ) : M Unit := do
  let _ ← getIndex name
  modify fun s => { s with schema := { s.schema with index := setRootOf name offset s.schema.index } }

/-- The node object at `offset`; there is none behind a null pointer. -/
def nodeAt (offset : ℤ) : M Node := do
  match (← get).node offset with
  | some nd => return nd
  | none => throw .nullPtr

/-- Change the node object at `offset`. -/
def setNode (offset : ℤ) (nd : Node) : M Unit :=
  modify fun s => { s with node := Function.update s.node offset (some nd) }

/-- The `m_buffer` of the object at `offset`. -/
def buffer (offset : ℤ) : M Block := do
  match (← get).cache offset with
  | some blk => return blk
  | none => throw .nullPtr

/-- Change the `m_buffer` of the object at `offset`. -/
def setBuffer (offset : ℤ) (blk : Block) : M Unit :=
  modify fun s => { s with cache := Function.update s.cache offset (some blk) }

/-- `tree::load_node`. -/
def loadNode (ndxName : String) (offset : ℤ) : M (Option ℤ) := do
  match ← getBlock offset with
  | none => return none
  | some blk =>
    setNode offset ⟨blk.head.isLeaf, false, blk.head.numKey, ndxName⟩
    return some offset

/-- `tree::get_node`. -/
def getNode (ndxName : String) (offset : ℤ) : M (Option ℤ) := do
  if offset < 0 ∨ offset % bufferSz ≠ 0 then return none
  match (← get).node offset with
  | some _ => return some offset
  | none => loadNode ndxName offset

/-- `tree::load_data`. -/
def loadData (offset : ℤ) : M (Option ℤ) := do
  match ← getBlock offset with
  | none => return none
  | some _ =>
    modify fun s => { s with data := Function.update s.data offset true }
    return some offset

/-- `tree::get_data`. -/
def getData (offset : ℤ) : M (Option ℤ) := do
  if offset < 0 ∨ offset % bufferSz ≠ 0 then return none
  if (← get).data offset then return some offset
  loadData offset

/-- Dereference a pointer. -/
def deref (p : Option ℤ) : M ℤ :=
  match p with
  | some offset => return offset
  | none => throw .nullPtr

/-- `tree::get_offset`: a block from the free list, or else the end of the file. -/
def getOffset : M ℤ := do
  let offset := (← getHeader).freeTail
  if offset < 0 then return (← getHeader).nextOffset
  match ← getBlock offset with
  | none => throw .systemError
  | some blk =>
    let tailOffset := blk.prev
    if tailOffset = invalidSiblingRef then
      modifyHeader fun h => { h with freeHead := -1, freeTail := -1 }
    else modifyHeader fun h => { h with freeTail := tailOffset }
    return offset

/-- `tree::next_offset`. -/
def nextOffset (isDataOffset : Bool) : M ℤ := do
  let offset ← getOffset
  modifyHeader fun h => { h with nextOffset := offset + bufferSz }
  if isDataOffset then
    modifyHeader fun h =>
      { h with dataOffset := offset, dataRoot := if h.dataRoot < 0 then offset else h.dataRoot }
  return offset

/-- `tree::new_data`. -/
def newData (offset : ℤ) : M ℤ := do
  newBlock offset
  let blk ← buffer offset
  setBuffer offset
    { blk with head := .data (bufferSz - dataHdrSz), prev := invalidSiblingRef,
               next := invalidSiblingRef, rowHead := 0, rowTail := 0 }
  modify fun s => { s with data := Function.update s.data offset true }
  return offset

/-- `tree::new_node`. -/
def newNode (leaf : Bool) (ndxName : String) (offset : ℤ) : M ℤ := do
  newBlock offset
  let blk ← buffer offset
  setBuffer offset { blk with prev := invalidSiblingRef, next := invalidSiblingRef }
  setNode offset ⟨leaf, false, 0, ndxName⟩
  return offset

/-- `get_prev_sibling_offset`. -/
def getPrevSiblingOffset (offset : ℤ) : M ℤ := return (← buffer offset).prev

/-- `get_next_sibling_offset`. -/
def getNextSiblingOffset (offset : ℤ) : M ℤ := return (← buffer offset).next

/-- `set_prev_sibling_offset`. -/
def setPrevSiblingOffset (offset o : ℤ) : M Unit := do
  setBuffer offset { ← buffer offset with prev := o }

/-- `set_next_sibling_offset`. -/
def setNextSiblingOffset (offset o : ℤ) : M Unit := do
  setBuffer offset { ← buffer offset with next := o }

/-! ### Running a block of statements -/

theorem run_bind {α β : Type} {x : M α} {f : α → M β} {s s' : Tree} {a : α} (h : x s = .ok a s') :
    (x >>= f) s = f a s' := by
  show EStateM.bind x f s = _
  rw [EStateM.bind, h]

theorem run_pure {α : Type} (a : α) (s : Tree) : (pure a : M α) s = .ok a s := rfl

theorem run_get (s : Tree) : (get : M Tree) s = .ok s s := rfl

/-- `unless b do x` in front of other statements. -/
theorem run_unless {β : Type} {b : Bool} {x : M Unit} {f : Unit → M β} {s s' : Tree}
    (h : (unless b do x) s = .ok () s') : (if b = true then f () else x >>= f) s = f () s' := by
  cases b with
  | true =>
    obtain rfl : s = s' := by simpa [pure, EStateM.pure] using h
    rfl
  | false => exact run_bind h

/-- If a block of statements returns, its first statement returns and so does the rest. -/
theorem of_run_bind {α β : Type} {x : M α} {f : α → M β} {s s' : Tree} {b : β}
    (h : (x >>= f) s = .ok b s') : ∃ a s1, x s = .ok a s1 ∧ f a s1 = .ok b s' := by
  change EStateM.bind x f s = _ at h
  rw [EStateM.bind] at h
  cases hx : x s with
  | ok a s1 =>
    rw [hx] at h
    exact ⟨a, s1, rfl, h⟩
  | error e s1 =>
    rw [hx] at h
    simp at h

/-- If `unless b do x` and what follows returns, what follows returns. -/
theorem of_run_unless {β : Type} {b : Bool} {x : M Unit} {f : Unit → M β} {s s' : Tree} {r : β}
    (h : (if b = true then f () else x >>= f) s = .ok r s') : ∃ s1, f () s1 = .ok r s' := by
  cases b with
  | true => exact ⟨s, h⟩
  | false =>
    obtain ⟨_, s1, -, h1⟩ := of_run_bind h
    exact ⟨s1, h1⟩

/-! ### Offsets of blocks -/

/-- An offset at which a block can be. -/
def Aligned (o : ℤ) : Prop := 0 ≤ o ∧ o % bufferSz = 0

instance : DecidablePred Aligned := fun o => inferInstanceAs (Decidable (0 ≤ o ∧ o % bufferSz = 0))

theorem Aligned.not_bad {o : ℤ} (h : Aligned o) : ¬(o < 0 ∨ o % bufferSz ≠ 0) := by
  rintro (h' | h')
  · exact absurd h.1 (not_le.mpr h')
  · exact h' h.2

theorem Aligned.ne_invalid {o : ℤ} (h : Aligned o) : o ≠ invalidSiblingRef := by
  rintro rfl
  exact absurd h.1 (by decide)

/-- The block after an aligned block is aligned. -/
theorem Aligned.next {o : ℤ} (h : Aligned o) : Aligned (o + bufferSz) := by
  obtain ⟨h1, h2⟩ := h
  rw [bufferSz] at h2
  constructor <;> rw [bufferSz] <;> omega

end RedB
