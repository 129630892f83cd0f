import RedB.Storage.Tree

/-!
# Nodes

The members of `node` and the members of `tree` that work on one index: search,
insertion with splitting on the way down, removal with borrowing and merging on the
way down, and the iterator over the elements of an index (`btree/btree.cpp`).

Every definition follows the source statement by statement, `off` being the node the
member is called on. A vector index `n` is an `int32_t` of the source; slot `-1` would
lie over the header and is taken to be outside the buffer. The `while` loops and the
recursions take fuel.
-/

namespace RedB

/-! ### Loops -/

/-- `for (i = a; …; ++i) body(i)`, with the number of rounds. -/
def forUp (body : ℤ → M Unit) (a : ℤ) : ℕ → M Unit
  | 0 => pure ()
  | n + 1 => do body a; forUp body (a + 1) n

/-- `for (i = a; …; --i) body(i)`, with the number of rounds. -/
def forDown (body : ℤ → M Unit) (a : ℤ) : ℕ → M Unit
  | 0 => pure ()
  | n + 1 => do body a; forDown body (a - 1) n

/-! ### Access to one node -/

/-- `node::commit`. -/
def commit (off : ℤ) : M Unit := do
  let nd ← nodeAt off
  setBuffer off { ← buffer off with head := .node nd.isLeaf nd.numKey }

/-- `node::flush`. -/
def flush (off : ℤ) : M Unit := do
  commit off
  flushBlock off

/-- `node::set_num_key`. -/
def setNumKey (off n : ℤ) : M Unit := do
  setNode off { ← nodeAt off with numKey := n }
  flush off

/-- `node::inc_num_key`. -/
def incNumKey (off n : ℤ) : M Unit := do setNumKey off ((← nodeAt off).numKey + n)

/-- `node::dec_num_key`. -/
def decNumKey (off n : ℤ) : M Unit := do setNumKey off ((← nodeAt off).numKey - n)

/-- `m_tree->get_index(m_ndx_name)`. -/
def indexOf (off : ℤ) : M Index := do getIndex (← nodeAt off).ndxName

/-- `m_tree->get_index(m_ndx_name).order() / 2`. -/
def minDegree (off : ℤ) : M ℤ := return ((← indexOf off).order : ℤ) / 2

/-- The position of vector element `n`. -/
def vectorPos (ndx : Index) (n : ℤ) : ℤ := elementVectorPos + n * (childOffsetSz + ndx.keySize)

/-- `node::get_child_offset`. -/
def getChildOffset (off n : ℤ) : M ℤ := do
  let ndx ← indexOf off
  let blk ← buffer off
  if n < 0 ∨ vectorPos ndx n + childOffsetSz > bufferSz then throw .bufIndex
  return (blk.slots n.toNat).ref

/-- `node::put_child_offset`. -/
def putChildOffset (off n offset : ℤ) : M Unit := do
  let ndx ← indexOf off
  let blk ← buffer off
  if n < 0 ∨ vectorPos ndx n + childOffsetSz > bufferSz then throw .bufIndex
  setBuffer off
    { blk with slots := Function.update blk.slots n.toNat { blk.slots n.toNat with ref := offset } }
  flush off

/-- The element that a slot holds: in a leaf the combined offset is taken apart, in a
non-leaf the block offset and the row position are zero. -/
def Slot.element (slot : Slot) (leaf : Bool) (ndxName : String) (keySize : ℕ) : Element :=
  let rowPosition := if leaf then slot.ref.tmod bufferSz else 0
  let blockOffset := if leaf then slot.ref - rowPosition else 0
  ⟨rowPosition, blockOffset, ndxName, readKey keySize slot.key⟩

/-- The slot after an element has been put in it: a non-leaf takes only the key. -/
def Slot.put (slot : Slot) (leaf : Bool) (keySize : ℕ) (e : Element) : Slot :=
  ⟨if leaf then e.blockOffset + e.rowPosition else slot.ref, writeKey keySize slot.key e.key⟩

/-- `node::get_element`. -/
def getElement (off n : ℤ) : M Element := do
  let nd ← nodeAt off
  let ndx ← indexOf off
  let blk ← buffer off
  if n < 0 ∨ vectorPos ndx n + childOffsetSz + ndx.keySize > bufferSz then throw .bufIndex
  return (blk.slots n.toNat).element nd.isLeaf nd.ndxName ndx.keySize

/-- `node::put_element`. -/
def putElement (off n : ℤ) (elem : Element) : M Unit := do
  let nd ← nodeAt off
  let ndx ← indexOf off
  let blk ← buffer off
  if n < 0 ∨ vectorPos ndx n + childOffsetSz + ndx.keySize > bufferSz then throw .bufRemaining
  if elem.key.length > ndx.keySize then throw .overrun
  setBuffer off
    { blk with
      slots := Function.update blk.slots n.toNat ((blk.slots n.toNat).put nd.isLeaf ndx.keySize elem) }
  flush off

/-- `node::child_at`, dereferenced. -/
def childAt (off n : ℤ) : M ℤ := do
  let nd ← nodeAt off
  let offset ← getChildOffset off n
  deref (← getNode nd.ndxName offset)

/-- `node::get_next_sibling`. -/
def getNextSibling (off : ℤ) : M (Option ℤ) := do
  let nd ← nodeAt off
  let offset := (← buffer off).next
  if offset = invalidSiblingRef then return none
  getNode nd.ndxName offset

/-- `node::is_full`. -/
def isFull (off : ℤ) : M Bool :=
  return decide ((← nodeAt off).numKey ≥ ((← indexOf off).order : ℤ) - 1)

/-- The loop of `node::find_key`. -/
def findKeyLoop (off : ℤ) (key : Key) : ℕ → ℤ → ℤ → ℤ → M ℤ
  | 0, _, _, _ => throw .fuel
  | fuel + 1, lo, hi, altMid => do
    if lo ≤ hi then
      let mid := (lo + hi) / 2
      let e ← getElement off mid
      if key < e.key then findKeyLoop off key fuel lo (mid - 1) mid
      else if e.key < key then findKeyLoop off key fuel (mid + 1) hi altMid
      else return mid
    else return altMid

/-- `node::find_key`; every round shortens `lo … hi`, so the fuel is enough. -/
def findKey (off : ℤ) (key : Key) : M ℤ := do
  let nd ← nodeAt off
  findKeyLoop off key (nd.numKey.toNat + 1) 0 (nd.numKey - 1) nd.numKey

/-! ### Insertion -/

/-- `insert_sibling`. -/
def insertSibling (prev newNode : ℤ) : M Unit := do
  setPrevSiblingOffset newNode prev
  setNextSiblingOffset newNode (← getNextSiblingOffset prev)
  match ← getNextSibling prev with
  | some next =>
    setPrevSiblingOffset next newNode
    flush next
  | none => pure ()
  setNextSiblingOffset prev newNode

/-- `node::split_child`. -/
def splitChild (off n prev : ℤ) : M Unit := do
  let minDegree ← minDegree off
  let leaf := (← nodeAt prev).isLeaf
  let new ← newNode leaf (← nodeAt off).ndxName (← nextOffset false)
  setNumKey new (minDegree - 1)
  forUp (fun i => do putElement new i (← getElement prev (minDegree + i))) 0 (minDegree - 1).toNat
  unless leaf do
    forUp (fun i => do putChildOffset new i (← getChildOffset prev (minDegree + i))) 0 minDegree.toNat
  setNumKey prev (if leaf then minDegree else minDegree - 1)
  let numKey := (← nodeAt off).numKey
  forDown (fun i => do putChildOffset off (i + 1) (← getChildOffset off i)) numKey (numKey - n).toNat
  putChildOffset off (n + 1) new
  forDown (fun i => do putElement off (i + 1) (← getElement off i)) (numKey - 1) (numKey - n).toNat
  putElement off n (← getElement prev (minDegree - 1))
  incNumKey off 1
  insertSibling prev new
  flush prev
  flush new

/-- `for (; i >= 0 && get_element(i) > elem; --i) put_element(i + 1, get_element(i));`
from `i + 1`; the final `i`. -/
def makeRoom (off : ℤ) (elem : Element) : ℕ → M ℤ
  | 0 => return -1
  | i + 1 => do
    if elem.key < (← getElement off i).key then
      putElement off (i + 1) (← getElement off i)
      makeRoom off elem i
    else return i

/-- `for (; i >= 0 && get_element(i) > elem; --i);` from `i + 1`; the final `i`. -/
def scanDown (off : ℤ) (elem : Element) : ℕ → M ℤ
  | 0 => return -1
  | i + 1 => do
    if elem.key < (← getElement off i).key then scanDown off elem i
    else return i

/-- `node::insert_non_full`. -/
def insertNonFull : ℕ → ℤ → Element → M Unit
  | 0, _, _ => throw .fuel
  | fuel + 1, off, elem => do
    let nd ← nodeAt off
    if nd.isLeaf then
      let i ← makeRoom off elem nd.numKey.toNat
      putElement off (i + 1) elem
      incNumKey off 1
    else
      let i ← scanDown off elem nd.numKey.toNat
      let child ← childAt off (i + 1)
      let i ← if ← isFull child then
          splitChild off (i + 1) child
          pure (if (← getElement off (i + 1)).key < elem.key then i + 1 else i)
        else pure i
      insertNonFull fuel (← childAt off (i + 1)) elem

/-- `tree::insert(element)`. -/
def insertElement (fuel : ℕ) (elem : Element) : M Unit := do
  if (← getIndex elem.ndxName).root < 0 then
    setRoot elem.ndxName (← nextOffset false)
    let root ← newNode true elem.ndxName (← getIndex elem.ndxName).root
    putElement root 0 elem
    setNumKey root 1
  else
    let root ← deref (← getNode elem.ndxName (← getIndex elem.ndxName).root)
    if ← isFull root then
      let newRoot ← newNode false elem.ndxName (← nextOffset false)
      putChildOffset newRoot 0 root
      splitChild newRoot 0 root
      let i := if (← getElement newRoot 0).key < elem.key then 1 else 0
      insertNonFull fuel (← childAt newRoot i) elem
      setRoot elem.ndxName newRoot
    else insertNonFull fuel root elem

/-! ### Removal -/

/-- `node::borrow_from_prev`. -/
def borrowFromPrev (off n : ℤ) : M Unit := do
  let child ← childAt off n
  let sibling ← childAt off (n - 1)
  let numKey := (← nodeAt child).numKey
  forDown (fun i => do putElement child (i + 1) (← getElement child i)) (numKey - 1) numKey.toNat
  putElement child 0 (← getElement off (n - 1))
  incNumKey child 1
  unless (← nodeAt child).isLeaf do
    let numKey := (← nodeAt child).numKey
    forDown (fun i => do putChildOffset child (i + 1) (← getChildOffset child i)) numKey (numKey + 1).toNat
    putChildOffset child 0 (← getChildOffset sibling (← nodeAt sibling).numKey)
  putElement off (n - 1) (← getElement sibling ((← nodeAt sibling).numKey - 1))
  decNumKey sibling 1

/-- `node::borrow_from_next`. -/
def borrowFromNext (off n : ℤ) : M Unit := do
  let child ← childAt off n
  let sibling ← childAt off (n + 1)
  putElement child (← nodeAt child).numKey (← getElement off n)
  unless (← nodeAt child).isLeaf do
    putChildOffset child ((← nodeAt child).numKey + 1) (← getChildOffset sibling 0)
  putElement off n (← getElement sibling 0)
  let numKey := (← nodeAt sibling).numKey
  forUp (fun i => do putElement sibling (i - 1) (← getElement sibling i)) 1 (numKey - 1).toNat
  unless (← nodeAt sibling).isLeaf do
    forUp (fun i => do putChildOffset sibling (i - 1) (← getChildOffset sibling i)) 1 numKey.toNat
  incNumKey child 1
  decNumKey sibling 1

/-- `node::merge`. -/
def merge (off n : ℤ) : M Unit := do
  let child ← childAt off n
  let sibling ← childAt off (n + 1)
  let minDegree ← minDegree off
  putElement child (minDegree - 1) (← getElement off n)
  let numKey := (← nodeAt off).numKey
  forUp (fun i => do putElement off (i - 1) (← getElement off i)) (n + 1) (numKey - (n + 1)).toNat
  forUp (fun i => do putChildOffset off (i - 1) (← getChildOffset off i)) (n + 2) (numKey - (n + 2)).toNat
  let sibKey := (← nodeAt sibling).numKey
  forUp (fun i => do putElement child (minDegree + i) (← getElement sibling i)) 0 sibKey.toNat
  unless (← nodeAt child).isLeaf do
    forUp (fun i => do putChildOffset child (minDegree + i) (← getChildOffset sibling i)) 0 (sibKey + 1).toNat
  incNumKey child ((← nodeAt sibling).numKey + 1)
  decNumKey off 1
  setNextSiblingOffset child (← getNextSiblingOffset sibling)
  setNode sibling { ← nodeAt sibling with dead := true }

/-- `child_at(n)->m_num_key >= min_degree`. -/
def childHasMin (off n minDegree : ℤ) : M Bool :=
  return decide ((← nodeAt (← childAt off n)).numKey ≥ minDegree)

/-- `node::fill`. -/
def fill (off n : ℤ) : M Unit := do
  let minDegree ← minDegree off
  let numKey := (← nodeAt off).numKey
  let fromPrev ← if n ≠ 0 then childHasMin off (n - 1) minDegree else pure false
  if fromPrev then borrowFromPrev off n
  else
    let fromNext ← if n ≠ numKey then childHasMin off (n + 1) minDegree else pure false
    if fromNext then borrowFromNext off n
    else if n ≠ numKey then merge off n
    else merge off (n - 1)

/-- `while (!child->m_leaf) child = child_at(0);`: the loop goes on with a child of the
node itself. -/
def nextElementLoop (off : ℤ) : ℕ → ℤ → M ℤ
  | 0, _ => throw .fuel
  | fuel + 1, child => do
    if (← nodeAt child).isLeaf then return child
    nextElementLoop off fuel (← childAt off 0)

/-- `node::get_next_element`. -/
def getNextElement (fuel : ℕ) (off n : ℤ) : M Element := do
  let child ← nextElementLoop off fuel (← childAt off (n + 1))
  getElement child 0

/-- `while (!child->m_leaf) child = child_at(child->m_num_key);`. -/
def prevElementLoop (off : ℤ) : ℕ → ℤ → M ℤ
  | 0, _ => throw .fuel
  | fuel + 1, child => do
    if (← nodeAt child).isLeaf then return child
    prevElementLoop off fuel (← childAt off (← nodeAt child).numKey)

/-- `node::get_prev_element`. -/
def getPrevElement (fuel : ℕ) (off n : ℤ) : M Element := do
  let child ← prevElementLoop off fuel (← childAt off n)
  getElement child ((← nodeAt child).numKey - 2)

/-- `node::remove_from_leaf`; the element that the out-parameter receives. -/
def removeFromLeaf (off n : ℤ) : M Element := do
  let ret ← getElement off n
  let numKey := (← nodeAt off).numKey
  forUp (fun i => do putElement off (i - 1) (← getElement off i)) (n + 1) (numKey - (n + 1)).toNat
  decNumKey off 1
  return ret

/-- `node::remove_from_non_leaf`, with `node::remove` for its recursive calls. -/
def removeFromNonLeaf (remove : ℤ → Element → Key → M Element) (fuel : ℕ) (off : ℤ) (ret : Element)
    (n : ℤ) : M Element := do
  let elem ← getElement off n
  let minDegree ← minDegree off
  if ← childHasMin off n minDegree then
    putElement off n (← getPrevElement fuel off n)
    remove (← childAt off n) ret elem.key
  else if ← childHasMin off (n + 1) minDegree then
    putElement off n (← getNextElement fuel off n)
    remove (← childAt off (n + 1)) ret elem.key
  else
    merge off n
    remove (← childAt off n) ret elem.key

/-- `node::remove`. The out-parameter `ret` is passed in and returned. -/
def removeNode : ℕ → ℤ → Element → Key → M Element
  | 0, _, _, _ => throw .fuel
  | fuel + 1, off, ret, key => do
    let n ← findKey off key
    let nd ← nodeAt off
    let found ← if n < nd.numKey then pure (decide ((← getElement off n).key = key)) else pure false
    if found then
      if nd.isLeaf then removeFromLeaf off n
      else removeFromNonLeaf (removeNode fuel) fuel off ret n
    else if nd.isLeaf then return ret
    else
      let flag := n = nd.numKey
      let minDegree ← minDegree off
      unless ← childHasMin off n minDegree do fill off n
      if flag ∧ n > (← nodeAt off).numKey then removeNode fuel (← childAt off (n - 1)) ret key
      else removeNode fuel (← childAt off n) ret key

/-- `tree::remove(element&, ndx_name, key)`. -/
def removeElement (fuel : ℕ) (elem : Element) (ndxName : String) (key : Key) : M Element := do
  if (← getIndex ndxName).root < 0 then return elem
  let root ← deref (← getNode ndxName (← getIndex ndxName).root)
  let elem ← removeNode fuel root elem key
  let nd ← nodeAt root
  if nd.numKey = 0 then
    if nd.isLeaf then setRoot ndxName (-1)
    else setRoot ndxName (← getChildOffset root 0)
    setNode root { nd with dead := true }
  return elem

/-! ### Search and iteration -/

/-- `iterator`. -/
structure Iterator where
  /-- `m_index`. -/
  index : ℤ
  /-- `m_offset`. -/
  offset : ℤ
  /-- `m_ndx_name`. -/
  ndxName : String
  deriving DecidableEq

/-- `iterator::operator==`. -/
def Iterator.eq (a b : Iterator) : Bool := decide (a.offset = b.offset ∧ a.index = b.index)

/-- Descend from `off` by the child that `pick` names until a leaf is reached. -/
def descend (pick : Node → ℤ) : ℕ → ℤ → M ℤ
  | 0, _ => throw .fuel
  | fuel + 1, off => do
    let nd ← nodeAt off
    if nd.isLeaf then return off
    descend pick fuel (← childAt off (pick nd))

/-- `tree::begin(ndx_name)`. -/
def beginIndex (fuel : ℕ) (ndxName : String) : M Iterator := do
  if (← getIndex ndxName).root < 0 then return ⟨0, invalidSiblingRef, ndxName⟩
  let root ← deref (← getNode ndxName (← getIndex ndxName).root)
  return ⟨0, ← descend (fun _ => 0) fuel root, ndxName⟩

/-- `tree::end(ndx_name)`. -/
def endIndex (fuel : ℕ) (ndxName : String) : M Iterator := do
  if (← getIndex ndxName).root < 0 then return ⟨0, invalidSiblingRef, ndxName⟩
  let root ← deref (← getNode ndxName (← getIndex ndxName).root)
  let leaf ← descend Node.numKey fuel root
  return ⟨(← nodeAt leaf).numKey, leaf, ndxName⟩

/-- `node::find`. -/
def findNode : ℕ → ℤ → Key → M Iterator
  | 0, _, _ => throw .fuel
  | fuel + 1, off, key => do
    let i ← findKey off key
    let nd ← nodeAt off
    if (← getElement off i).key = key then return ⟨i, off, nd.ndxName⟩
    if nd.isLeaf then endIndex (fuel + 1) nd.ndxName
    else findNode fuel (← childAt off i) key

/-- `tree::find`. -/
def findIndex (fuel : ℕ) (ndxName : String) (key : Key) : M Iterator := do
  if (← getIndex ndxName).root < 0 then return ⟨0, invalidSiblingRef, ndxName⟩
  findNode fuel (← deref (← getNode ndxName (← getIndex ndxName).root)) key

/-- `iterator::operator++`. -/
def Iterator.incr (it : Iterator) : M Iterator := do
  let n ← deref (← getNode it.ndxName it.offset)
  let numKey := (← nodeAt n).numKey
  let index := if it.index < numKey then it.index + 1 else it.index
  if index = numKey then
    let offset ← getNextSiblingOffset n
    if offset ≠ invalidSiblingRef then return { it with offset := offset, index := 0 }
  return { it with index := index }

/-- `iterator::operator--`. -/
def Iterator.decr (it : Iterator) : M Iterator := do
  let mut it := it
  if it.index = 0 then
    let n ← deref (← getNode it.ndxName it.offset)
    let offset ← getPrevSiblingOffset n
    if offset ≠ invalidSiblingRef then
      let m ← deref (← getNode it.ndxName offset)
      it := { it with offset := offset, index := (← nodeAt m).numKey }
  return if it.index > 0 then { it with index := it.index - 1 } else it

/-- The element `iterator::operator*` reads before it looks up the row. -/
def Iterator.element (it : Iterator) : M Element := do
  let n ← deref (← getNode it.ndxName it.offset)
  getElement n it.index

end RedB
