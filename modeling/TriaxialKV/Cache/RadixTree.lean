import TriaxialKV.Cache.Locks

/-! # Lookup, insertion and events -/

namespace TriaxialKV

/-! ### Keys -/

def pageAlignKeys (key : List Nat) (pageSize : Nat) : List Nat :=
  if pageSize = 1 then key else key.take (key.length / pageSize * pageSize)

def keyMatchPageSize1 : List Nat → List Nat → Nat
  | k0 :: key0, k1 :: key1 => if k0 ≠ k1 then 0 else keyMatchPageSize1 key0 key1 + 1
  | _, _ => 0

/-- The loop of `_key_match_paged` from offset `i` on. -/
def keyMatchFrom (key0 key1 : List Nat) (pageSize : Nat) : Nat → Nat → Nat
  | 0, i => i
  | fuel + 1, i =>
    if i < min key0.length key1.length then
      if (key0.drop i).take pageSize ≠ (key1.drop i).take pageSize then i else keyMatchFrom key0 key1 pageSize fuel (i + pageSize)
    else i

def keyMatchPaged (key0 key1 : List Nat) (pageSize : Nat) : Nat := keyMatchFrom key0 key1 pageSize (min key0.length key1.length) 0

/-- `key_match_fn`. The extra keys agree, since a child is looked up with the extra key. -/
def keyMatch (pageSize : Nat) (key0 key1 : List Nat) : Nat :=
  if pageSize = 1 then keyMatchPageSize1 key0 key1 else keyMatchPaged key0 key1 pageSize

/-! ### Events -/

/-- The digest of a page after its predecessor's, and the integer that events carry for it. -/
structure BlockHash where
  getHashStr : List Nat → Option Nat → Nat
  hashStrToInt64 : Nat → Int

inductive KvEvent where
  | blockStored (blockHash : Int) (parentBlockHash : Option Int) (tokenIds : List Nat) (blockSize : Nat)
  | blockRemoved (blockHash : Int)
  | allBlocksCleared
  deriving DecidableEq

structure RadixTree extends RadixCache where
  enableKvCacheEvents : Bool
  hasher : BlockHash
  hashValue : Nat → Option (List Nat)
  kvEventQueue : List KvEvent

/-- `key.token_ids[start : start + page_size]` for every page of a key. -/
def keyPages (key : List Nat) (pageSize : Nat) : List (List Nat) :=
  (List.range ((key.length + pageSize - 1) / pageSize)).map (fun i => (key.drop (i * pageSize)).take pageSize)

def BlockHash.chain (hasher : BlockHash) : Option Nat → List (List Nat) → List Nat
  | _, [] => []
  | parentHash, page :: pages =>
    let hashVal := hasher.getHashStr page parentHash
    hashVal :: hasher.chain (some hashVal) pages

def splitNodeHashValue (childHashValue : Option (List Nat)) (splitLen pageSize : Nat) : Option (List Nat) × Option (List Nat) :=
  match childHashValue with
  | none => (none, none)
  | some hashes =>
    let splitPages := if pageSize = 1 then splitLen else splitLen / pageSize
    (some (hashes.take splitPages), some (hashes.drop splitPages))

namespace RadixCache

/-- A node is known by an id that no other node of the tree has. -/
def freshId (c : RadixCache) : Nat := (c.nodes.map (·.id)).foldr max 0 + 1

/-- `node.children[child_key]`. -/
def child? (c : RadixCache) (id : Nat) (key : RadixKey) : Option TreeNode :=
  (c.children id).find? (fun n => getChildKey n.key c.pageSize = getChildKey key c.pageSize)

def modifyNode (c : RadixCache) (id : Nat) (f : TreeNode → TreeNode) : RadixCache :=
  { c with nodes := c.nodes.map (fun n => if n.id = id then f n else n) }

/-- `clock` holds the readings of the clock during one operation. -/
def newParent (c : RadixCache) (clock : Nat → Int) (child : TreeNode) (splitLen : Nat) : TreeNode where
  id := c.freshId
  parent := child.parent
  key := ⟨child.key.tokenIds.take splitLen, child.key.extraKey⟩
  value := child.value.take splitLen
  lockRef := child.lockRef
  lastAccessTime := clock 1
  creationTime := clock 2
  hitCount := child.hitCount
  priority := child.priority

def lowerPart (splitLen id : Nat) (child : TreeNode) : TreeNode :=
  { child with
    parent := id
    key := ⟨child.key.tokenIds.drop splitLen, child.key.extraKey⟩
    value := child.value.drop splitLen }

def splitNode (c : RadixCache) (clock : Nat → Int) (child : TreeNode) (splitLen : Nat) : RadixCache :=
  let lower := c.modifyNode child.id (lowerPart splitLen c.freshId)
  { lower with nodes := lower.nodes ++ [c.newParent clock child splitLen] }

def newLeaf (c : RadixCache) (clock : Nat → Int) (parent : Nat) (key : RadixKey) (value : List Nat) (priority : Int) (chunked : Bool) : TreeNode where
  id := c.freshId
  parent := parent
  key := key
  value := value
  lockRef := 0
  lastAccessTime := clock 3
  creationTime := clock 4
  hitCount := if chunked then 0 else 1
  priority := priority

def addLeaf (c : RadixCache) (leaf : TreeNode) : RadixCache :=
  let c := { c with nodes := c.nodes ++ [leaf], evictableSize := c.evictableSize + leaf.key.tokenIds.length }
  (c.updateLeafStatus leaf.parent).updateLeafStatus leaf.id

end RadixCache

namespace RadixTree

/-! ### Hash values -/

/-- The digest of the page before the first one of a child of `id`. -/
def lastHash (t : RadixTree) (id : Nat) : Option Nat :=
  if id = 0 then none else (t.hashValue id).bind (fun hashes => hashes.getLast?)

def computeNodeHashValues (t : RadixTree) (n : TreeNode) : List Nat := t.hasher.chain (t.lastHash n.parent) (keyPages n.key.tokenIds t.pageSize)

def ensureHashValue (t : RadixTree) (n : TreeNode) : RadixTree :=
  if t.hashValue n.id = none then { t with hashValue := Function.update t.hashValue n.id (some (t.computeNodeHashValues n)) } else t

def storeEvents (hasher : BlockHash) : Option Int → List (List Nat) → List Nat → List KvEvent
  | parentBlockHash, page :: pages, hash :: hashes =>
    let blockHash := hasher.hashStrToInt64 hash
    .blockStored blockHash parentBlockHash page page.length :: storeEvents hasher (some blockHash) pages hashes
  | _, _, _ => []

def recordStoreEvent (t : RadixTree) (n : TreeNode) : RadixTree :=
  if t.enableKvCacheEvents then
    let t := t.ensureHashValue n
    let parentBlockHash := (t.lastHash n.parent).map t.hasher.hashStrToInt64
    let events := storeEvents t.hasher parentBlockHash (keyPages n.key.tokenIds t.pageSize) ((t.hashValue n.id).getD [])
    { t with kvEventQueue := t.kvEventQueue ++ events }
  else t

def recordRemoveEvent (t : RadixTree) (n : TreeNode) : RadixTree :=
  if t.enableKvCacheEvents then
    let t := t.ensureHashValue n
    let hashes := ((t.hashValue n.id).getD []).take (keyPages n.key.tokenIds t.pageSize).length
    { t with kvEventQueue := t.kvEventQueue ++ hashes.map (fun hash => .blockRemoved (t.hasher.hashStrToInt64 hash)) }
  else t

/-! ### Walks -/

def modifyNode (t : RadixTree) (id : Nat) (f : TreeNode → TreeNode) : RadixTree := { t with toRadixCache := t.toRadixCache.modifyNode id f }

def touch (t : RadixTree) (id : Nat) (accessTime : Int) : RadixTree := t.modifyNode id (fun n => { n with lastAccessTime := accessTime })

def splitNode (t : RadixTree) (clock : Nat → Int) (child : TreeNode) (splitLen : Nat) : RadixTree :=
  let hashes := splitNodeHashValue (t.hashValue child.id) splitLen t.pageSize
  { t with
    toRadixCache := t.toRadixCache.splitNode clock child splitLen
    hashValue := Function.update (Function.update t.hashValue t.freshId hashes.1) child.id hashes.2 }

/-- The loop of `_match_prefix_helper`. -/
def matchLoop (clock : Nat → Int) (extraKey : Option String) : Nat → RadixTree → Nat → List Nat → List Nat → List Nat × Nat × RadixTree
  | 0, t, node, _, value => (value, node, t)
  | fuel + 1, t, node, key, value =>
    if key = [] then (value, node, t) else
    match t.child? node ⟨key, extraKey⟩ with
    | none => (value, node, t)
    | some child =>
      let t := t.touch child.id (clock 0)
      let prefixLen := keyMatch t.pageSize child.key.tokenIds key
      if prefixLen < child.key.tokenIds.length then
        (value ++ child.value.take prefixLen, t.freshId, t.splitNode clock child prefixLen)
      else matchLoop clock extraKey fuel t child.id (key.drop prefixLen) (value ++ child.value)

structure MatchResult where
  deviceIndices : List Nat
  lastDeviceNode : Nat

/-- Every round takes at least one token from the key. -/
def matchPrefix (t : RadixTree) (clock : Nat → Int) (key : RadixKey) : MatchResult × RadixTree :=
  if t.disable ∨ key.tokenIds = [] then (⟨[], 0⟩, t) else
  let tokenIds := pageAlignKeys key.tokenIds t.pageSize
  if tokenIds = [] then (⟨[], 0⟩, t) else
  let (value, lastNode, t) := matchLoop clock key.extraKey tokenIds.length t 0 tokenIds []
  (⟨value, lastNode⟩, t)

def visit (priority : Int) (chunked : Bool) (n : TreeNode) : TreeNode :=
  { n with priority := max n.priority priority, hitCount := if chunked then n.hitCount else n.hitCount + 1 }

structure InsertState where
  tree : RadixTree
  node : Nat
  key : List Nat
  value : List Nat
  totalPrefixLength : Nat

def insertLoop (clock : Nat → Int) (extraKey : Option String) (priority : Int) (chunked : Bool) : Nat → InsertState → InsertState
  | 0, s => s
  | fuel + 1, s =>
    if s.key = [] then s else
    match s.tree.child? s.node ⟨s.key, extraKey⟩ with
    | none => s
    | some child =>
      let t := s.tree.touch child.id (clock 0)
      let prefixLen := keyMatch t.pageSize child.key.tokenIds s.key
      let total := s.totalPrefixLength + prefixLen
      let key := s.key.drop prefixLen
      let value := s.value.drop prefixLen
      if prefixLen < child.key.tokenIds.length then
        let new := t.freshId
        let t := (t.splitNode clock child prefixLen).modifyNode new (visit priority chunked)
        insertLoop clock extraKey priority chunked fuel ⟨t, new, key, value, total⟩
      else
        let t := t.modifyNode child.id (visit priority chunked)
        insertLoop clock extraKey priority chunked fuel ⟨t, child.id, key, value, total⟩

def addLeaf (t : RadixTree) (leaf : TreeNode) : RadixTree :=
  let t := { t with toRadixCache := t.toRadixCache.addLeaf leaf, hashValue := Function.update t.hashValue leaf.id none }
  t.recordStoreEvent leaf

/-- The root's own priority and times are never read, since it is locked for good. -/
def insertHelper (t : RadixTree) (clock : Nat → Int) (key : RadixKey) (value : List Nat) (priority : Option Int) (chunked : Bool) : Nat × RadixTree :=
  let priority := priority.getD 0
  if key.tokenIds = [] then (0, t) else
  let s := insertLoop clock key.extraKey priority chunked key.tokenIds.length ⟨t, 0, key.tokenIds, value, 0⟩
  if s.key = [] then (s.totalPrefixLength, s.tree)
  else
    let leaf := s.tree.newLeaf clock s.node ⟨s.key, key.extraKey⟩ s.value priority chunked
    (s.totalPrefixLength, s.tree.addLeaf leaf)

def insert (t : RadixTree) (clock : Nat → Int) (key : RadixKey) (value : Option (List Nat)) (priority : Option Int) (chunked : Bool) :
    Nat × RadixTree :=
  if t.disable then (0, t)
  else t.insertHelper clock key (value.getD key.tokenIds) priority chunked

/-! ### Eviction and locks -/

def evictLoop {α : Type} [SlotAllocator α] (order : EvictionOrder) (numTokens : Nat) : Nat → Nat → List Nat → RadixTree → α → Nat × RadixTree × α
  | 0, numEvicted, _, t, a => (numEvicted, t, a)
  | fuel + 1, numEvicted, heap, t, a =>
    if numEvicted < numTokens ∧ heap ≠ [] then
      match t.node? (order.next t.toRadixCache heap) with
      | none => (numEvicted, t, a)
      | some x =>
        let (heap, c, a) := RadixCache.evictNode heap t.toRadixCache a x
        let t := ({ t with toRadixCache := c } : RadixTree).recordRemoveEvent x
        evictLoop order numTokens fuel (numEvicted + x.value.length) heap t a
    else (numEvicted, t, a)

def evict {α : Type} [SlotAllocator α] (order : EvictionOrder) (t : RadixTree) (a : α) (numTokens : Nat) : Nat × RadixTree × α :=
  if t.disable then (0, t, a)
  else evictLoop order numTokens t.nodes.length 0 t.evictableLeaves t a

def incLockRef (t : RadixTree) (id : Nat) : RadixTree := { t with toRadixCache := t.toRadixCache.incLockRef id }

def decLockRef (t : RadixTree) (id : Nat) : RadixTree := { t with toRadixCache := t.toRadixCache.decLockRef id }

def init (disable : Bool) (pageSize : Nat) (enableKvCacheEvents : Bool) (hasher : BlockHash) : RadixTree where
  disable := disable
  pageSize := pageSize
  nodes := []
  evictableLeaves := []
  evictableSize := 0
  protectedSize := 0
  enableKvCacheEvents := enableKvCacheEvents
  hasher := hasher
  hashValue := fun _ => none
  kvEventQueue := if enableKvCacheEvents then [.allBlocksCleared] else []

end RadixTree

end TriaxialKV
