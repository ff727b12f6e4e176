import TriaxialKV.Cache.TreeWalk

/-! # Values aside -/

namespace TriaxialKV
open List

def TreeNode.bare (n : TreeNode) : TreeNode := { n with value := n.key.tokenIds }

variable {f : TreeNode → TreeNode} (id : Nat)

namespace RadixCache

def bare (c : RadixCache) : RadixCache := { c with nodes := c.nodes.map TreeNode.bare }

variable (c : RadixCache)

theorem bare_children : c.bare.children id = (c.children id).map TreeNode.bare := filter_map

theorem bare_node? : c.bare.node? id = (c.node? id).map TreeNode.bare := find?_map ..

theorem bare_lockRef : c.bare.lockRef id = c.lockRef id := by
  unfold lockRef
  rw [bare_node?, Option.map_map]
  rfl

theorem bare_freshId : c.bare.freshId = c.freshId := by
  unfold freshId bare
  rw [map_map]
  rfl

theorem bare_child? (key : RadixKey) : c.bare.child? id key = (c.child? id key).map TreeNode.bare := by
  unfold child?
  rw [bare_children]
  exact find?_map ..

theorem bare_leafStatus : (c.updateLeafStatus id).bare = c.bare.updateLeafStatus id := by
  have last : c.bare.children id ≠ [] ↔ c.children id ≠ [] := by rw [bare_children, ne_eq, map_eq_nil_iff]
  unfold updateLeafStatus
  rw [bare_lockRef]
  simp only [last]
  split
  · rfl
  · split
    · rfl
    · split
      · next listed => exact (if_pos listed).symm
      · next listed => exact (if_neg listed).symm

theorem bare_modifyNode (commutes : ∀ n, (f n).bare = f n.bare) : (c.modifyNode id f).bare = c.bare.modifyNode id f := by
  unfold modifyNode bare
  rw [map_map, map_map]
  congr 1
  refine map_congr_left (fun n _ => ?_)
  change (if n.id = id then f n else n).bare = if n.bare.id = id then f n.bare else n.bare
  rw [show n.bare.id = n.id from rfl]
  split
  · exact commutes n
  · rfl

theorem bare_splitNode (clock : Nat → Int) (child : TreeNode) (splitLen : Nat) :
    (c.splitNode clock child splitLen).bare = c.bare.splitNode clock child.bare splitLen := by
  have lower := c.bare_modifyNode child.id (f := lowerPart splitLen c.freshId) (fun _ => rfl)
  unfold splitNode
  rw [bare_freshId, show child.bare.id = child.id from rfl, ← lower]
  unfold bare
  rw [map_append, map_singleton]
  congr 2
  unfold newParent
  rw [show ({ c with nodes := c.nodes.map TreeNode.bare } : RadixCache).freshId = c.freshId from c.bare_freshId]
  rfl

theorem bare_addLeaf (leaf : TreeNode) : (c.addLeaf leaf).bare = c.bare.addLeaf leaf.bare := by
  unfold addLeaf
  rw [bare_leafStatus, bare_leafStatus]
  unfold bare
  rw [map_append]
  rfl

theorem bare_deleteLeaf (x : TreeNode) : (c.deleteLeaf x).bare = c.bare.deleteLeaf x.bare := by
  rw [deleteLeaf_eq, deleteLeaf_eq, bare_leafStatus]
  unfold remove bare
  rw [filter_map]
  rfl

theorem bare_lockNode (edge delta : Int) (n : TreeNode) : (c.lockNode edge delta n).bare = c.bare.lockNode edge delta n.bare := by
  have nodes : (c.nodes.map (shift delta [n.id])).map TreeNode.bare = (c.nodes.map TreeNode.bare).map (shift delta [n.bare.id]) := by
    rw [map_map, map_map]
    refine map_congr_left (fun m _ => ?_)
    unfold shift TreeNode.bare
    dsimp only [Function.comp_apply]
    split <;> rfl
  unfold lockNode
  rw [bare_leafStatus]
  unfold relock bare
  rw [nodes]
  rfl

theorem bare_lockWalk (edge delta : Int) (fuel id : Nat) : (c.lockWalk edge delta fuel id).bare = c.bare.lockWalk edge delta fuel id := by
  induction fuel generalizing c id with
  | zero => rfl
  | succ fuel ih =>
    unfold lockWalk
    rw [bare_node?]
    split
    · rfl
    · cases c.node? id with
      | none => rfl
      | some n =>
        rw [Option.map_some]
        rw [ih, bare_lockNode]
        rfl

theorem bare_incLockRef : (c.incLockRef id).bare = c.bare.incLockRef id := by
  unfold incLockRef
  rw [show c.bare.disable = c.disable from rfl, show c.bare.nodes.length = c.nodes.length from length_map _]
  split
  · rfl
  · exact c.bare_lockWalk ..

theorem bare_decLockRef : (c.decLockRef id).bare = c.bare.decLockRef id := by
  unfold decLockRef
  rw [show c.bare.disable = c.disable from rfl, show c.bare.nodes.length = c.nodes.length from length_map _]
  split
  · rfl
  · exact c.bare_lockWalk ..

theorem isLeaf_bare {x : TreeNode} (leaf : c.bare.IsLeaf x.bare) (mem : x ∈ c.nodes) : c.IsLeaf x := by
  obtain ⟨_, unlocked, last⟩ := leaf
  refine ⟨mem, unlocked, ?_⟩
  rwa [bare_children, map_eq_nil_iff] at last

theorem IsLeaf.bare {c : RadixCache} {x : TreeNode} (leaf : c.IsLeaf x) : c.bare.IsLeaf x.bare := by
  refine ⟨mem_map_of_mem leaf.member, leaf.unlocked, ?_⟩
  rw [bare_children, map_eq_nil_iff]
  exact leaf.last

theorem bare_evictNode {α : Type} [SlotAllocator α] (heap : List Nat) (a : α) (x : TreeNode) :
    (evictNode heap c.bare a x.bare).1 = (evictNode heap c a x).1 := by
  have last : (c.bare.deleteLeaf x.bare).children x.parent = [] ↔ (c.deleteLeaf x).children x.parent = [] := by
    rw [← bare_deleteLeaf, bare_children, map_eq_nil_iff]
  have lock : (c.bare.deleteLeaf x.bare).lockRef x.parent = (c.deleteLeaf x).lockRef x.parent := by rw [← bare_deleteLeaf, bare_lockRef]
  unfold evictNode
  change (if (c.bare.deleteLeaf x.bare).children x.parent = [] ∧ (c.bare.deleteLeaf x.bare).lockRef x.parent = 0 then _ else _) = _
  simp only [last, lock]
  rfl

theorem alike_bare : Alike c c.bare := by
  refine ⟨rfl, ?_⟩
  unfold bare
  rw [map_map]
  rfl

theorem Wf.bare {c : RadixCache} (wf : c.Wf) : c.bare.Wf := by
  refine c.alike_bare.wf (fun n mem => ?_) wf
  obtain ⟨m, _, rfl⟩ := mem_map.mp mem
  rfl

theorem Wf.of_bare {c : RadixCache} (wf : c.bare.Wf) (sized : ∀ n ∈ c.nodes, n.value.length = n.key.tokenIds.length) : c.Wf :=
  c.alike_bare.symm.wf sized wf

end RadixCache

namespace RadixTree

def bare (t : RadixTree) : RadixTree := { t with toRadixCache := t.toRadixCache.bare }

section
variable (t : RadixTree)

theorem bare_ensureHash (n : TreeNode) : (t.ensureHashValue n).bare = t.bare.ensureHashValue n.bare := by
  unfold ensureHashValue
  change RadixTree.bare (if t.hashValue n.id = none then _ else _) = if t.hashValue n.id = none then _ else _
  split <;> rfl

theorem bare_storeEvent (n : TreeNode) : (t.recordStoreEvent n).bare = t.bare.recordStoreEvent n.bare := by
  unfold recordStoreEvent
  rw [← bare_ensureHash]
  change RadixTree.bare (if t.enableKvCacheEvents = true then _ else _) = if t.enableKvCacheEvents = true then _ else _
  split <;> rfl

theorem bare_removeEvent (n : TreeNode) : (t.recordRemoveEvent n).bare = t.bare.recordRemoveEvent n.bare := by
  unfold recordRemoveEvent
  rw [← bare_ensureHash]
  change RadixTree.bare (if t.enableKvCacheEvents = true then _ else _) = if t.enableKvCacheEvents = true then _ else _
  split <;> rfl

end

section
variable (t : RadixTree) (clock : Nat → Int)

theorem bare_modifyNode (commutes : ∀ n, (f n).bare = f n.bare) : (t.modifyNode id f).bare = t.bare.modifyNode id f := by
  unfold modifyNode bare
  rw [t.toRadixCache.bare_modifyNode id commutes]

theorem bare_touch (accessTime : Int) : (t.touch id accessTime).bare = t.bare.touch id accessTime := t.bare_modifyNode id (fun _ => rfl)

theorem bare_splitNode (child : TreeNode) (splitLen : Nat) :
    (t.splitNode clock child splitLen).bare = t.bare.splitNode clock child.bare splitLen := by
  unfold splitNode bare
  rw [RadixCache.bare_splitNode, RadixCache.bare_freshId]
  rfl

theorem bare_matchLoop (extraKey : Option String) (fuel node : Nat) (key value value' : List Nat) :
    (matchLoop clock extraKey fuel t.bare node key value').2 =
      ((matchLoop clock extraKey fuel t node key value).2.1, (matchLoop clock extraKey fuel t node key value).2.2.bare) := by
  induction fuel generalizing t node key value value' with
  | zero => rfl
  | succ fuel ih =>
    by_cases nonempty : key = []
    · rw [matchLoop_stop (.inl nonempty), matchLoop_stop (.inl nonempty)]
    · cases here : t.child? node ⟨key, extraKey⟩ with
      | none =>
        have absent : t.bare.child? node ⟨key, extraKey⟩ = none := (t.toRadixCache.bare_child? node _).trans (by rw [here]; rfl)
        rw [matchLoop_stop (.inr here), matchLoop_stop (.inr absent)]
      | some child =>
        have there : t.bare.child? node ⟨key, extraKey⟩ = some child.bare := (t.toRadixCache.bare_child? node _).trans (by rw [here]; rfl)
        rw [matchLoop_child nonempty here, matchLoop_child nonempty there]
        change (if keyMatch t.pageSize child.key.tokenIds key < child.key.tokenIds.length then _ else _ : List Nat × Nat × RadixTree).2 = _
        rw [show child.bare.id = child.id from rfl, ← bare_touch]
        split
        · rw [← bare_splitNode]
          exact congrArg (fun id => (id, _)) (RadixCache.bare_freshId _)
        · exact ih ..

theorem bare_matchPrefix (key : RadixKey) : (t.bare.matchPrefix clock key).2 = (t.matchPrefix clock key).2.bare ∧
      (t.bare.matchPrefix clock key).1.lastDeviceNode = (t.matchPrefix clock key).1.lastDeviceNode := by
  unfold matchPrefix
  rw [show t.bare.disable = t.disable from rfl, show t.bare.pageSize = t.pageSize from rfl]
  split
  · exact ⟨rfl, rfl⟩
  · dsimp only
    split
    · exact ⟨rfl, rfl⟩
    · have walk := t.bare_matchLoop clock key.extraKey (pageAlignKeys key.tokenIds t.pageSize).length 0 (pageAlignKeys key.tokenIds t.pageSize) [] []
      exact ⟨(congrArg Prod.snd walk :), (congrArg Prod.fst walk :)⟩

end

def InsertState.bare (s : InsertState) : InsertState := ⟨s.tree.bare, s.node, s.key, s.key, s.totalPrefixLength⟩

section
variable (clock : Nat → Int) (extraKey : Option String) (priority : Int) (chunked : Bool) (t : RadixTree)

theorem bare_insertRound (child : TreeNode) (len : Nat) : insertRound clock priority chunked t.bare child.bare len =
      ((insertRound clock priority chunked t child len).1.bare, (insertRound clock priority chunked t child len).2) := by
  unfold insertRound
  dsimp only
  rw [show child.bare.id = child.id from rfl, show child.bare.key = child.key from rfl, ← bare_touch, ← bare_splitNode]
  rw [show (t.touch child.id (clock 0)).bare.freshId = (t.touch child.id (clock 0)).freshId from RadixCache.bare_freshId _]
  split
  · rw [← bare_modifyNode _ _ (f := visit priority chunked) (fun _ => rfl)]
  · rw [← bare_modifyNode _ _ (f := visit priority chunked) (fun _ => rfl)]

theorem bare_insertLoop (fuel : Nat) (s : InsertState) :
    insertLoop clock extraKey priority chunked fuel s.bare = (insertLoop clock extraKey priority chunked fuel s).bare := by
  induction fuel generalizing s with
  | zero => rfl
  | succ fuel ih =>
    by_cases nonempty : s.key = []
    · rw [insertLoop_stop (s := s) (.inl nonempty), insertLoop_stop (s := s.bare) (.inl nonempty)]
    · cases here : s.tree.child? s.node ⟨s.key, extraKey⟩ with
      | none =>
        have absent : s.bare.tree.child? s.bare.node ⟨s.bare.key, extraKey⟩ = none :=
          (s.tree.toRadixCache.bare_child? s.node ⟨s.key, extraKey⟩).trans (by rw [here]; rfl)
        rw [insertLoop_stop (.inr here), insertLoop_stop (.inr absent)]
      | some child =>
        have there : s.bare.tree.child? s.bare.node ⟨s.bare.key, extraKey⟩ = some child.bare :=
          (s.tree.toRadixCache.bare_child? s.node ⟨s.key, extraKey⟩).trans (by rw [here]; rfl)
        rw [insertLoop_child nonempty here, insertLoop_child (s := s.bare) nonempty there, ← ih]
        congr 1
        unfold InsertState.next InsertState.bare
        rw [bare_insertRound]
        rfl

theorem bare_addLeaf (leaf : TreeNode) : (t.addLeaf leaf).bare = t.bare.addLeaf leaf.bare := by
  unfold addLeaf
  rw [bare_storeEvent]
  unfold bare
  rw [RadixCache.bare_addLeaf]
  rfl

theorem bare_insert (key : RadixKey) (value : Option (List Nat)) (priority : Option Int) :
    (t.insert clock key value priority chunked).2.bare = (t.bare.insert clock key none priority chunked).2 := by
  unfold insert
  rw [show t.bare.disable = t.disable from rfl]
  split
  · rfl
  · unfold insertHelper
    rw [Option.getD_none]
    dsimp only
    split
    · rfl
    · have walk := bare_insertLoop clock key.extraKey (priority.getD 0) chunked key.tokenIds.length ⟨t, 0, key.tokenIds, value.getD key.tokenIds, 0⟩
      rw [InsertState.bare] at walk
      rw [walk]
      generalize insertLoop clock key.extraKey (priority.getD 0) chunked key.tokenIds.length _ = s
      change (if s.key = [] then _ else _ : Nat × RadixTree).2.bare = (if s.key = [] then _ else _ : Nat × RadixTree).2
      split
      · rfl
      · rw [bare_addLeaf]
        unfold RadixCache.newLeaf
        rw [show s.bare.tree.freshId = s.tree.freshId from RadixCache.bare_freshId _]
        rfl

end

end RadixTree

end TriaxialKV
