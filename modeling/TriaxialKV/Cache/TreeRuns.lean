import TriaxialKV.Cache.TreeValues

/-!
# Runs of the cache

The state carries the locks that are outstanding.
-/

namespace TriaxialKV
open RadixCache

variable {t : RadixTree}

namespace RadixTree

def evictLeaf (t : RadixTree) (x : TreeNode) : RadixTree := ({ t with toRadixCache := t.toRadixCache.deleteLeaf x } : RadixTree).recordRemoveEvent x

@[simp] theorem evictLeaf_cache (t : RadixTree) (x : TreeNode) : (t.evictLeaf x).toRadixCache = t.toRadixCache.deleteLeaf x :=
  removeEvent_cache _ x

theorem bare_evictLeaf (t : RadixTree) (x : TreeNode) : (t.evictLeaf x).bare = t.bare.evictLeaf x.bare := by
  unfold evictLeaf
  rw [bare_removeEvent]
  unfold bare
  dsimp only
  rw [RadixCache.bare_deleteLeaf]

section
variable {α : Type} [SlotAllocator α]

section
variable (inv : RadixTree → α → Prop)
  (preserve : ∀ t a x, t.bare.Wf → t.IsLeaf x → inv t a → inv (t.evictLeaf x) (SlotAllocator.free a x.value)) (order : EvictionOrder)
include inv preserve order

theorem evictLoop_rule (numTokens fuel numEvicted : Nat) {heap : List Nat} {a : α} (wf : t.bare.Wf) (listed : heap.Perm t.evictableLeaves)
    (initial : inv t a) :
    (evictLoop order numTokens fuel numEvicted heap t a).2.1.bare.Wf ∧
      inv (evictLoop order numTokens fuel numEvicted heap t a).2.1 (evictLoop order numTokens fuel numEvicted heap t a).2.2 := by
  induction fuel generalizing numEvicted heap t a with
  | zero => exact ⟨wf, initial⟩
  | succ fuel ih =>
    rw [evictLoop]
    split
    · next more =>
      have next : order.next t.toRadixCache heap ∈ t.bare.evictableLeaves := listed.mem_iff.mp (order.next_mem t.toRadixCache heap more.2)
      obtain ⟨_, found, _, leaf⟩ := isLeaf_of_mem_leaves wf next
      obtain ⟨x, here, rfl⟩ := Option.map_eq_some_iff.mp ((t.toRadixCache.bare_node? _).symm.trans found)
      rw [here]
      have heap' := heap_evictNode wf leaf a listed
      have wf' := deleteLeaf_wf wf leaf
      rw [← evictLeaf_cache, ← bare_evictLeaf] at heap' wf'
      rw [show (evictNode heap t.bare.toRadixCache a x.bare).1 = _ from t.toRadixCache.bare_evictNode heap a x] at heap'
      exact ih (numEvicted + x.value.length) wf' heap' (preserve t a x wf (isLeaf_bare _ leaf (mem_of_node? here).1) initial)
    · exact ⟨wf, initial⟩

theorem evict_rule_bare (numTokens : Nat) {a : α} (wf : t.bare.Wf) (initial : inv t a) :
    (evict order t a numTokens).2.1.bare.Wf ∧ inv (evict order t a numTokens).2.1 (evict order t a numTokens).2.2 := by
  unfold evict
  split
  · exact ⟨wf, initial⟩
  · exact evictLoop_rule inv preserve order numTokens _ _ wf (.refl _) initial

end

theorem evict_rule (inv : RadixTree → α → Prop)
    (preserve : ∀ t a x, t.Wf → t.IsLeaf x → inv t a → inv (t.evictLeaf x) (SlotAllocator.free a x.value)) (order : EvictionOrder)
    (numTokens : Nat) {a : α} (wf : t.Wf) (initial : inv t a) :
    (evict order t a numTokens).2.1.Wf ∧ inv (evict order t a numTokens).2.1 (evict order t a numTokens).2.2 := by
  refine (evict_rule_bare (fun t a => t.Wf ∧ inv t a) (fun t a x _ leaf before => ?_) order numTokens wf.bare ⟨wf, initial⟩).2
  refine ⟨?_, preserve t a x before.1 leaf before.2⟩
  rw [evictLeaf_cache]
  exact deleteLeaf_wf before.1 leaf

end

end RadixTree

structure CacheState (α : Type) where
  tree : RadixTree
  allocator : α
  locks : List Nat

inductive CacheOp where
  | insert (clock : Nat → Int) (key : RadixKey) (value : Option (List Nat)) (priority : Option Int) (chunked : Bool)
  | matchPrefix (clock : Nat → Int) (key : RadixKey)
  | incLockRef (id : Nat)
  | decLockRef (id : Nat)
  | evict (order : EvictionOrder) (numTokens : Nat)

namespace CacheState
variable {α : Type} [SlotAllocator α]

def step (s : CacheState α) : CacheOp → CacheState α
  | .insert clock key value priority chunked => { s with tree := (s.tree.insert clock key value priority chunked).2 }
  | .matchPrefix clock key => { s with tree := (s.tree.matchPrefix clock key).2 }
  | .incLockRef id => { s with tree := s.tree.incLockRef id, locks := id :: s.locks }
  | .decLockRef id => { s with tree := s.tree.decLockRef id, locks := s.locks.erase id }
  | .evict order numTokens =>
    let (_, tree, allocator) := s.tree.evict order s.allocator numTokens
    { s with tree := tree, allocator := allocator }

/-- Only nodes of the tree are locked, and only outstanding locks are released. -/
def guard (s : CacheState α) : CacheOp → Prop
  | .incLockRef id => id = 0 ∨ ∃ n ∈ s.tree.nodes, n.id = id
  | .decLockRef id => id ∈ s.locks
  | _ => True

def start (disable : Bool) (pageSize : Nat) (enableKvCacheEvents : Bool) (hasher : BlockHash) (allocator : α) : CacheState α :=
  ⟨.init disable pageSize enableKvCacheEvents hasher, allocator, []⟩

end CacheState

section
variable {c c' : RadixCache}

theorem RadixCache.delete_settings (c : RadixCache) (x : TreeNode) :
    (c.deleteLeaf x).disable = c.disable ∧ (c.deleteLeaf x).pageSize = c.pageSize := by
  rw [deleteLeaf_eq, leafStatus_eq]
  exact ⟨rfl, rfl⟩

theorem RadixTree.Grows.settings (grows : RadixTree.Grows c c') : c'.disable = c.disable ∧ c'.pageSize = c.pageSize := by
  cases grows with
  | steps steps => exact ⟨steps.disable, steps.pageSize⟩
  | leaf steps _ =>
    rw [RadixCache.addLeaf_eq]
    exact ⟨steps.disable, steps.pageSize⟩

theorem RadixTree.evict_settings {α : Type} [SlotAllocator α] (order : EvictionOrder) (wf : t.bare.Wf) (a : α) (numTokens : Nat) :
    (t.evict order a numTokens).2.1.disable = t.disable ∧ (t.evict order a numTokens).2.1.pageSize = t.pageSize :=
  (evict_rule_bare (fun (t' : RadixTree) (_ : α) => t'.disable = t.disable ∧ t'.pageSize = t.pageSize)
    (fun t' _ x _ _ same => by
      rw [evictLeaf_cache]
      exact ⟨(t'.delete_settings x).1.trans same.1, (t'.delete_settings x).2.trans same.2⟩) order numTokens wf ⟨rfl, rfl⟩).2

end

theorem RadixTree.init_wf (disable : Bool) (pageSize : Nat) (enableKvCacheEvents : Bool) (hasher : BlockHash) :
    (RadixTree.init disable pageSize enableKvCacheEvents hasher).Wf := by
  have none {n : TreeNode} : n ∈ (RadixTree.init disable pageSize enableKvCacheEvents hasher).nodes → False := nofun
  refine ⟨List.nodup_nil, fun _ lt => (none lt).elim, ⟨fun _ => 0, fun _ lt => (none lt).elim⟩,
    fun _ lt => (none lt).elim, fun _ lt => (none lt).elim, fun _ lt => (none lt).elim,
    fun _ lt => (none lt).elim, List.nodup_nil, fun id => ⟨fun lt => (by cases lt), ?_⟩, rfl, rfl⟩
  rintro ⟨⟨_, lt, _⟩, _⟩
  exact (none lt).elim

end TriaxialKV
