import TriaxialKV.Cache.PrefixCache

/-! # What an eviction removes -/

namespace TriaxialKV
open List RadixCache Function

def EvictionStrategy.Before (strategy : EvictionStrategy) (x y : TreeNode) : Prop :=
  (strategy.getPriority x).1 < (strategy.getPriority y).1 ∨
    (strategy.getPriority x).1 = (strategy.getPriority y).1 ∧ (strategy.getPriority x).2 ≤ (strategy.getPriority y).2

/-- The next of a heap is no later than any of its nodes, whichever of equal priorities it is. -/
def EvictionOrder.Follows (order : EvictionOrder) (strategy : EvictionStrategy) : Prop :=
  ∀ (c : RadixCache) (heap : List Nat) (x y : TreeNode), c.node? (order.next c heap) = some x → y.id ∈ heap → c.node? y.id = some y →
    strategy.Before x y

/-- The heap of the source: equal priorities are told apart by the node's number. -/
theorem EvictionOrder.ofStrategy_follows (strategy : EvictionStrategy) : (EvictionOrder.ofStrategy strategy).Follows strategy := by
  intro c heap x y found listed here
  cases heap with
  | nil => cases listed
  | cons first rest =>
    have least := EvictionOrder.first_le (EvictionOrder.heapLe_total strategy c) (EvictionOrder.heapLe_trans strategy c) first rest _ listed
    change c.node? (EvictionOrder.first _ first rest) = some x at found
    simp only [EvictionOrder.heapLe, found, here, Option.map_some, Option.getD_some, decide_eq_true_eq] at least
    unfold EvictionStrategy.Before
    omega

namespace RadixCache

/-- Unlocked leaves leave one by one, each before all others of that moment. -/
inductive Evicts (strategy : EvictionStrategy) (c : RadixCache) : List TreeNode → RadixCache → Prop where
  | nil : Evicts strategy c [] c
  | snoc {c' : RadixCache} {removed : List TreeNode} {x : TreeNode} : Evicts strategy c removed c' → c'.IsLeaf x →
      (∀ y, c'.IsLeaf y → strategy.Before x y) → Evicts strategy c (removed ++ [x]) (c'.deleteLeaf x)

theorem next_before {order : EvictionOrder} {strategy : EvictionStrategy} (follows : order.Follows strategy) {c : RadixCache} (wf : c.Wf)
    {x y : TreeNode} (found : c.node? (order.next c c.evictableLeaves) = some x) (leaf : c.IsLeaf y) : strategy.Before x y := by
  have listed : y.id ∈ c.evictableLeaves := by
    refine (wf.leaves y.id).mpr ⟨⟨y, leaf.member, rfl⟩, ?_, leaf.last⟩
    rw [lockRef_of_mem wf leaf.member, leaf.unlocked]
    exact Int.lt_irrefl 0
  exact follows c _ x y found listed (node?_of_mem wf.ids leaf.member)

variable {α : Type} [SlotAllocator α]

/-- `result` is `c` and `a` without the nodes `removed`, the last of them taken while tokens were still wanted. -/
structure Removes (strategy : EvictionStrategy) (numTokens : Nat) (c : RadixCache) (a : α) (removed : List TreeNode)
    (result : Nat × RadixCache × α) : Prop where
  each : Evicts strategy c removed result.2.1
  nodes : c.nodes.Perm (removed ++ result.2.1.nodes)
  freed : result.2.2 = removed.foldl (fun a x => SlotAllocator.free a x.value) a
  count : result.1 = (removed.map (·.value.length)).sum
  wanted : removed ≠ [] → (removed.dropLast.map (·.value.length)).sum < numTokens

theorem rounds_removes {order : EvictionOrder} {strategy : EvictionStrategy} (follows : order.Follows strategy) (numTokens : Nat)
    {c : RadixCache} (wf : c.Wf) (a : α) (k : Nat)
    (running : ∀ j < k, ((evictOne order)^[j] (0, c, a)).1 < numTokens ∧ ((evictOne order)^[j] (0, c, a)).2.1.evictableLeaves ≠ []) :
    ∃ removed, Removes strategy numTokens c a removed ((evictOne order)^[k] (0, c, a)) := by
  induction k with
  | zero => exact ⟨[], .nil, .refl _, rfl, rfl, fun some => absurd rfl some⟩
  | succ k ih =>
    obtain ⟨removed, each, nodes, freed, count, _⟩ := ih (fun j less => running j (by omega))
    have wf' := rounds_wf order (s := (0, c, a)) wf k
    obtain ⟨less, some⟩ := running k (Nat.lt_succ_self k)
    rw [iterate_succ_apply']
    generalize (evictOne order)^[k] (0, c, a) = state at *
    obtain ⟨numEvicted, _, a'⟩ := state
    obtain ⟨x, leaf, found, _, round⟩ := evictOne_cases order wf' numEvicted a' some
    rw [round]
    refine ⟨removed ++ [x], .snoc each leaf (fun y => next_before follows wf' found), ?_, ?_, ?_, ?_⟩
    · refine nodes.trans (((nodes_perm wf'.ids leaf.member).append_left removed).trans ?_)
      rw [nodes_delete, append_assoc, singleton_append]
    · rw [foldl_append, ← freed]
      rfl
    · rw [map_append, sum_append, ← count]
      simp
    · intro _
      rw [dropLast_concat, ← count]
      exact less

end RadixCache

namespace RadixTree
variable {α : Type} [SlotAllocator α]

theorem evictLoop_cache (order : EvictionOrder) (numTokens fuel numEvicted : Nat) (heap : List Nat) (t : RadixTree) (a : α) :
    let r := evictLoop order numTokens fuel numEvicted heap t a
    (r.1, r.2.1.toRadixCache, r.2.2) = RadixCache.evictLoop order numTokens fuel numEvicted heap t.toRadixCache a := by
  induction fuel generalizing numEvicted heap t a with
  | zero => rfl
  | succ fuel ih =>
    simp only [evictLoop, RadixCache.evictLoop]
    split
    · cases t.node? (order.next t.toRadixCache heap) with
      | none => rfl
      | some x =>
        refine (ih _ _ _ _).trans ?_
        rw [removeEvent_cache]
    · rfl

end RadixTree

/-- An eviction removes unlocked leaves in the order of the strategy until it has freed what was asked for or all that can be freed. -/
theorem Tracked.evict_contract {α : Type} [SlotAllocator α] {pageSize : Nat} (positive : 0 < pageSize) (disable enableKvCacheEvents : Bool)
    (hasher : BlockHash) (allocator : α) {s : Tracked α pageSize}
    (reachable : Runs.Reachable step guard (start disable pageSize enableKvCacheEvents hasher allocator) s) {strategy : EvictionStrategy}
    {order : EvictionOrder} (follows : order.Follows strategy) (numTokens : Nat) :
    let r := s.cache.tree.evict order s.cache.allocator numTokens
    min (numTokens : Int) s.cache.tree.evictableSize ≤ r.1 ∧
      ∃ removed, Removes strategy numTokens s.cache.tree.toRadixCache s.cache.allocator removed (r.1, r.2.1.toRadixCache, r.2.2) := by
  have inv : s.Inv disable := reachable.invariant _ (.start disable pageSize enableKvCacheEvents hasher allocator)
    (fun _ op before allowed => step_inv positive op before allowed)
  cases off : s.cache.tree.disable with
  | true =>
    have none := inv.cache.idle (inv.cache.setting.symm.trans off)
    have empty : s.cache.tree.evictableSize = 0 := by
      rw [inv.wf.evictable, none]
      rfl
    rw [RadixTree.evict, if_pos off, empty]
    exact ⟨by omega, [], .nil, .refl _, rfl, rfl, fun some => absurd rfl some⟩
  | false =>
    obtain ⟨k, result, stops⟩ := evict_stops order inv.wf off s.cache.allocator numTokens
    have same := RadixTree.evictLoop_cache order numTokens s.cache.tree.nodes.length 0 s.cache.tree.evictableLeaves s.cache.tree
      s.cache.allocator
    rw [RadixCache.evict, if_neg (by simp [off])] at result
    rw [RadixTree.evict, if_neg (by simp [off])]
    dsimp only at same ⊢
    have first := congrArg Prod.fst (same.trans result)
    rw [same.trans result]
    refine ⟨?_, rounds_removes follows numTokens inv.wf _ k stops.running⟩
    have size := (rounds_size order (s := (0, s.cache.tree.toRadixCache, s.cache.allocator)) inv.wf k).1
    dsimp only at first size
    rw [first]
    rcases stops.stop with reached | none
    · exact (min_le_left _ _).trans (Int.ofNat_le.mpr reached)
    · rw [evictableSize_no_leaves (rounds_wf order (s := (0, _, s.cache.allocator)) inv.wf k) none] at size
      exact (min_le_right _ _).trans (by omega)

/-- The keys `[1, 2]` and `[1, 3]` share a parent, which is a leaf once both of its children are gone. -/
theorem Tracked.evict_contract_parent :
    let s := ((start false 1 false ⟨fun _ _ => 0, fun _ => 0⟩ (.token (.clear 8 false)) : Tracked KVAllocator 1).step
      (.insert (fun _ => 0) ⟨[1, 2], none⟩ none none false)).step (.insert (fun _ => 1) ⟨[1, 3], none⟩ none none false)
    let r := s.cache.tree.evict (.ofStrategy .lru) s.cache.allocator 3
    s.cache.tree.nodes.length = 3 ∧ r.2.1.nodes = [] ∧ min 3 s.cache.tree.evictableSize ≤ (r.1 : Int) ∧
      ∃ removed, Removes .lru 3 s.cache.tree.toRadixCache s.cache.allocator removed (r.1, r.2.1.toRadixCache, r.2.2) := by
  intro s r
  have reachable : Runs.Reachable step guard _ s := .step (.step .start ⟨trivial, Nat.one_dvd _, rfl⟩) ⟨trivial, Nat.one_dvd _, rfl⟩
  refine ⟨by decide +kernel, by decide +kernel, ?_⟩
  exact evict_contract Nat.one_pos _ _ _ _ reachable (EvictionOrder.ofStrategy_follows .lru) 3

end TriaxialKV
