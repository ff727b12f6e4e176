import TriaxialKV.Cache.Evict

/-! # Accounting and the idle leak check -/

namespace TriaxialKV
open List Runs

def TriaxialKVPool.size (pool : TriaxialKVPool) : Nat := pool.usableInt2 + pool.usableInt4

/-- `_check_radix_cache_memory`: whether slots have leaked, and the figures. -/
def checkRadixCacheMemory {α : Type} [SlotAllocator α] (c : RadixCache) (a : α) (maxTotalNumTokens sessionHeld : Int) : Bool × String :=
  let availableSize := SlotAllocator.availableSize a
  let evictableSize := c.evictableSize
  let protectedSize := c.protectedSize
  let memoryLeak := availableSize + evictableSize != maxTotalNumTokens - protectedSize - sessionHeld
  (memoryLeak, "self.max_total_num_tokens=" ++ toString maxTotalNumTokens ++ ", available_size=" ++
    toString availableSize ++ ", evictable_size=" ++ toString evictableSize ++ ", protected_size=" ++
    toString protectedSize ++ ", session_held=" ++ toString sessionHeld ++ "\n")

theorem length_slots (pool : TriaxialKVPool) : pool.slots.length = pool.size := by
  simp [TriaxialKVPool.slots, TriaxialKVPool.size, TriaxialKVPool.usableInt2]

theorem sum_indicator (x n : Nat) : ((range n).map (fun page => if x == page then 1 else 0)).sum = if x < n then 1 else 0 := by
  induction n with
  | zero => rfl
  | succ n ih =>
    rw [range_succ, map_append, sum_append, ih]
    simp only [map_cons, map_nil, sum_cons, sum_nil, beq_iff_eq]
    split <;> split <;> split <;> omega

theorem sum_countP_page {n : Nat} {xs : List Nat} (lt : ∀ slot ∈ xs, slot / 32 < n) :
    ((range n).map (fun page => xs.countP (fun slot => slot / 32 == page))).sum = xs.length := by
  induction xs with
  | nil => simp
  | cons slot xs ih =>
    have rest := ih (fun s mem => lt s (mem_cons_of_mem _ mem))
    have here := lt slot mem_cons_self
    simp only [countP_cons, length_cons]
    rw [sum_map_add, rest, sum_indicator, if_pos here]

namespace Usage

theorem Inv.size {s : Usage} (inv : s.Inv) : s.alloc.availableSize + s.away.length = s.alloc.pool.size := by
  have length := inv.all.length_eq
  rw [length_slots, length_append, length_append, length_append, TriaxialAllocator.length_flatSlots] at length
  rw [TriaxialAllocator.availableSize, inv.counters.total]
  omega

theorem Inv.partialSlots {s : Usage} (inv : s.Inv) : s.alloc.partialSlots = ((range s.alloc.pool.numPages2).map s.alloc.pageFreeCnt).sum := by
  have lt : ∀ slot ∈ s.parked, slot / 32 < s.alloc.pool.numPages2 := by
    intro slot mem
    have low := (mem_parked.mp mem).2.1
    rw [TriaxialKVPool.offset] at low
    omega
  rw [inv.counters.total, ← sum_countP_page lt]
  congr 3
  funext page
  exact (inv.counters.counted page).symm

def GroupFree : Op → Prop
  | .freeGroupBegin | .freeGroupEnd => False
  | _ => True

instance : (op : Op) → Decidable (GroupFree op)
  | .freeGroupBegin | .freeGroupEnd => .isFalse id
  | .alloc _ | .allocDecode _ | .allocMixed _ _ | .free _ => .isTrue trivial

theorem groupFree_bracketed (s : Usage) (op : Op) (groupFree : GroupFree op) : s.Bracketed op := by
  cases op with
  | freeGroupBegin => cases groupFree
  | alloc | allocDecode | allocMixed | free | freeGroupEnd => trivial

theorem groupFree_away {pool : TriaxialKVPool} {s : Usage}
    (reachable : Reachable step (fun s op => s.Promised op ∧ GroupFree op) (start pool) s) : s.away = s.handedOut := by
  have lost := reachable_lost (reachable.weaken (fun s op allowed => ⟨allowed.1, groupFree_bracketed s op allowed.2⟩))
  have closed : s.alloc.isNotInFreeGroup = true := by
    refine reachable.invariant (fun s => s.alloc.isNotInFreeGroup = true) rfl ?_
    rintro s op closed ⟨promised, groupFree⟩
    cases op with
    | alloc needSize => exact (s.alloc.alloc_draws needSize).group.1.trans closed
    | allocDecode bs => exact (s.alloc.alloc_draws bs).group.1.trans closed
    | allocMixed bits reqLens => exact (s.alloc.allocMixed_draws promised).group.1.trans closed
    | free freeIndex =>
      simp only [step, TriaxialAllocator.free, TriaxialAllocator.release_eq, closed]
      split <;> [exact closed; rfl]
    | freeGroupBegin | freeGroupEnd => cases groupFree
  simp [away, waiting, closed, lost]

/-- The accounts are exact in every run without groups, and the leak check is silent for a tree that holds the slots in use. -/
theorem accounting_exact (pool : TriaxialKVPool) (s : Usage) (reachable : Reachable step (fun s op => s.Promised op ∧ GroupFree op) (start pool) s) :
    s.alloc.partialSlots = ((List.range pool.numPages2).map s.alloc.pageFreeCnt).sum ∧ 0 ≤ s.alloc.partialSlots ∧
      s.alloc.availableSize + s.handedOut.length = pool.usableInt2 + pool.usableInt4 ∧
      ∀ c : RadixCache, c.Wf → (c.nodes.flatMap (fun n => n.value)).Perm s.handedOut →
        (checkRadixCacheMemory c s.alloc (pool.usableInt2 + pool.usableInt4) 0).1 = false := by
  obtain ⟨invariant, rfl⟩ := reachable_inv (reachable.weaken (fun _ _ allowed => allowed.1))
  have total := invariant.size
  rw [groupFree_away reachable] at total
  have total : s.alloc.availableSize + s.handedOut.length = s.alloc.pool.usableInt2 + s.alloc.pool.usableInt4 := total
  refine ⟨invariant.partialSlots, ?_, total, ?_⟩
  · rw [invariant.counters.total]
    omega
  · intro c wf owns
    have held := c.evictable_add_protected wf
    have length := owns.length_eq
    rw [length_flatMap, ← RadixCache.totalSize] at length
    simp only [checkRadixCacheMemory, SlotAllocator.availableSize, bne_eq_false_iff_eq]
    omega

/-- A page and an INT4 slot are taken, and one slot of the page comes back. -/
theorem accounting_exact_parked : let s := [Op.allocMixed (List.replicate 33 2) [33], .free [32]].foldl step (start ⟨1, 1⟩)
    s.alloc.partialSlots = 1 ∧ s.handedOut.length = 32 ∧ s.alloc.availableSize + s.handedOut.length = 33 := by
  intro s
  have reachable : Reachable step (fun s op => s.Promised op ∧ GroupFree op) (start ⟨1, 1⟩) s := Guarded.reachable .start (by decide +kernel)
  have exact := accounting_exact ⟨1, 1⟩ s reachable
  exact ⟨by decide +kernel, by decide +kernel, exact.2.2.1⟩

end Usage

end TriaxialKV
