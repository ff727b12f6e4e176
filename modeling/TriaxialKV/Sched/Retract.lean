import TriaxialKV.Sched.DecodeMem

/-! # Decode after the memory check -/

namespace TriaxialKV
open List Tensor KVAllocator

variable {firstIter : Bool} {keepIndices kept popped stack : List Nat}

namespace ScheduleBatch
variable {order : EvictionOrder} {steps : Nat} {b b' b'' : ScheduleBatch}

structure Later (b b' : ScheduleBatch) : Prop where
  reqs : b'.reqs = b.reqs
  seqLens : b'.seqLens = b.seqLens
  treePage : b'.treeCache.pageSize = b.treeCache.pageSize
  page : b'.allocator.pageSize = b.allocator.pageSize
  capacity : b.allocator.capacity ≤ b'.allocator.capacity

theorem evictFromTree_later (order : EvictionOrder) (b : ScheduleBatch) (numTokens : Nat) : Later b (b.evictFromTreeCache order numTokens) := by
  obtain ⟨treePage, page, capacity⟩ := RadixCache.evictFromTree_invariant
    (fun c (a : KVAllocator) =>
      c.pageSize = b.treeCache.pageSize ∧ a.pageSize = b.allocator.pageSize ∧ b.allocator.capacity ≤ a.capacity)
    (by
      intro c a x inv
      obtain ⟨treePage, page, capacity⟩ := inv
      refine ⟨?_, (a.free_pageSize _).trans page, capacity.trans (a.free_capacity _)⟩
      rw [RadixCache.deleteLeaf_eq, RadixCache.leafStatus_eq]
      exact treePage)
    order numTokens ⟨rfl, rfl, le_refl _⟩
  exact ⟨rfl, rfl, treePage, page, capacity⟩

def newPages (pageSize : Nat) (reqs : List Req) : Nat := reqs.countP (fun r => r.kvCommittedLen % pageSize = 0)

theorem decodeMem_spec (order : EvictionOrder) (b : ScheduleBatch) (selectedIndices : Option (List Nat)) :
    Later b (b.checkDecodeMem order selectedIndices).2 ∧ ((b.checkDecodeMem order selectedIndices).1 = true →
      newPages b.allocator.pageSize (b.selected selectedIndices) ≤ (b.checkDecodeMem order selectedIndices).2.allocator.capacity) := by
  have later := evictFromTree_later order b (b.newTokensRequiredNextDecode selectedIndices)
  have tokens : b.newTokensRequiredNextDecode selectedIndices =
      newPages b.allocator.pageSize (b.selected selectedIndices) * b.allocator.pageSize := rfl
  have result : b.checkDecodeMem order selectedIndices =
      let e := b.evictFromTreeCache order (b.newTokensRequiredNextDecode selectedIndices)
      (decide (e.allocator.availableSizeInt4.getD e.allocator.availableSize ≥ b.newTokensRequiredNextDecode selectedIndices), e) := by
    unfold checkDecodeMem
    dsimp only
    split
    · next _ found => rw [found]; rfl
    · next none => rw [none]; rfl
  rw [result]
  refine ⟨later, fun passed => ?_⟩
  apply capacity_of_available
  rw [later.page, ← tokens]
  simpa using passed

theorem getNumNewPages_eq {pageSize : Nat} (large : 1 < pageSize) (reqs : List Req) :
    getNumNewPages ((reqs.map (·.kvCommittedLen)).map (· + 1)) pageSize = newPages pageSize reqs := by
  unfold getNumNewPages newPages
  rw [map_map, countP_map]
  refine countP_congr (fun r _ => ?_)
  simp only [Function.comp, decide_eq_true_eq]
  have bound := Nat.mod_lt r.kvCommittedLen (Nat.lt_of_succ_lt large)
  rw [Nat.add_mod, Nat.mod_eq_of_lt large]
  by_cases wraps : r.kvCommittedLen % pageSize + 1 = pageSize
  · rw [wraps, Nat.mod_self]
    omega
  · rw [Nat.mod_eq_of_lt (by omega)]
    omega

theorem newPages_one (reqs : List Req) : newPages 1 reqs = reqs.length := by
  simp [newPages, Nat.mod_one]

structure Ready (b : ScheduleBatch) : Prop where
  paired : b.treeCache.pageSize = b.allocator.pageSize
  lens : b.seqLens = b.reqs.map (·.kvCommittedLen)
  fits : newPages b.allocator.pageSize b.reqs ≤ b.allocator.capacity

theorem Ready.allocTokenSlots (ready : b.Ready) (order : EvictionOrder) (single : b.treeCache.pageSize = 1) :
    ∃ out, (b.allocTokenSlots order (b.seqLens.length * 1)).1 = .ok out := by
  have later := evictFromTree_later order b (b.seqLens.length * 1)
  have page := later.page.trans (ready.paired.symm.trans single)
  have fits := ready.fits
  rw [← ready.paired, single, newPages_one] at fits
  have enough : b.seqLens.length * 1 ≤ (b.evictFromTreeCache order (b.seqLens.length * 1)).allocator.capacity := by
    rw [mul_one, ready.lens, length_map] at *
    exact fits.trans later.capacity
  obtain ⟨out, taken⟩ := alloc_ok page enough
  refine ⟨out, ?_⟩
  unfold ScheduleBatch.allocTokenSlots
  dsimp only
  split
  · next found => rw [found] at taken; cases taken; rfl
  · next found => rw [found] at taken; cases taken

theorem Ready.allocPagedTokenSlotsDecode (ready : b.Ready) (order : EvictionOrder) (large : b.treeCache.pageSize ≠ 1)
    (lastLoc : List Nat) : ∃ out, (b.allocPagedTokenSlotsDecode order (b.seqLens.map (· + 1)) lastLoc 1).1 = .ok out := by
  have later := evictFromTree_later order b ((b.seqLens.map (· + 1)).length * b.allocator.pageSize)
  have page : (b.evictFromTreeCache order ((b.seqLens.map (· + 1)).length * b.allocator.pageSize)).allocator.pageSize ≠ 1 := by
    rw [later.page, ← ready.paired]
    exact large
  have pos := b.allocator.pageSize_pos
  have several : 1 < b.allocator.pageSize := by
    rw [ready.paired] at large
    omega
  obtain ⟨out, taken⟩ := allocDecode_ok page (b.seqLens.map (· + 1)) lastLoc (by
    rw [later.page, ready.lens, getNumNewPages_eq several]
    rw [ready.lens] at later
    exact ready.fits.trans later.capacity)
  refine ⟨out, ?_⟩
  unfold ScheduleBatch.allocPagedTokenSlotsDecode
  dsimp only
  split
  · next found => rw [found] at taken; cases taken
  · next found => rw [found] at taken; cases taken; rfl
  · next found => rw [found] at taken; cases taken

theorem Ready.allocForDecode (ready : b.Ready) (order : EvictionOrder) : ∃ out, (b.allocForDecode order 1).1 = .ok out := by
  unfold ScheduleBatch.allocForDecode
  dsimp only
  split
  · next _ rest failed =>
    exfalso
    split at failed
    · next single =>
      obtain ⟨out, taken⟩ := ready.allocTokenSlots order single
      rw [failed] at taken
      cases taken
    · next large =>
      obtain ⟨out, taken⟩ := ready.allocPagedTokenSlotsDecode order large _
      rw [failed] at taken
      cases taken
  · next out rest _ => exact ⟨out, rfl⟩

structure Keeps (kept : List Nat) (b b' : ScheduleBatch) : Prop where
  reqs : ∀ i ∈ kept, b'.reqs[i]! = b.reqs[i]!
  length : b'.reqs.length = b.reqs.length
  seqLens : b'.seqLens = b.seqLens
  treePage : b'.treeCache.pageSize = b.treeCache.pageSize
  page : b'.allocator.pageSize = b.allocator.pageSize

theorem Later.keeps (later : Later b b') (kept : List Nat) : Keeps kept b b' := by
  refine ⟨fun i _ => ?_, ?_, later.seqLens, later.treePage, later.page⟩
  · rw [later.reqs]
  · rw [later.reqs]

theorem Keeps.trans (first : Keeps kept b b') (second : Keeps kept b' b'') : Keeps kept b b'' :=
  ⟨fun i mem => (second.reqs i mem).trans (first.reqs i mem), second.length.trans first.length,
    second.seqLens.trans first.seqLens, second.treePage.trans first.treePage, second.page.trans first.page⟩

theorem Keeps.mono {fewer : List Nat} (keeps : Keeps kept b b') (sub : ∀ i ∈ fewer, i ∈ kept) : Keeps fewer b b' :=
  { keeps with reqs := fun i mem => keeps.reqs i (sub i mem) }

theorem Keeps.gather (keeps : Keeps kept b b') : gather b'.reqs kept = gather b.reqs kept := map_congr_left keeps.reqs

theorem cacheFinished_keeps (b : ScheduleBatch) (r : Req) (reqPoolIdx : Nat) (kept : List Nat) :
    Keeps kept b (b.cacheFinishedReq r reqPoolIdx) := by
  unfold cacheFinishedReq
  split
  · exact ⟨fun _ _ => rfl, rfl, rfl, rfl, KVAllocator.free_pageSize _ _⟩
  · exact ⟨fun _ _ => rfl, rfl, rfl, (b.treeCache.decLock_settings r.lastNode).2,
      (KVAllocator.free_pageSize _ _).trans (KVAllocator.free_pageSize _ _)⟩

theorem releaseKvCache_keeps {r : Req} (released : b.releaseKvCache r = .ok b') (kept : List Nat) : Keeps kept b b' := by
  unfold releaseKvCache at released
  split at released
  · cases released
  · next reqPoolIdx _ =>
    split at released
    · cases released
      obtain ⟨reqs, length, seqLens, treePage, page⟩ := cacheFinished_keeps b r reqPoolIdx kept
      exact ⟨reqs, length, seqLens, treePage, page⟩
    · cases released

theorem releaseReq_keeps {idx remaining : Nat} (released : b.releaseReq order steps idx remaining = .ok b')
    (dropped : idx ∉ kept) : Keeps kept b b' := by
  unfold releaseReq at released
  cases first : b.releaseKvCache b.reqs[idx]! with
  | error message => rw [first] at released; cases released
  | ok freed =>
    rw [first] at released
    cases released
    have keeps := (releaseKvCache_keeps first kept).trans
      ((evictFromTree_later order freed (remaining * steps)).keeps kept)
    obtain ⟨reqs, length, seqLens, treePage, page⟩ := keeps
    refine ⟨fun i mem => ?_, by rw [length_set]; exact length, seqLens, treePage, page⟩
    have other : idx ≠ i := fun same => dropped (same ▸ mem)
    rw [← reqs i mem, getElem!_eq_getElem?_getD, getElem?_set_ne other, ← getElem!_eq_getElem?_getD]

structure Retracts (stack : List Nat) (b : ScheduleBatch) (stack' popped : List Nat) (b' : ScheduleBatch) : Prop where
  split : stack = popped ++ stack'
  kept : stack' ≠ []
  keeps : Keeps stack' b b'
  fits : 2 ≤ stack'.length → newPages b'.allocator.pageSize (gather b'.reqs stack'.reverse) ≤ b'.allocator.capacity

theorem loopCheck_spec {fits : Bool} {indices : List Nat}
    (check : (if firstIter then (false, b) else b.checkDecodeMem order (some indices)) = (fits, b')) :
    Later b b' ∧ (fits = true → firstIter = false ∧ newPages b'.allocator.pageSize (gather b'.reqs indices) ≤ b'.allocator.capacity) := by
  split at check
  · cases check
    exact ⟨⟨rfl, rfl, rfl, rfl, le_refl _⟩, nofun⟩
  · next notFirst =>
    obtain ⟨later, promise⟩ := decodeMem_spec order b (some indices)
    rw [check] at later promise
    refine ⟨later, fun passed => ⟨by simpa using notFirst, ?_⟩⟩
    rw [later.page, later.reqs]
    exact promise passed

theorem loop_retracts {retracted stack' retracted' : List Nat} (nodup : stack.Nodup)
    (done : retractLoop order steps firstIter stack retracted b = .ok (stack', retracted', b')) :
    ∃ popped, retracted' = retracted ++ popped ∧ Retracts stack b stack' popped b' ∧ (firstIter = true → 2 ≤ stack.length → popped ≠ []) := by
  induction stack generalizing firstIter retracted b with
  | nil => cases done
  | cons idx stack ih =>
    obtain ⟨fresh, nodup⟩ := nodup_cons.mp nodup
    unfold retractLoop at done
    generalize check : (if firstIter then (false, b) else b.checkDecodeMem order (some (idx :: stack).reverse)) = result at done
    obtain ⟨_, _⟩ := result
    obtain ⟨later, promise⟩ := loopCheck_spec check
    dsimp only at done
    split at done
    · next passed =>
      cases done
      obtain ⟨notFirst, fit⟩ := promise passed
      refine ⟨[], by simp, ⟨rfl, by simp, later.keeps _, fun _ => fit⟩, ?_⟩
      rw [notFirst]
      exact nofun
    · split at done
      · next last =>
        cases done
        subst last
        refine ⟨[], by simp, ⟨rfl, by simp, later.keeps _, fun many => ?_⟩, fun _ many => ?_⟩
        · simp at many
        · simp at many
      · next _ =>
        split at done
        · cases done
        · next _ released =>
          obtain ⟨popped, retracts, rest, _⟩ := ih nodup done
          have inner : ∀ i ∈ stack', i ∈ stack := fun i mem => by rw [rest.split]; simp [mem]
          have keeps := (later.keeps stack).trans (releaseReq_keeps released fresh)
          refine ⟨idx :: popped, by rw [retracts]; simp, ⟨?_, rest.kept, (keeps.mono inner).trans rest.keeps, rest.fits⟩, ?_⟩
          · rw [rest.split, cons_append]
          · intro _ _
            exact cons_ne_nil _ _

theorem filterBatch_reqs (whole : keepIndices.length = b.reqs.length → gather b.reqs keepIndices = b.reqs) :
    (b.filterBatch keepIndices).reqs = gather b.reqs keepIndices := by
  unfold filterBatch
  split
  · next none => rw [none]; rfl
  · split
    · next all => exact (whole all).symm
    · rfl

theorem filterBatch_seqLens (some : keepIndices ≠ []) (whole : keepIndices.length = b.reqs.length → gather b.seqLens keepIndices = b.seqLens) :
    (b.filterBatch keepIndices).seqLens = gather b.seqLens keepIndices := by
  unfold filterBatch
  rw [if_neg some]
  split
  · next all => exact (whole all).symm
  · rfl

theorem filterBatch_settings (b : ScheduleBatch) (keepIndices : List Nat) :
    (b.filterBatch keepIndices).treeCache = b.treeCache ∧ (b.filterBatch keepIndices).allocator = b.allocator := by
  unfold filterBatch
  split
  · exact ⟨rfl, rfl⟩
  · split <;> exact ⟨rfl, rfl⟩

theorem sorted_perm (b : ScheduleBatch) : b.sortedIndices.Perm (range b.reqs.length) := perm_insertionSort _ _

theorem retractDecode_cases {R : Rounding} {res : Retraction} (done : b.retractDecode order R steps = .ok res) :
    ∃ stack b₁, Retracts b.sortedIndices.reverse b stack res.retracted b₁ ∧ (2 ≤ b.reqs.length → res.retracted ≠ []) ∧
      ((∃ b₂, Later b₁ b₂ ∧ newPages b₂.allocator.pageSize (gather b₂.reqs stack.reverse) ≤ b₂.allocator.capacity ∧
          res.aborted = [] ∧ res.batch = b₂.filterBatch stack.reverse) ∨
        (∃ last, stack = [last] ∧ res.aborted = [last] ∧ res.batch.reqs = [])) := by
  have sorted := b.sorted_perm
  have nodup : b.sortedIndices.reverse.Nodup := nodup_reverse.mpr (sorted.nodup_iff.mpr nodup_range)
  unfold retractDecode at done
  cases loop : retractLoop order steps true b.sortedIndices.reverse [] b with
  | error message => rw [loop] at done; cases done
  | ok result =>
    obtain ⟨stack, _, b₁⟩ := result
    rw [loop] at done
    obtain ⟨_, same, retracts, first⟩ := loop_retracts nodup loop
    rw [nil_append] at same
    subst same
    rw [length_reverse, sorted.length_eq, length_range] at first
    dsimp only [bind, Except.bind] at done
    generalize check : (if stack.length ≤ 1 then b₁.checkDecodeMem order (some stack.reverse) else (true, b₁)) = result at done
    obtain ⟨_, b₂⟩ := result
    split at done
    · next passed =>
      cases done
      refine ⟨stack, b₁, retracts, first rfl, .inl ⟨b₂, ?_⟩⟩
      split at check
      · obtain ⟨later, promise⟩ := decodeMem_spec order b₁ (some stack.reverse)
        rw [check] at later promise
        refine ⟨later, ?_, rfl, rfl⟩
        rw [later.page, later.reqs]
        exact promise passed
      · next many =>
        cases check
        exact ⟨⟨rfl, rfl, rfl, rfl, le_refl _⟩, retracts.fits (by omega), rfl, rfl⟩
    · next failed =>
      have short : stack.length ≤ 1 := by
        by_contra many
        rw [if_neg many] at check
        cases check
        exact failed rfl
      cases stack with
      | nil => exact absurd rfl retracts.kept
      | cons last stack =>
        have only : stack = [] := eq_nil_of_length_eq_zero (by simpa using short)
        subst only
        dsimp only at done
        cases released : b₂.releaseReq order steps last 0 with
        | error message => rw [released] at done; cases done
        | ok b₃ =>
          rw [released] at done
          cases done
          exact ⟨[last], b₁, retracts, first rfl, .inr ⟨last, rfl, rfl, rfl⟩⟩

theorem Retracts.whole (retracts : Retracts b.sortedIndices.reverse b stack popped b')
    (first : 2 ≤ b.reqs.length → popped ≠ []) (all : stack.length = b.reqs.length) :
    stack.reverse = range b.reqs.length := by
  have sorted := b.sorted_perm
  have total := congrArg List.length retracts.split
  rw [length_append, length_reverse, sorted.length_eq, length_range] at total
  have none : popped = [] := eq_nil_of_length_eq_zero (by omega)
  have one : b.reqs.length = 1 := by
    have := length_pos_iff.mpr retracts.kept
    by_contra several
    exact first (by omega) none
  have stack_eq : stack = b.sortedIndices.reverse := by rw [retracts.split, none, nil_append]
  rw [stack_eq, reverse_reverse]
  rw [one] at sorted ⊢
  exact perm_singleton.mp sorted

theorem gather_map_of_lt {reqs : List Req} (lt : ∀ i ∈ kept, i < reqs.length) :
    gather (reqs.map (·.kvCommittedLen)) kept = (gather reqs kept).map (·.kvCommittedLen) := by
  unfold gather
  rw [map_map]
  refine map_congr_left (fun i mem => ?_)
  have bound := lt i mem
  rw [getElem!_pos _ i (by simpa using bound), getElem_map, Function.comp, getElem!_pos reqs i bound]

theorem Retracts.ready (retracts : Retracts b.sortedIndices.reverse b stack popped b')
    (first : 2 ≤ b.reqs.length → popped ≠ []) (paired : b.treeCache.pageSize = b.allocator.pageSize)
    (lens : b.seqLens = b.reqs.map (·.kvCommittedLen)) (later : Later b' b'')
    (fits : newPages b''.allocator.pageSize (gather b''.reqs stack.reverse) ≤ b''.allocator.capacity) :
    (b''.filterBatch stack.reverse).reqs = gather b.reqs stack.reverse ∧ (b''.filterBatch stack.reverse).Ready := by
  obtain ⟨tree, allocator⟩ := b''.filterBatch_settings stack.reverse
  have keeps : Keeps stack.reverse b b'' := (retracts.keeps.trans (later.keeps _)).mono (by simp)
  have lt : ∀ i ∈ stack.reverse, i < b.reqs.length := fun i mem => by
    have sorted : i ∈ b.sortedIndices.reverse := by
      rw [retracts.split]
      exact mem_append_right _ (mem_reverse.mp mem)
    exact mem_range.mp (b.sorted_perm.mem_iff.mp (mem_reverse.mp sorted))
  have whole : stack.reverse.length = b''.reqs.length → stack.reverse = range b.reqs.length := fun all =>
    retracts.whole first (by rwa [length_reverse, keeps.length] at all)
  have reqs : (b''.filterBatch stack.reverse).reqs = gather b''.reqs stack.reverse :=
    filterBatch_reqs (fun all => by rw [whole all, ← keeps.length, gather_range])
  have seqLens : (b''.filterBatch stack.reverse).seqLens = gather b''.seqLens stack.reverse := by
    refine filterBatch_seqLens (by simpa using retracts.kept) (fun all => ?_)
    have length : b''.seqLens.length = b.reqs.length := by rw [keeps.seqLens, lens, length_map]
    rw [whole all, ← length, gather_range]
  refine ⟨reqs.trans keeps.gather, ?_, ?_, ?_⟩
  · rw [tree, allocator, keeps.treePage, keeps.page, paired]
  · rw [seqLens, reqs, keeps.gather, keeps.seqLens, lens, gather_map_of_lt lt]
  · rwa [allocator, reqs]

/-- After a check that passed, or a retraction that left requests, the decode step gets its slots; a retraction keeps, retracts or aborts each
request. -/
theorem decode_after_check (order : EvictionOrder) (R : Rounding) (steps : Nat) (b : ScheduleBatch)
    (paired : b.treeCache.pageSize = b.allocator.pageSize) (lens : b.seqLens = b.reqs.map (·.kvCommittedLen)) :
    (∀ b', b.checkDecodeMem order none = (true, b') → ∃ out, (b'.allocForDecode order 1).1 = .ok out) ∧
    (∀ res, b.retractDecode order R steps = .ok res → (∃ kept, res.batch.reqs = gather b.reqs kept ∧
        (kept ++ res.retracted ++ res.aborted).Perm (List.range b.reqs.length)) ∧
      (res.batch.reqs ≠ [] → ∃ out, (res.batch.allocForDecode order 1).1 = .ok out)) := by
  refine ⟨fun b' passed => ?_, fun res done => ?_⟩
  · obtain ⟨later, promise⟩ := decodeMem_spec order b none
    rw [passed] at later promise
    refine Ready.allocForDecode ⟨?_, ?_, ?_⟩ order
    · rw [later.treePage, later.page, paired]
    · rw [later.seqLens, later.reqs, lens]
    · rw [later.page, later.reqs]
      exact promise rfl
  · obtain ⟨stack, _, retracts, first, outcome⟩ := retractDecode_cases done
    have parts : (res.retracted ++ stack).Perm (range b.reqs.length) := by
      rw [← retracts.split]
      exact (reverse_perm _).trans b.sorted_perm
    obtain ⟨_, later, fits, aborted, batch⟩ | ⟨_, only, aborted, empty⟩ := outcome
    · obtain ⟨reqs, ready⟩ := retracts.ready first paired lens later fits
      rw [← batch] at reqs ready
      refine ⟨⟨stack.reverse, reqs, ?_⟩, fun _ => ready.allocForDecode order⟩
      rw [aborted, append_nil]
      exact ((reverse_perm stack).append_right _).trans (perm_append_comm.trans parts)
    · refine ⟨⟨[], empty, ?_⟩, fun left => absurd empty left⟩
      rw [aborted, nil_append, ← only]
      exact parts

namespace DecodeExample

def batch : ScheduleBatch where
  reqs := [⟨none, 2, 0, 0, 0, 4, false, 0, some 0, 0, 2, 2, 0⟩, ⟨none, 1, 1, 0, 0, 4, false, 0, some 1, 0, 2, 2, 0⟩]
  reqPoolIndices := [0, 1]
  seqLens := [2, 2]
  treeCache := ⟨false, 2, [], [], 0, 0⟩
  allocator := .paged ⟨⟨2, true, [], [], true, [], fun _ => rfl⟩, by decide⟩
  reqToTokenPool := ⟨[]⟩
  reqToToken row column := 2 * (row + 1) + column

end DecodeExample

open DecodeExample in
theorem decode_after_check_retracts : ∃ res, batch.retractDecode (.ofStrategy .lru) .none 20 = .ok res ∧
    res.retracted = [0] ∧ res.batch.reqs.length = 1 ∧ ∃ out, (res.batch.allocForDecode (.ofStrategy .lru) 1).1 = .ok out := by
  have shape : (batch.retractDecode (.ofStrategy .lru) .none 20).toOption.map (fun res => (res.retracted, res.batch.reqs.length)) =
      some ([0], 1) := by
    decide +kernel
  cases done : batch.retractDecode (.ofStrategy .lru) .none 20 with
  | error message => rw [done] at shape; cases shape
  | ok res =>
    rw [done] at shape
    obtain ⟨retracted, one⟩ := Prod.mk.inj (Option.some.inj shape)
    have left : res.batch.reqs ≠ [] := ne_nil_of_length_pos (one ▸ Nat.one_pos)
    exact ⟨res, rfl, retracted, one, ((decode_after_check (.ofStrategy .lru) .none 20 batch rfl rfl).2 res done).2 left⟩

end ScheduleBatch

end TriaxialKV
