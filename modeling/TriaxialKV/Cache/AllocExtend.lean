import TriaxialKV.Cache.Evict

/-! # Slots for a prefill batch -/

namespace TriaxialKV
variable {bits reqLens : List Nat} {c : RadixCache} {s : Nat × RadixCache × TriaxialAllocator}

structure ExtendReq where
  triaxialBits : Option (List Nat)
  prefixLen : Nat
  extendLen : Nat
  deriving DecidableEq

namespace ExtendReq

/-- The bit widths of the new tokens. Positions past the tagged prompt are INT4. -/
def segBits (r : ExtendReq) : List Nat :=
  match r.triaxialBits with
  | none => List.replicate r.extendLen 4
  | some bits =>
    let seg := (bits.drop r.prefixLen).take r.extendLen
    if seg.length < r.extendLen then seg ++ List.replicate (r.extendLen - seg.length) 4 else seg

@[simp] theorem length_segBits (r : ExtendReq) : r.segBits.length = r.extendLen := by
  unfold segBits
  split
  · simp
  · dsimp only
    split
    · rw [List.length_append, List.length_replicate]
      omega
    · have := List.length_take_le r.extendLen (List.drop r.prefixLen ‹List Nat›)
      omega

end ExtendReq

def extendNumTokens (reqs : List ExtendReq) : Nat := (reqs.map (·.extendLen)).sum

def bitsFlat (reqs : List ExtendReq) : List Nat := reqs.flatMap (·.segBits)

def extendLens (reqs : List ExtendReq) : List Nat := reqs.map (·.extendLen)

theorem length_bitsFlat (reqs : List ExtendReq) : (bitsFlat reqs).length = extendNumTokens reqs := by
  simp [bitsFlat, extendNumTokens, List.length_flatMap]

theorem sum_extendLens (reqs : List ExtendReq) : (extendLens reqs).sum = (bitsFlat reqs).length := by
  rw [length_bitsFlat]
  rfl

namespace TriaxialAllocator

def debugPrint (a : TriaxialAllocator) : String :=
  "int2_free_pages=" ++ toString a.freePages2.length ++ " int4_free=" ++ toString a.freeSlots4.length ++
    " fallback2to4=" ++ toString a.fallbackInt2ToInt4

end TriaxialAllocator

def availableAndEvictableStr {α : Type} [SlotAllocator α] (c : RadixCache) (a : α) : String :=
  let available := SlotAllocator.availableSize a
  "Available tokens: " ++ toString (available + c.evictableSize) ++ " (available_size=" ++ toString available ++
    " + evictable_size=" ++ toString c.evictableSize ++ ")\n"

def allocTokenSlotsTriaxial (order : EvictionOrder) (c : RadixCache) (a : TriaxialAllocator) (reqs : List ExtendReq) :
    Except String (List Nat) × RadixCache × TriaxialAllocator :=
  let numTokens := extendNumTokens reqs
  let (c, a) := c.evictFromTreeCache order a numTokens
  let bits := bitsFlat reqs
  match a.allocMixed bits (extendLens reqs) with
  | (some out, a) => (.ok out, c, a)
  | (none, a) =>
    -- INT4 region exhausted: evict harder and retry once
    let (_, c, a) := c.evict order a numTokens
    match a.allocMixed bits (extendLens reqs) with
    | (some out, a) => (.ok out, c, a)
    | (none, a) =>
      (.error ("Out of memory (TriAxialKV). Try to lower your batch size.\nTry to allocate " ++ toString numTokens ++
        " tokens. " ++ a.debugPrint ++ "\n" ++ availableAndEvictableStr c a), c, a)

namespace TriaxialAllocator

def withFallback (a : TriaxialAllocator) (fallback : Nat) : TriaxialAllocator :=
  { a with fallbackInt2ToInt4 := fallback }

def supply (a : TriaxialAllocator) (demand : Nat) : Nat := a.freeSlots4.length + min demand a.freePages2.length * 32

variable (a : TriaxialAllocator)

theorem allocMixed_isSome (total : reqLens.sum = bits.length) :
    (a.allocMixed bits reqLens).1.isSome ↔ bits.length ≤ a.supply (pageDemand bits reqLens) := by
  rw [allocMixed_eq a bits reqLens total, supply]
  dsimp only
  split
  · next short =>
    rw [int4Need, pagesTaken] at short
    simp only [Option.isSome_none, Bool.false_eq_true, false_iff]
    omega
  · next enough =>
    rw [int4Need, pagesTaken] at enough
    simp only [Option.isSome_some, true_iff]
    omega

theorem allocMixed_none (total : reqLens.sum = bits.length) (failed : (a.allocMixed bits reqLens).1 = none) :
    ∃ fallback, (a.allocMixed bits reqLens).2 = a.withFallback fallback := by
  rw [allocMixed_eq a bits reqLens total] at failed ⊢
  dsimp only at failed ⊢
  split at failed
  · next short => exact ⟨_, by rw [if_pos short]; rfl⟩
  · cases failed

theorem supply_free (freeIndex : List Nat) (demand : Nat) : a.supply demand ≤ (a.free freeIndex).supply demand := by
  unfold free
  split
  · exact le_refl _
  · split
    · exact le_refl _
    · rw [release_eq]
      simp only [supply, List.length_append]
      omega

theorem free_fallback (freeIndex : List Nat) (fallback : Nat) :
    (a.withFallback fallback).free freeIndex = (a.free freeIndex).withFallback fallback := by
  unfold free withFallback
  split
  · rfl
  · split
    · rfl
    · rw [release_eq, release_eq]
      rfl

end TriaxialAllocator

namespace RadixCache
section
variable {order : EvictionOrder}

def relabel (d fallback : Nat) (s : Nat × RadixCache × TriaxialAllocator) : Nat × RadixCache × TriaxialAllocator :=
  (d + s.1, s.2.1, s.2.2.withFallback fallback)

theorem relabel_semiconj (d fallback : Nat) : Function.Semiconj (relabel d fallback) (evictOne order) (evictOne order) := by
  rintro ⟨_, c, a⟩
  by_cases none : c.evictableLeaves = []
  · simp [evictOne, relabel, none]
  · cases found : c.node? (order.next c c.evictableLeaves) with
    | none => simp [evictOne, relabel, none, found]
    | some x => simp [evictOne, relabel, none, found, SlotAllocator.free, TriaxialAllocator.free_fallback, add_assoc]

theorem rounds_relabel (d fallback k : Nat) (s : Nat × RadixCache × TriaxialAllocator) :
    (evictOne order)^[k] (relabel d fallback s) = relabel d fallback ((evictOne order)^[k] s) :=
  ((relabel_semiconj d fallback).iterate_right k s).symm

theorem supply_evictOne (s : Nat × RadixCache × TriaxialAllocator) (demand : Nat) : s.2.2.supply demand ≤ (evictOne order s).2.2.supply demand := by
  unfold evictOne
  split
  · exact le_refl _
  · split
    · exact le_refl _
    · exact TriaxialAllocator.supply_free _ _ _

theorem supply_rounds (s : Nat × RadixCache × TriaxialAllocator) (demand : Nat) {j k : Nat} (le : j ≤ k) :
    ((evictOne order)^[j] s).2.2.supply demand ≤ ((evictOne order)^[k] s).2.2.supply demand := by
  induction le with
  | refl => exact le_refl _
  | step _ ih =>
    rw [Function.iterate_succ_apply']
    exact ih.trans (supply_evictOne _ _)

theorem rounds_done (none : s.2.1.evictableLeaves = []) (k : Nat) : (evictOne order)^[k] s = s :=
  Function.iterate_fixed (by simp only [evictOne, if_pos none]) k

theorem two_evictions_reach {numTokens k₁ k₂ k₃ : Nat} {fallback : Nat} (first : StopsAt order numTokens s k₁) (second : StopsAt order numTokens
      (0, ((evictOne order)^[k₁] s).2.1, ((evictOne order)^[k₁] s).2.2.withFallback fallback) k₂)
    (both : StopsAt order (2 * numTokens) s k₃) : k₃ ≤ k₁ + k₂ := by
  by_contra beyond
  obtain ⟨few, left⟩ := both.running (k₁ + k₂) (by omega)
  rw [add_comm, Function.iterate_add_apply] at few left
  have stopped := first.stop
  generalize (evictOne order)^[k₁] s = mid at *
  have same : mid = relabel mid.1 mid.2.2.fallbackInt2ToInt4 (0, mid.2.1, mid.2.2.withFallback fallback) := rfl
  rcases stopped with _ | none
  · have again := second.stop
    rw [same, rounds_relabel] at few left
    simp only [relabel] at few left
    rcases again with _ | none
    · omega
    · exact left none
  · rw [rounds_done none] at left
    exact left none

theorem supply_two_evictions (wf : c.Wf) (enabled : c.disable = false) (a : TriaxialAllocator) (numTokens fallback demand : Nat) :
    let first := evict order c a numTokens
    let second := evict order first.2.1 (first.2.2.withFallback fallback) numTokens
    (evict order c a (2 * numTokens)).2.2.supply demand ≤ second.2.2.supply demand := by
  intro first second
  obtain ⟨k₁, reached₁, stops₁⟩ := evict_stops order wf enabled a numTokens
  obtain ⟨_, reached₃, stops₃⟩ := evict_stops order wf enabled a (2 * numTokens)
  simp only [second, first, reached₁, reached₃]
  obtain ⟨_, reached₂, stops₂⟩ := evict_stops order (rounds_wf order wf k₁)
    ((rounds_disable order (0, c, a) k₁).trans enabled) (((evictOne order)^[k₁] (0, c, a)).2.2.withFallback fallback) numTokens
  rw [reached₂]
  have reach := two_evictions_reach stops₁ stops₂ stops₃
  refine (supply_rounds (0, c, a) demand reach).trans ?_
  rw [add_comm, Function.iterate_add_apply]
  generalize (evictOne order)^[k₁] (0, c, a) = mid
  rw [show mid = relabel mid.1 mid.2.2.fallbackInt2ToInt4 (0, mid.2.1, mid.2.2.withFallback fallback) from rfl, rounds_relabel]
  exact le_refl _

end

end RadixCache

theorem evictFromTree_triaxial (order : EvictionOrder) (c : RadixCache) (a : TriaxialAllocator) (numTokens : Nat) :
    c.evictFromTreeCache order a numTokens =
      if a.availableSize < numTokens ∨ (a.availableSizeInt4 : Int) < numTokens then (c.evict order a numTokens).2
      else (c, a) := by
  simp only [RadixCache.evictFromTreeCache, SlotAllocator.availableSizeInt4, SlotAllocator.availableSize, Bool.or_eq_true, decide_eq_true_eq]

theorem tokenSlots_first {order : EvictionOrder} {a : TriaxialAllocator} {reqs : List ExtendReq}
    (enough : ((c.evictFromTreeCache order a (extendNumTokens reqs)).2.allocMixed (bitsFlat reqs) (extendLens reqs)).1.isSome) :
    ∃ out, (allocTokenSlotsTriaxial order c a reqs).1 = .ok out := by
  unfold allocTokenSlotsTriaxial
  dsimp only
  cases first : (c.evictFromTreeCache order a (extendNumTokens reqs)).2.allocMixed (bitsFlat reqs) (extendLens reqs) with
  | mk out a' =>
    rw [first] at enough
    cases out with
    | none => cases enough
    | some out => exact ⟨out, rfl⟩

/-- The allocation fails only if it also fails after an eviction of twice the batch. -/
theorem allocTokenSlotsTriaxial_returns (order : EvictionOrder) (c : RadixCache) (a : TriaxialAllocator) (reqs : List ExtendReq) (wf : c.Wf)
    (enough : ((c.evict order a (2 * extendNumTokens reqs)).2.2.allocMixed (bitsFlat reqs) (extendLens reqs)).1.isSome) :
    ∃ out, (allocTokenSlotsTriaxial order c a reqs).1 = .ok out := by
  let size := extendNumTokens reqs
  have total := sum_extendLens reqs
  rw [TriaxialAllocator.allocMixed_isSome _ total] at enough
  unfold allocTokenSlotsTriaxial
  dsimp only
  cases first : (c.evictFromTreeCache order a size).2.allocMixed (bitsFlat reqs) (extendLens reqs) with
  | mk out₁ a₁ =>
    cases out₁ with
    | some out => exact ⟨out, rfl⟩
    | none =>
      have failed : ¬ ((c.evictFromTreeCache order a size).2.allocMixed (bitsFlat reqs)
          (extendLens reqs)).1.isSome := by
        rw [first]
        simp
      obtain ⟨_, unchanged⟩ := TriaxialAllocator.allocMixed_none
        (c.evictFromTreeCache order a size).2 total (by rw [first])
      rw [first] at unchanged
      dsimp only at unchanged
      rw [TriaxialAllocator.allocMixed_isSome _ total, length_bitsFlat] at failed
      rw [length_bitsFlat] at enough
      rw [evictFromTree_triaxial] at failed unchanged ⊢
      split at failed
      · next short =>
        rw [if_pos short] at unchanged ⊢
        -- both evictions have run, and reach at least as far as the one assumed
        have retry : ((c.evict order a size).2.1.evict order a₁
            size).2.2.allocMixed (bitsFlat reqs) (extendLens reqs) |>.1.isSome := by
          rw [TriaxialAllocator.allocMixed_isSome _ total, length_bitsFlat, unchanged]
          cases enabled : c.disable with
          | true =>
            simp only [RadixCache.evict, enabled, if_true] at enough failed
            exact absurd enough failed
          | false =>
            exact enough.trans (RadixCache.supply_two_evictions wf enabled a _ _ _)
        dsimp only
        cases second : ((c.evict order a size).2.1.evict order a₁
            size).2.2.allocMixed (bitsFlat reqs) (extendLens reqs) with
        | mk out₂ a₂ =>
          cases out₂ with
          | some out => exact ⟨out, rfl⟩
          | none =>
            rw [second] at retry
            cases retry
      · next roomy =>
        refine absurd ?_ failed
        simp only [not_or, Int.not_lt] at roomy
        have int4 := roomy.2
        rw [TriaxialAllocator.availableSizeInt4] at int4
        show _ ≤ a.freeSlots4.length + _
        omega

namespace AllocExtendExample

/-- Three leaves of one token each, oldest first: two slots of page 1 and an INT4 slot. -/
def tree : RadixCache where
  disable := false
  pageSize := 1
  nodes := [⟨1, 0, ⟨[1], none⟩, [32], 0, 1, 1, 0, 0⟩, ⟨2, 0, ⟨[2], none⟩, [33], 0, 2, 2, 0, 0⟩, ⟨3, 0, ⟨[3], none⟩, [65], 0, 3, 3, 0, 0⟩]
  evictableLeaves := [1, 2, 3]
  evictableSize := 3
  protectedSize := 0

def allocator : TriaxialAllocator :=
  { TriaxialAllocator.clear ⟨1, 1⟩ with freePages2 := [], freeSlots4 := [] }

theorem tree_wf : tree.Wf where
  ids := by decide
  root := by decide
  parents := ⟨id, by decide⟩
  siblings := by decide
  keys := by decide
  locks := by decide
  lockSum := by decide
  leavesNodup := by decide
  leaves := RadixCache.leaves_of_listed (by decide) (by decide)
  evictable := by decide
  locked := by decide

def request : ExtendReq := ⟨some [4], 0, 1⟩

end AllocExtendExample

open AllocExtendExample in
/-- Two INT2 leaves use up both evictions; the INT4 leaf is left. -/
theorem int2_leaves_shield_int4 : tree.Wf ∧ ((tree.evict (.ofStrategy .lru) allocator tree.evictableSize.toNat).2.2.allocMixed
      (bitsFlat [request]) (extendLens [request])).1.isSome ∧
    ¬ ∃ out, (allocTokenSlotsTriaxial (.ofStrategy .lru) tree allocator [request]).1 = .ok out := by
  refine ⟨tree_wf, by decide +kernel, ?_⟩
  rintro ⟨out, returned⟩
  have failed : (allocTokenSlotsTriaxial (.ofStrategy .lru) tree allocator [request]).1.isOk = false := by decide +kernel
  rw [returned] at failed
  cases failed

open AllocExtendExample in
theorem allocTokenSlotsTriaxial_returns_mru : ∃ out, (allocTokenSlotsTriaxial (.ofStrategy .mru) tree allocator [request]).1 = .ok out :=
  allocTokenSlotsTriaxial_returns _ _ _ _ tree_wf (by decide +kernel)

end TriaxialKV
