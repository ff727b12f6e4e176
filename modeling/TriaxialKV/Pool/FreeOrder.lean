import TriaxialKV.Pool.Partition

/-!
# Freeing in any order

The slots that are away fix what is free, so the order and batching of the `free` calls do not matter.
-/

namespace TriaxialKV
open List Runs TriaxialAllocator

structure TriaxialAllocator.SameFree (a b : TriaxialAllocator) : Prop where
  freePages2 : a.freePages2.Perm b.freePages2
  freeSlots4 : a.freeSlots4.Perm b.freeSlots4
  pageFreeCnt : a.pageFreeCnt = b.pageFreeCnt
  partialSlots : a.partialSlots = b.partialSlots

namespace Usage

section
variable {s : Usage} {slot page : Nat}

theorem Inv.mem_slots (invariant : s.Inv) : slot ∈ s.alloc.pool.slots ↔
    slot ∈ s.away ∨ slot ∈ s.parked ∨ slot ∈ s.alloc.freeSlots4 ∨ slot / 32 ∈ s.alloc.freePages2 := by
  rw [← invariant.all.mem_iff]
  simp only [mem_append, mem_flatSlots, or_assoc]

theorem Inv.not_mem_away (invariant : s.Inv)
    (held : slot ∈ s.parked ∨ slot ∈ s.alloc.freeSlots4 ∨ slot / 32 ∈ s.alloc.freePages2) : slot ∉ s.away := by
  have nodup := invariant.nodup
  rw [append_assoc] at nodup
  intro away
  apply (nodup_append'.mp nodup).2.2 away
  simpa only [mem_append, mem_flatSlots] using held

theorem Inv.mem_freeSlots4 (invariant : s.Inv) :
    slot ∈ s.alloc.freeSlots4 ↔ slot ∈ s.alloc.pool.slots ∧ s.alloc.pool.offset < slot ∧ slot ∉ s.away := by
  constructor
  · intro free
    exact ⟨invariant.mem_slots.mpr (.inr (.inr (.inl free))), invariant.slots4 slot free, invariant.not_mem_away (.inr (.inl free))⟩
  · rintro ⟨known, high, kept⟩
    rcases (invariant.mem_slots.mp known).resolve_left kept with parked | free | page
    · have low := (mem_parked.mp parked).2.1
      omega
    · exact free
    · have bounds := invariant.pages _ page
      rw [TriaxialKVPool.offset] at high
      omega

theorem Inv.mem_freePages2 (invariant : s.Inv) :
    page ∈ s.alloc.freePages2 ↔ (1 ≤ page ∧ page < s.alloc.pool.numPages2) ∧ ∀ slot, slot / 32 = page → slot ∉ s.away := by
  constructor
  · intro free
    exact ⟨invariant.pages page free, fun slot same => invariant.not_mem_away (.inr (.inr (same ▸ free)))⟩
  · rintro ⟨bounds, kept⟩
    by_contra notFree
    -- every slot of the page would be parked, but a counter stays below 32
    have parked : pageSlots page ⊆ s.parked.filter (fun slot => slot / 32 == page) := by
      intro slot mem
      have same := mem_pageSlots.mp mem
      have low : 32 ≤ slot ∧ slot < s.alloc.pool.offset := by
        rw [TriaxialKVPool.offset]
        omega
      rcases (invariant.mem_slots.mp (TriaxialKVPool.mem_slots.mpr (.inl low))).resolve_left (kept slot same) with
        parked | free | free
      · exact mem_filter.mpr ⟨parked, beq_iff_eq.mpr same⟩
      · have := invariant.slots4 slot free
        omega
      · exact absurd (same ▸ free) notFree
    have size := (subperm_of_subset (nodup_pageSlots page) parked).length_le
    have small := invariant.counters.small page
    rw [invariant.counters.counted, countP_eq_length_filter] at small
    simp only [pageSlots, length_map, length_range] at size
    omega

theorem Inv.mem_parked_iff (invariant : s.Inv) : slot ∈ s.parked ↔
    slot ∈ s.alloc.pool.slots ∧ slot < s.alloc.pool.offset ∧ slot / 32 ∉ s.alloc.freePages2 ∧ slot ∉ s.away := by
  constructor
  · intro parked
    have low := (mem_parked.mp parked).2
    exact ⟨invariant.mem_slots.mpr (.inr (.inl parked)), low.1, low.2, invariant.not_mem_away (.inl parked)⟩
  · rintro ⟨known, low, notFree, kept⟩
    rcases (invariant.mem_slots.mp known).resolve_left kept with parked | free | page
    · exact parked
    · have := invariant.slots4 slot free
      omega
    · exact absurd page notFree

end

theorem Inv.sameFree {s t : Usage} (left : s.Inv) (right : t.Inv) (pool : s.alloc.pool = t.alloc.pool)
    (away : ∀ slot, slot ∈ s.away ↔ slot ∈ t.away) : s.alloc.SameFree t.alloc := by
  have pages : ∀ page, page ∈ s.alloc.freePages2 ↔ page ∈ t.alloc.freePages2 := by
    intro page
    simp only [left.mem_freePages2, right.mem_freePages2, pool, away]
  have parked : s.parked.Perm t.parked := by
    apply (perm_ext_iff_of_nodup left.counters.nodup right.counters.nodup).mpr
    intro slot
    simp only [left.mem_parked_iff, right.mem_parked_iff, pages, pool, away]
  have free := left.nodup.of_append_right
  have free' := right.nodup.of_append_right
  refine ⟨?_, ?_, ?_, ?_⟩
  · exact (perm_ext_iff_of_nodup (nodup_flatSlots.mp free.of_append_right)
      (nodup_flatSlots.mp free'.of_append_right)).mpr pages
  · apply (perm_ext_iff_of_nodup free.of_append_left free'.of_append_left).mpr
    intro slot
    simp only [left.mem_freeSlots4, right.mem_freeSlots4, pool, away]
  · funext page
    rw [left.counters.counted, right.counters.counted, parked.countP_eq]
  · rw [left.counters.total, right.counters.total, parked.length_eq]

/-- The calls of a way of freeing, with its brackets closed before the next is opened. -/
def Frees (s : Usage) : Op → Prop
  | .free _ => True
  | .freeGroupBegin => s.alloc.isNotInFreeGroup = true ∨ s.alloc.freeGroup = []
  | .freeGroupEnd => s.alloc.isNotInFreeGroup = false ∨ s.alloc.freeGroup = []
  | _ => False

instance (s : Usage) : (op : Op) → Decidable (s.Frees op)
  | .free _ => .isTrue trivial
  | .freeGroupBegin | .freeGroupEnd => inferInstanceAs (Decidable (_ ∨ _))
  | .alloc _ | .allocDecode _ | .allocMixed _ _ => .isFalse id

def Op.slots : Op → List Nat
  | .free freeIndex => freeIndex
  | _ => []

theorem step_frees {s : Usage} {op : Op} (frees : s.Frees op) :
    (s.step op).handedOut = s.handedOut.filter (fun slot => slot ∉ op.slots) ∧ (s.step op).lost = s.lost := by
  cases op with
  | free freeIndex => exact ⟨rfl, rfl⟩
  | freeGroupBegin =>
    have waits : s.waiting = [] := by rcases frees with closed | empty <;> simp [waiting, *]
    simp [step, Op.slots, waits]
  | freeGroupEnd => simp [step, Op.slots]
  | alloc | allocDecode | allocMixed => cases frees

theorem run_frees {s : Usage} {ops : List Op} (invariant : s.Inv) (frees : Guarded step Frees s ops)
    (nodup : (ops.flatMap Op.slots).Nodup) (inUse : ∀ slot ∈ ops.flatMap Op.slots, slot ∈ s.handedOut) :
    let s' := ops.foldl step s
    s'.Inv ∧ s'.alloc.pool = s.alloc.pool ∧ s'.lost = s.lost ∧
      ∀ slot, slot ∈ s'.handedOut ↔ slot ∈ s.handedOut ∧ slot ∉ ops.flatMap Op.slots := by
  induction ops generalizing s with
  | nil => exact ⟨invariant, rfl, rfl, by simp⟩
  | cons op ops ih =>
    rw [flatMap_cons] at nodup inUse
    obtain ⟨here, rest, apart⟩ := nodup_append'.mp nodup
    obtain ⟨handedOut, lost⟩ := step_frees frees.1
    have promised : s.Promised op := by
      cases op with
      | free freeIndex => exact ⟨here, fun slot mem => inUse slot (mem_append_left _ mem)⟩
      | freeGroupBegin => trivial
      | freeGroupEnd => exact frees.1
      | alloc | allocDecode | allocMixed => cases frees.1
    obtain ⟨inv', pool', lost', handedOut'⟩ := ih (step_inv s op invariant promised) frees.2 rest (by
      intro slot mem
      rw [handedOut, mem_filter, decide_eq_true_eq]
      exact ⟨inUse slot (mem_append_right _ mem), fun both => apart both mem⟩)
    refine ⟨inv', pool'.trans (step_pool s op promised), lost'.trans lost, fun slot => ?_⟩
    rw [foldl_cons, handedOut', handedOut, mem_filter, decide_eq_true_eq, flatMap_cons, mem_append, not_or, and_assoc]

end Usage

end TriaxialKV
