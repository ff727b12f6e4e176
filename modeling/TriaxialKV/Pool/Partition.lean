import TriaxialKV.Pool.Release
import TriaxialKV.Lib.Runs

/-!
# Slots in use and free

`Usage.Inv` says where every slot is; the slots freed inside a page that is not yet complete are recovered
from the history.
-/

namespace TriaxialKV
open List Tensor Runs TriaxialKVPool TriaxialAllocator

variable {call : Option (List Nat) × TriaxialAllocator} {pool : TriaxialKVPool} {slot : Nat}

/-- `handedOut` are the slots given out and not passed to `free` since, `freed` those released since, and `lost` those that waited in a group begun
again. -/
structure Usage where
  alloc : TriaxialAllocator
  handedOut : List Nat
  freed : List Nat
  lost : List Nat

namespace Usage

inductive Op where
  | alloc (needSize : Nat)
  | allocDecode (bs : Nat)
  | allocMixed (bits reqLens : List Nat)
  | free (freeIndex : List Nat)
  | freeGroupBegin
  | freeGroupEnd

def start (pool : TriaxialKVPool) : Usage := ⟨.clear pool, [], [], []⟩

def waiting (s : Usage) : List Nat :=
  if s.alloc.isNotInFreeGroup then [] else s.alloc.freeGroup.flatten

def handOut (s : Usage) (call : Option (List Nat) × TriaxialAllocator) : Usage :=
  { s with
    alloc := call.2
    handedOut := s.handedOut ++ call.1.getD []
    freed := s.freed.filter (fun slot => slot ∉ call.1.getD []) }

def step (s : Usage) : Op → Usage
  | .alloc needSize => s.handOut (s.alloc.alloc needSize)
  | .allocDecode bs => s.handOut (s.alloc.allocDecode bs)
  | .allocMixed bits reqLens => s.handOut (s.alloc.allocMixed bits reqLens)
  | .free freeIndex =>
    { s with
      alloc := s.alloc.free freeIndex
      handedOut := s.handedOut.filter (fun slot => slot ∉ freeIndex)
      freed := if s.alloc.isNotInFreeGroup then s.freed ++ freeIndex else s.freed }
  | .freeGroupBegin => { s with alloc := s.alloc.freeGroupBegin, lost := s.lost ++ s.waiting }
  | .freeGroupEnd =>
    { s with alloc := s.alloc.freeGroupEnd, freed := s.freed ++ s.alloc.freeGroup.flatten }

/-- `reqLens` covers `bits`, and only slots in use are freed, each once; at the end of a group its slots must still wait. -/
def Promised (s : Usage) : Op → Prop
  | .allocMixed bits reqLens => reqLens.sum = bits.length
  | .free freeIndex => freeIndex.Nodup ∧ ∀ slot ∈ freeIndex, slot ∈ s.handedOut
  | .freeGroupEnd => s.alloc.isNotInFreeGroup = false ∨ s.alloc.freeGroup = []
  | _ => True

instance (s : Usage) : (op : Op) → Decidable (s.Promised op)
  | .allocMixed bits reqLens => inferInstanceAs (Decidable (reqLens.sum = bits.length))
  | .free freeIndex => inferInstanceAs (Decidable (freeIndex.Nodup ∧ ∀ slot ∈ freeIndex, slot ∈ s.handedOut))
  | .freeGroupEnd => inferInstanceAs (Decidable (s.alloc.isNotInFreeGroup = false ∨ s.alloc.freeGroup = []))
  | .alloc _ | .allocDecode _ | .freeGroupBegin => .isTrue trivial

/-- No group is begun over slots that wait in an open one. -/
def Bracketed (s : Usage) : Op → Prop
  | .freeGroupBegin => s.alloc.isNotInFreeGroup = true ∨ s.alloc.freeGroup = []
  | _ => True

instance (s : Usage) : (op : Op) → Decidable (s.Bracketed op)
  | .freeGroupBegin => inferInstanceAs (Decidable (s.alloc.isNotInFreeGroup = true ∨ s.alloc.freeGroup = []))
  | .freeGroupEnd | .alloc _ | .allocDecode _ | .allocMixed _ _ | .free _ => .isTrue trivial

/-- The slots that the allocator has given away and not taken back. -/
def away (s : Usage) : List Nat := s.handedOut ++ s.waiting ++ s.lost

def parked (s : Usage) : List Nat := s.freed.filter (fun slot => decide (slot < s.alloc.pool.offset ∧ slot / 32 ∉ s.alloc.freePages2))

structure Inv (s : Usage) : Prop where
  all : (s.away ++ s.parked ++ (s.alloc.freeSlots4 ++ s.alloc.freePages2.flatMap pageSlots)).Perm s.alloc.pool.slots
  slots4 : ∀ slot ∈ s.alloc.freeSlots4, s.alloc.pool.offset < slot
  pages : ∀ page ∈ s.alloc.freePages2, 1 ≤ page ∧ page < s.alloc.pool.numPages2
  counters : s.alloc.Parked s.parked

theorem start_inv (pool : TriaxialKVPool) : (start pool).Inv := by
  refine ⟨?_, ?_, ?_, ?_⟩
  · have slots4 : ∀ slot, slot ∈ (start pool).alloc.freeSlots4 ↔ pool.offset + 1 ≤ slot ∧ slot < pool.offset + 1 + pool.usableInt4 := by
      intro slot
      simp [start, TriaxialAllocator.clear, TriaxialKVPool.size4, mem_range'_1]
    have pages : ∀ slot, slot ∈ (start pool).alloc.freePages2.flatMap pageSlots ↔ 32 ≤ slot ∧ slot < pool.offset := by
      intro slot
      rw [mem_flatSlots]
      simp only [start, TriaxialAllocator.clear, mem_range'_1, TriaxialKVPool.offset, numPages2]
      omega
    have nodup : ((start pool).alloc.freeSlots4 ++ (start pool).alloc.freePages2.flatMap pageSlots).Nodup := by
      refine nodup_append'.mpr ⟨nodup_range', nodup_flatSlots.mpr nodup_range', ?_⟩
      intro slot high low
      rw [slots4] at high
      rw [pages] at low
      omega
    apply (perm_ext_iff_of_nodup nodup (nodup_slots pool)).mpr
    intro slot
    rw [mem_append, slots4, pages, mem_slots, TriaxialKVPool.NonReserved, TriaxialKVPool.size4]
    omega
  · intro slot mem
    simp only [start, TriaxialAllocator.clear, mem_range'_1] at mem ⊢
    omega
  · intro _ mem
    simp only [start, TriaxialAllocator.clear, mem_range'_1] at mem ⊢
    omega
  · exact ⟨nodup_nil, fun _ => rfl, fun _ => by simp [start, TriaxialAllocator.clear], rfl⟩

variable {s : Usage}

theorem Inv.nodup (invariant : s.Inv) : (s.away ++ s.parked ++ (s.alloc.freeSlots4 ++ s.alloc.freePages2.flatMap pageSlots)).Nodup :=
  invariant.all.nodup_iff.mpr (nodup_slots _)

theorem parked_handOut (invariant : s.Inv) (draws : s.alloc.Draws call.2 (call.1.getD [])) : (s.handOut call).parked = s.parked := by
  unfold parked handOut
  rw [filter_filter, draws.pool]
  apply filter_congr
  intro slot _
  rw [← Bool.decide_and, decide_eq_decide]
  have drawn := draws.drawn.mem_iff (a := slot)
  simp only [mem_append, mem_flatSlots] at drawn
  have notSlot4 : slot < s.alloc.pool.offset → slot ∉ s.alloc.freeSlots4 := by
    intro low mem
    have := invariant.slots4 slot mem
    omega
  constructor
  · rintro ⟨⟨low, notFree⟩, notOut⟩
    refine ⟨low, fun free => ?_⟩
    rcases drawn.mp (.inr free) with out | slot4 | page
    · simp [out] at notOut
    · exact notSlot4 low (draws.slots4 slot4)
    · exact notFree page
  · rintro ⟨low, notFree⟩
    refine ⟨⟨low, fun page => notFree (draws.pages page)⟩, ?_⟩
    intro out
    rcases drawn.mpr (.inl out) with slot4 | page
    · exact notSlot4 low slot4
    · exact notFree page

theorem handOut_inv (invariant : s.Inv) (draws : s.alloc.Draws call.2 (call.1.getD [])) : (s.handOut call).Inv := by
  have same := parked_handOut invariant draws
  refine ⟨?_, ?_, ?_, ?_⟩
  · rw [same]
    have given : (s.handOut call).away.Perm (s.away ++ call.1.getD []) := by
      have waits : (s.handOut call).waiting = s.waiting := by
        simp only [waiting, handOut, draws.group]
      rw [away, away, waits]
      simp only [handOut]
      grind
    show List.Perm _ call.2.pool.slots
    rw [draws.pool]
    refine .trans ?_ invariant.all
    have drawn := draws.drawn
    simp only [handOut] at given ⊢
    grind
  · intro slot mem
    show call.2.pool.offset < slot
    rw [draws.pool]
    exact invariant.slots4 slot (draws.slots4 mem)
  · intro page mem
    show 1 ≤ page ∧ page < call.2.pool.numPages2
    rw [draws.pool]
    exact invariant.pages page (draws.pages mem)
  · rw [same]
    obtain ⟨nodup, counted, small, total⟩ := invariant.counters
    refine ⟨nodup, ?_, ?_, ?_⟩
    · intro page
      show call.2.pageFreeCnt page = _
      rw [draws.counters.1, counted]
    · intro page
      show call.2.pageFreeCnt page < 32
      rw [draws.counters.1]
      exact small page
    · show call.2.partialSlots = _
      rw [draws.counters.2, total]

structure Releases (s s' : Usage) (idx : List Nat) : Prop where
  moved : s.away.Perm (idx ++ s'.away)
  alloc : s'.alloc = { s.alloc.release idx with isNotInFreeGroup := s'.alloc.isNotInFreeGroup }
  freed : s'.freed = s.freed ++ idx

section
variable {s s' : Usage} {idx : List Nat}

section
variable (invariant : s.Inv) (releases : Releases s s' idx)
include invariant releases

theorem Releases.perm : (idx ++ s'.away ++ s.parked ++ (s.alloc.freeSlots4 ++ s.alloc.freePages2.flatMap pageSlots)).Perm s.alloc.pool.slots :=
  (releases.moved.symm.append_right _ |>.append_right _).trans invariant.all

theorem Releases.nonReserved (mem : slot ∈ idx) : s.alloc.pool.NonReserved slot ∧ slot / 32 ∉ s.alloc.freePages2 := by
  have perm := releases.perm invariant
  constructor
  · exact TriaxialKVPool.mem_slots.mp (perm.mem_iff.mp (by simp [mem]))
  · intro free
    have nodup := perm.nodup_iff.mpr (nodup_slots _)
    have apart := (nodup_append'.mp nodup).2.2
    exact apart (a := slot) (by simp [mem])
      (mem_append_right _ (mem_flatSlots.mpr free))

theorem Releases.parked : s'.parked = s.alloc.stillParked s.parked idx := by
  unfold Usage.parked stillParked pagedSlots
  rw [releases.freed, releases.alloc, release_eq, filter_append, filter_append, filter_filter, filter_filter]
  congr 1
  · apply filter_congr
    intro slot _
    rw [← Bool.decide_and, decide_eq_decide]
    simp only [mem_append]
    tauto
  · apply filter_congr
    intro slot mem
    obtain ⟨nonReserved, notFree⟩ := releases.nonReserved invariant mem
    rw [← Bool.decide_and, decide_eq_decide]
    unfold TriaxialKVPool.NonReserved at nonReserved
    simp only [mem_append]
    constructor
    · rintro ⟨low, incomplete⟩
      exact ⟨fun h => incomplete (.inr h), by omega, low⟩
    · rintro ⟨incomplete, _, low⟩
      exact ⟨low, fun h => h.elim notFree incomplete⟩

theorem Releases.inv : s'.Inv := by
  have perm := releases.perm invariant
  have split : idx.Perm (idx.filter (fun slot => slot ≥ s.alloc.pool.offset) ++ s.alloc.pagedSlots idx) := by
    have low : s.alloc.pagedSlots idx = idx.filter (fun slot => !decide (slot ≥ s.alloc.pool.offset)) := by
      apply filter_congr
      intro slot mem
      have nonReserved := (releases.nonReserved invariant mem).1
      unfold TriaxialKVPool.NonReserved at nonReserved
      rw [← decide_not, decide_eq_decide]
      omega
    rw [low]
    exact (filter_append_perm _ idx).symm
  have nodup : (s.parked ++ s.alloc.pagedSlots idx).Nodup := by
    have all := perm.nodup_iff.mpr (nodup_slots _)
    have distinct : (idx ++ s.parked).Nodup := all.sublist (by
      rw [append_assoc, append_assoc]
      exact (List.Sublist.refl idx).append ((sublist_append_left _ _).trans (sublist_append_right _ _)))
    exact perm_append_comm.nodup_iff.mp
      (distinct.sublist (filter_sublist.append (List.Sublist.refl _)))
  have whole := completed_perm invariant.counters nodup
  have pool : s'.alloc.pool = s.alloc.pool := by rw [releases.alloc, release_eq]
  refine ⟨?_, ?_, ?_, ?_⟩
  · rw [pool, releases.parked invariant]
    refine .trans ?_ perm
    rw [releases.alloc, release_eq]
    rw [flatMap_append, perm_iff_count]
    intro slot
    have left := split.count_eq slot
    have right := whole.count_eq slot
    simp only [count_append] at left right ⊢
    omega
  · intro slot mem
    rw [pool]
    rw [releases.alloc, release_eq] at mem
    rcases mem_append.mp mem with old | new
    · exact invariant.slots4 slot old
    · obtain ⟨lt, high⟩ := mem_filter.mp new
      have nonReserved := (releases.nonReserved invariant lt).1
      simp only [TriaxialKVPool.NonReserved, decide_eq_true_eq] at nonReserved high
      omega
  · intro page mem
    rw [pool]
    rw [releases.alloc, release_eq] at mem
    rcases mem_append.mp mem with old | new
    · exact invariant.pages page old
    · obtain ⟨slot, lt, rfl⟩ := pagedSlots_of_mem_completed new
      obtain ⟨_, bounds⟩ := TriaxialAllocator.mem_pagedSlots.mp lt
      rw [TriaxialKVPool.offset] at bounds
      omega
  · rw [releases.parked invariant, releases.alloc]
    obtain ⟨nodup, counted, small, total⟩ := release_parked invariant.counters nodup
    exact ⟨nodup, counted, small, total⟩

end

end

theorem free_inv (invariant : s.Inv) {freeIndex : List Nat} (distinct : freeIndex.Nodup)
    (inUse : ∀ slot ∈ freeIndex, slot ∈ s.handedOut) : (s.step (.free freeIndex)).Inv := by
  have split : s.handedOut.Perm (freeIndex ++ s.handedOut.filter (fun slot => slot ∉ freeIndex)) := by
    have nodup : s.handedOut.Nodup := invariant.nodup.of_append_left.of_append_left.of_append_left.of_append_left
    have apart : (freeIndex ++ s.handedOut.filter (fun slot => slot ∉ freeIndex)).Nodup := by
      refine nodup_append'.mpr ⟨distinct, nodup.filter _, ?_⟩
      intro slot mem kept
      simp [mem] at kept
    apply (perm_ext_iff_of_nodup nodup apart).mpr
    intro slot
    by_cases mem : slot ∈ freeIndex
    · simp [mem, inUse]
    · simp [mem]
  by_cases empty : freeIndex = []
  · subst empty
    simpa [step, TriaxialAllocator.free] using invariant
  cases closed : s.alloc.isNotInFreeGroup with
  | true =>
    have same : s.alloc.free freeIndex = s.alloc.release freeIndex := by
      simp [TriaxialAllocator.free, empty, closed]
    have still : (s.alloc.release freeIndex).isNotInFreeGroup = true := by
      rw [release_eq]
      exact closed
    have releases : Releases s (s.step (.free freeIndex)) freeIndex := by
      refine ⟨?_, ?_, ?_⟩
      · have moved := split.append_right s.lost
        simpa [step, away, waiting, closed, same, still] using moved
      · simp only [step, same]
      · simp [step, closed]
    exact releases.inv invariant
  | false =>
    have same : s.alloc.free freeIndex = { s.alloc with freeGroup := s.alloc.freeGroup ++ [freeIndex] } := by
      simp [TriaxialAllocator.free, empty, closed]
    obtain ⟨all, slots4, pages, counters⟩ := invariant
    have parked : (s.step (.free freeIndex)).parked = s.parked := by
      simp [Usage.parked, step, same, closed]
    refine ⟨?_, ?_, ?_, ?_⟩
    · rw [parked]
      simp only [step, same, away, waiting, closed] at all ⊢
      refine .trans ?_ all
      rw [perm_iff_count]
      intro slot
      have moved := split.count_eq slot
      simp only [Bool.false_eq_true, if_false, flatten_append, flatten_singleton, count_append] at moved ⊢
      omega
    · simpa only [step, same] using slots4
    · simpa only [step, same] using pages
    · rw [parked]
      simp only [step, same]
      exact ⟨counters.1, counters.2, counters.3, counters.4⟩

theorem freeGroupBegin_inv (invariant : s.Inv) : (s.step .freeGroupBegin).Inv := by
  have same : (s.step .freeGroupBegin).away.Perm s.away := by
    simp only [away, step, waiting, TriaxialAllocator.freeGroupBegin]
    grind
  obtain ⟨all, slots4, pages, counters⟩ := invariant
  exact ⟨(same.append_right _ |>.append_right _).trans all, slots4, pages, counters.1, counters.2, counters.3, counters.4⟩

theorem freeGroupEnd_inv (invariant : s.Inv) (opened : s.alloc.isNotInFreeGroup = false ∨ s.alloc.freeGroup = []) : (s.step .freeGroupEnd).Inv := by
  have waits : s.waiting = s.alloc.freeGroup.flatten := by
    rcases opened with opened | empty
    · simp [waiting, opened]
    · simp [waiting, empty]
  have releases : Releases s (s.step .freeGroupEnd) s.alloc.freeGroup.flatten := by
    refine ⟨?_, ?_, rfl⟩
    · simp only [step, away, waiting, groupEnd_eq, if_true] at waits ⊢
      rw [waits]
      grind
    · simp only [step, groupEnd_eq]
  exact releases.inv invariant

theorem step_inv (s : Usage) (op : Op) (invariant : s.Inv) (promised : s.Promised op) : (s.step op).Inv := by
  cases op with
  | alloc needSize => exact handOut_inv invariant (s.alloc.alloc_draws needSize)
  | allocDecode bs => exact handOut_inv invariant (s.alloc.alloc_draws bs)
  | allocMixed bits reqLens => exact handOut_inv invariant (s.alloc.allocMixed_draws promised)
  | free freeIndex => exact free_inv invariant promised.1 promised.2
  | freeGroupBegin => exact freeGroupBegin_inv invariant
  | freeGroupEnd => exact freeGroupEnd_inv invariant promised

theorem step_pool (s : Usage) (op : Op) (promised : s.Promised op) : (s.step op).alloc.pool = s.alloc.pool := by
  cases op with
  | alloc needSize => exact (s.alloc.alloc_draws needSize).pool
  | allocDecode bs => exact (s.alloc.alloc_draws bs).pool
  | allocMixed bits reqLens => exact (s.alloc.allocMixed_draws promised).pool
  | free freeIndex =>
    simp only [step, TriaxialAllocator.free, release_eq]
    split <;> [rfl; split <;> rfl]
  | freeGroupBegin => rfl
  | freeGroupEnd => simp only [step, groupEnd_eq, release_eq]

theorem reachable_inv (reachable : Reachable step Promised (start pool) s) : s.Inv ∧ s.alloc.pool = pool := by
  refine reachable.invariant (fun s => s.Inv ∧ s.alloc.pool = pool) ⟨start_inv pool, rfl⟩ ?_
  rintro s op ⟨invariant, same⟩ promised
  exact ⟨step_inv s op invariant promised, (step_pool s op promised).trans same⟩

theorem reachable_lost (reachable : Reachable step (fun s op => s.Promised op ∧ s.Bracketed op) (start pool) s) : s.lost = [] := by
  refine reachable.invariant (fun s => s.lost = []) rfl ?_
  rintro s op none ⟨_, bracketed⟩
  cases op with
  | freeGroupBegin =>
    have waits : s.waiting = [] := by
      rcases bracketed with closed | empty
      · simp [waiting, closed]
      · simp [waiting, empty]
    simp [step, none, waits]
  | alloc | allocDecode | allocMixed | free | freeGroupEnd => exact none

inductive Place where
  | handedOut
  | waiting
  | freeSlots4
  | freePages2
  | partialPage

/-- `partialPage`: freed inside a page of which some slots, but not all, have come back. -/
def At (s : Usage) (slot : Nat) : Place → Prop
  | .handedOut => slot ∈ s.handedOut
  | .waiting => slot ∈ s.waiting
  | .freeSlots4 => slot ∈ s.alloc.freeSlots4
  | .freePages2 => slot / 32 ∈ s.alloc.freePages2
  | .partialPage => slot < s.alloc.pool.offset ∧ slot ∈ s.freed ∧ 1 ≤ s.alloc.pageFreeCnt (slot / 32) ∧ s.alloc.pageFreeCnt (slot / 32) ≤ 31

instance (s : Usage) (slot : Nat) : (place : Place) → Decidable (s.At slot place)
  | .handedOut | .waiting | .freeSlots4 | .freePages2 => inferInstanceAs (Decidable (_ ∈ _))
  | .partialPage => inferInstanceAs (Decidable (_ ∧ _))

theorem mem_parked : slot ∈ s.parked ↔ slot ∈ s.freed ∧ slot < s.alloc.pool.offset ∧ slot / 32 ∉ s.alloc.freePages2 := by
  simp [parked]

theorem at_partialPage (invariant : s.Inv) : s.At slot .partialPage ↔ slot ∈ s.parked := by
  rw [mem_parked, At, invariant.counters.counted]
  constructor
  · rintro ⟨low, freed, some, _⟩
    obtain ⟨_, mem, same⟩ := countP_pos_iff.mp some
    have notFree := (mem_parked.mp mem).2.2
    rw [beq_iff_eq.mp same] at notFree
    exact ⟨freed, low, notFree⟩
  · rintro ⟨freed, low, notFree⟩
    have small := invariant.counters.small (slot / 32)
    rw [invariant.counters.counted] at small
    refine ⟨low, freed, ?_, by omega⟩
    exact countP_pos_iff.mpr ⟨slot, mem_parked.mpr ⟨freed, low, notFree⟩, by simp⟩

def holding (s : Usage) : Place → List Nat
  | .handedOut => s.handedOut
  | .waiting => s.waiting
  | .freeSlots4 => s.alloc.freeSlots4
  | .freePages2 => s.alloc.freePages2.flatMap pageSlots
  | .partialPage => s.parked

theorem at_iff_holding (invariant : s.Inv) {place : Place} : s.At slot place ↔ slot ∈ s.holding place := by
  cases place with
  | handedOut | waiting | freeSlots4 => rfl
  | freePages2 => exact mem_flatSlots.symm
  | partialPage => exact at_partialPage invariant

theorem one_place (invariant : s.Inv) (none : s.lost = []) (nonReserved : s.alloc.pool.NonReserved slot) : ∃! place, s.At slot place := by
  let places : List Place := [.handedOut, .waiting, .partialPage, .freeSlots4, .freePages2]
  have listed : places.flatMap s.holding = s.away ++ s.parked ++ (s.alloc.freeSlots4 ++ s.alloc.freePages2.flatMap pageSlots) := by
    simp [places, holding, away, none]
  have every : ∀ place, place ∈ places := by
    intro place
    cases place <;> simp [places]
  have apart : places.Pairwise (fun p q => (s.holding p).Disjoint (s.holding q)) := (nodup_flatMap.mp (listed ▸ invariant.nodup)).2
  have mem := invariant.all.mem_iff.mpr (TriaxialKVPool.mem_slots.mpr nonReserved)
  rw [← listed] at mem
  obtain ⟨place, _, here⟩ := mem_flatMap.mp mem
  refine ⟨place, (at_iff_holding invariant).mpr here, ?_⟩
  intro other there
  by_contra ne
  have symm : Std.Symm (fun p q => (s.holding p).Disjoint (s.holding q)) := ⟨fun _ _ h => h.symm⟩
  exact apart.forall (every other) (every place) ne
    ((at_iff_holding invariant).mp there) here

theorem pageFreeCnt_eq (invariant : s.Inv) {page : Nat} (lt : page < s.alloc.pool.numPages2) : s.alloc.pageFreeCnt page =
      if page ∈ s.alloc.freePages2 then 0 else (pageSlots page).countP (fun slot => slot ∈ s.freed) := by
  rw [invariant.counters.counted]
  split
  · next free =>
    rw [countP_eq_zero]
    intro slot mem same
    exact (mem_parked.mp mem).2.2 (beq_iff_eq.mp same ▸ free)
  · next notFree =>
    rw [countP_eq_length_filter, countP_eq_length_filter]
    apply List.Perm.length_eq
    apply (perm_ext_iff_of_nodup (invariant.counters.nodup.filter _) ((nodup_pageSlots page).filter _)).mpr
    intro slot
    simp only [mem_filter, mem_parked, mem_pageSlots, beq_iff_eq, decide_eq_true_eq]
    constructor
    · rintro ⟨⟨freed, _, _⟩, same⟩
      exact ⟨same, freed⟩
    · rintro ⟨rfl, freed⟩
      rw [TriaxialKVPool.offset]
      exact ⟨⟨freed, by omega, notFree⟩, rfl⟩

structure Partitioned (pool : TriaxialKVPool) (s : Usage) : Prop where
  place : ∀ slot, pool.NonReserved slot → ∃! place, s.At slot place
  pages : s.alloc.freePages2.Nodup ∧ 0 ∉ s.alloc.freePages2
  slots4 : s.alloc.freeSlots4.Nodup ∧ pool.offset ∉ s.alloc.freeSlots4
  pageFreeCnt : ∀ page < pool.numPages2, s.alloc.pageFreeCnt page =
    if page ∈ s.alloc.freePages2 then 0 else (pageSlots page).countP (fun slot => slot ∈ s.freed)

/-- In every run whose groups are brackets the slots stay partitioned. -/
theorem reachable_partitioned (pool : TriaxialKVPool) (s : Usage)
    (reachable : Reachable step (fun s op => s.Promised op ∧ s.Bracketed op) (start pool) s) :
    s.Partitioned pool := by
  obtain ⟨invariant, rfl⟩ := reachable_inv (reachable.weaken (fun _ _ allowed => allowed.1))
  have free := invariant.nodup.of_append_right
  refine ⟨fun slot => one_place invariant (reachable_lost reachable), ⟨?_, ?_⟩, ⟨free.of_append_left, ?_⟩, fun page => pageFreeCnt_eq invariant⟩
  · exact nodup_flatSlots.mp free.of_append_right
  · intro zero
    exact absurd (invariant.pages 0 zero).1 (by omega)
  · intro dummy
    exact absurd (invariant.slots4 _ dummy) (by omega)

theorem reachable_partitioned_group :
    let ops := [Op.allocMixed (List.replicate 33 2) [33], .freeGroupBegin, .free [32], .free [65], .freeGroupEnd]
    let s := ops.foldl step (start ⟨1, 1⟩)
    s.alloc.freeSlots4 = [65] ∧ s.alloc.pageFreeCnt 1 = 1 ∧ s.Partitioned ⟨1, 1⟩ := by
  intro ops s
  refine ⟨by decide +kernel, by decide +kernel, ?_⟩
  have guarded : Guarded step (fun s op => s.Promised op ∧ s.Bracketed op) (start ⟨1, 1⟩) ops := by decide +kernel
  exact reachable_partitioned ⟨1, 1⟩ s (guarded.reachable .start)

/-- Beginning a group again drops the slots that wait in it. -/
theorem nested_group_loses_slot : ∃ s, Reachable step Promised (start ⟨1, 1⟩) s ∧ ¬ s.Partitioned ⟨1, 1⟩ := by
  let ops := [Op.alloc 1, .freeGroupBegin, .free [65], .freeGroupBegin]
  refine ⟨ops.foldl step (start ⟨1, 1⟩), Guarded.reachable .start (by decide), ?_⟩
  intro partitioned
  obtain ⟨place, there, _⟩ := partitioned.place 65 (.inr (by decide))
  have nowhere : ∀ place, ¬ (ops.foldl step (start ⟨1, 1⟩)).At 65 place := by
    intro place
    cases place <;> decide
  exact nowhere place there

end Usage

end TriaxialKV
