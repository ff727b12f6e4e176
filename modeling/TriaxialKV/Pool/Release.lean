import TriaxialKV.Pool.AllocMixed

/-!
# Handing out and releasing

`Draws` covers the three calls that hand out slots, `Parked` the slots freed inside a page that is not complete.
-/

namespace TriaxialKV
open Tensor
open List hiding beq_eq_decide

variable {page slot : Nat} {pages : List Nat}

def TriaxialKVPool.slots (pool : TriaxialKVPool) : List Nat :=
  List.range' 32 (pool.usablePages2 * 32) ++ List.range' (pool.offset + 1) pool.usableInt4

def TriaxialKVPool.NonReserved (pool : TriaxialKVPool) (slot : Nat) : Prop :=
  32 ≤ slot ∧ slot < pool.offset ∨ pool.offset + 1 ≤ slot ∧ slot < pool.offset + pool.size4

namespace TriaxialKVPool

theorem mem_slots {pool : TriaxialKVPool} : slot ∈ pool.slots ↔ pool.NonReserved slot := by
  simp only [slots, NonReserved, mem_append, mem_range'_1, offset, numPages2, size4]
  omega

theorem nodup_slots (pool : TriaxialKVPool) : pool.slots.Nodup := by
  refine nodup_append'.mpr ⟨nodup_range', nodup_range', ?_⟩
  intro _ low high
  simp only [mem_range'_1, offset, numPages2] at low high
  omega

end TriaxialKVPool

theorem mem_pageSlots : slot ∈ pageSlots page ↔ slot / 32 = page := by
  simp only [pageSlots, mem_map, mem_range]
  constructor
  · rintro ⟨j, _, rfl⟩
    omega
  · intro _
    exact ⟨slot % 32, by omega, by omega⟩

theorem mem_flatSlots : slot ∈ pages.flatMap pageSlots ↔ slot / 32 ∈ pages := by
  simp [mem_pageSlots]

theorem nodup_pageSlots (page : Nat) : (pageSlots page).Nodup := nodup_range.map (fun _ _ h => by simpa using h)

theorem nodup_flatSlots : (pages.flatMap pageSlots).Nodup ↔ pages.Nodup := by
  rw [nodup_flatMap]
  constructor
  · rintro ⟨_, apart⟩
    refine apart.imp ?_
    rintro p q disjoint rfl
    exact disjoint (a := p * 32) (mem_pageSlots.mpr (by omega)) (mem_pageSlots.mpr (by omega))
  · intro nodup
    refine ⟨fun page _ => nodup_pageSlots page, nodup.imp ?_⟩
    intro p q ne _ left right
    exact ne ((mem_pageSlots.mp left).symm.trans (mem_pageSlots.mp right))

theorem filter_page_perm {xs : List Nat} (nodup : xs.Nodup) (whole : 32 ≤ xs.countP (fun slot => slot / 32 == page)) :
    (xs.filter (fun slot => slot / 32 == page)).Perm (pageSlots page) := by
  have inside : xs.filter (fun slot => slot / 32 == page) ⊆ pageSlots page := by
    intro slot mem
    exact mem_pageSlots.mpr (by simpa using (mem_filter.mp mem).2)
  apply (subperm_of_subset (nodup.filter _) inside).perm_of_length_le
  rw [← countP_eq_length_filter]
  simpa [pageSlots] using whole

theorem perm_whole_pages {full : List Nat} (nodup : full.Nodup) (xs : List Nat)
    (whole : ∀ page ∈ full, (xs.filter (fun slot => slot / 32 == page)).Perm (pageSlots page)) :
    xs.Perm (full.flatMap pageSlots ++ xs.filter (fun slot => slot / 32 ∉ full)) := by
  induction full generalizing xs with
  | nil => simp
  | cons page full ih =>
    obtain ⟨fresh, nodup⟩ := nodup_cons.mp nodup
    let rest := xs.filter (fun slot => !(slot / 32 == page))
    have others : ∀ q ∈ full, (rest.filter (fun slot => slot / 32 == q)).Perm (pageSlots q) := by
      intro q mem
      have same : rest.filter (fun slot => slot / 32 == q) = xs.filter (fun slot => slot / 32 == q) := by
        rw [filter_filter]
        apply filter_congr
        intro slot _
        have ne : q ≠ page := fun eq => fresh (eq ▸ mem)
        by_cases h : slot / 32 = q <;> simp [h, ne]
      rw [same]
      exact whole q (mem_cons_of_mem _ mem)
    have left : rest.filter (fun slot => slot / 32 ∉ full) = xs.filter (fun slot => slot / 32 ∉ page :: full) := by
      rw [filter_filter]
      apply filter_congr
      intro slot _
      simp [Bool.and_comm, beq_eq_decide]
    rw [flatMap_cons, append_assoc, ← left]
    exact (filter_append_perm _ xs).symm.trans
      ((whole page mem_cons_self).append (ih nodup rest others))

namespace TriaxialAllocator

def pagedSlots (a : TriaxialAllocator) (freeIndex : List Nat) : List Nat := freeIndex.filter (fun s => decide (32 ≤ s ∧ s < a.pool.offset))

theorem mem_pagedSlots {a : TriaxialAllocator} {freeIndex : List Nat} :
    slot ∈ a.pagedSlots freeIndex ↔ slot ∈ freeIndex ∧ 32 ≤ slot ∧ slot < a.pool.offset := by
  simp [pagedSlots]

def completed (a : TriaxialAllocator) (freeIndex : List Nat) : List Nat :=
  (unique ((a.pagedSlots freeIndex).map (· / 32))).filter
    (fun p => a.pageFreeCnt p + (a.pagedSlots freeIndex).countP (fun s => s / 32 == p) ≥ 32)

variable (a : TriaxialAllocator)

theorem release_eq (freeIndex : List Nat) : a.release freeIndex = { a with
        freeSlots4 := a.freeSlots4 ++ freeIndex.filter (fun s => s ≥ a.pool.offset)
        pageFreeCnt := fun p => if p ∈ a.completed freeIndex then 0
          else a.pageFreeCnt p + (a.pagedSlots freeIndex).countP (fun s => s / 32 == p)
        freePages2 := a.freePages2 ++ a.completed freeIndex
        partialSlots := a.partialSlots + ((a.pagedSlots freeIndex).length - (a.completed freeIndex).length * 32) } := by
  have paged : (freeIndex.filter (fun s => !decide (s ≥ a.pool.offset))).filter (fun s => s ≥ 32) = a.pagedSlots freeIndex := by
    rw [filter_filter, pagedSlots]
    apply filter_congr
    intro s _
    simp [← decide_not]
  have counted : ∀ p, ((a.pagedSlots freeIndex).map (· / 32)).count p = (a.pagedSlots freeIndex).countP (fun s => s / 32 == p) := by
    intro p
    rw [count, countP_map]
    rfl
  unfold release
  simp only [paged, counted]
  split
  · rfl
  · next _ =>
    have nil : a.pagedSlots freeIndex = [] := length_eq_zero_iff.mp (by omega)
    have none : a.completed freeIndex = [] := by simp [completed, nil, unique]
    simp [nil, none]

theorem groupEnd_eq : a.freeGroupEnd = { a.release a.freeGroup.flatten with isNotInFreeGroup := true } := by
  unfold freeGroupEnd free
  dsimp only
  by_cases nothing : a.freeGroup.flatten = []
  · have same : a.release [] = a := by
      simp [release_eq, pagedSlots, completed, unique]
    by_cases empty : a.freeGroup = []
    · simp [empty, same]
    · simp [empty, nothing, same]
  · have nonempty : a.freeGroup ≠ [] := by
      rintro empty
      simp [empty] at nothing
    simp only [nonempty, nothing, if_false, Bool.not_true, Bool.false_eq_true, release_eq]
    rfl

theorem pagedSlots_of_mem_completed {a : TriaxialAllocator} {freeIndex : List Nat}
    (mem : page ∈ a.completed freeIndex) : ∃ slot ∈ a.pagedSlots freeIndex, slot / 32 = page := by
  simpa using mem_unique.mp (mem_filter.mp mem).1

/-- `parked` are the freed slots that the page counters hold. -/
structure Parked (a : TriaxialAllocator) (parked : List Nat) : Prop where
  nodup : parked.Nodup
  counted : ∀ page, a.pageFreeCnt page = parked.countP (fun s => s / 32 == page)
  small : ∀ page, a.pageFreeCnt page < 32
  total : a.partialSlots = parked.length

theorem nodup_completed (freeIndex : List Nat) : (a.completed freeIndex).Nodup := (nodup_unique _).filter _

section
variable {a : TriaxialAllocator} {parked freeIndex : List Nat}

theorem mem_completed (known : Parked a parked) : page ∈ a.completed freeIndex ↔
    32 ≤ (parked ++ a.pagedSlots freeIndex).countP (fun s => s / 32 == page) := by
  rw [countP_append, ← known.counted page, completed, mem_filter, mem_unique]
  constructor
  · intro mem
    simpa using mem.2
  · intro whole
    refine ⟨?_, by simpa using whole⟩
    -- the counter was below 32, so this release touches the page
    have touched : 0 < (a.pagedSlots freeIndex).countP (fun s => s / 32 == page) := by
      have := known.small page
      omega
    obtain ⟨s, mem, same⟩ := countP_pos_iff.mp touched
    exact mem_map.mpr ⟨s, mem, by simpa using same⟩

def stillParked (a : TriaxialAllocator) (parked freeIndex : List Nat) : List Nat :=
  (parked ++ a.pagedSlots freeIndex).filter (fun s => s / 32 ∉ a.completed freeIndex)

section
variable (known : Parked a parked) (nodup : (parked ++ a.pagedSlots freeIndex).Nodup)
include known nodup

theorem completed_perm : (parked ++ a.pagedSlots freeIndex).Perm ((a.completed freeIndex).flatMap pageSlots ++ a.stillParked parked freeIndex) := by
  apply perm_whole_pages (nodup_completed a freeIndex)
  intro _ mem
  exact filter_page_perm nodup ((mem_completed known).mp mem)

theorem release_parked : Parked (a.release freeIndex) (a.stillParked parked freeIndex) := by
  have count : ∀ page, (a.stillParked parked freeIndex).countP (fun s => s / 32 == page) = if page ∈ a.completed freeIndex then 0
      else (parked ++ a.pagedSlots freeIndex).countP (fun s => s / 32 == page) := by
    intro page
    rw [stillParked, countP_filter]
    split
    · next mem =>
      rw [countP_eq_zero]
      intro s _
      by_cases same : s / 32 = page <;> simp [same, mem]
    · next absent =>
      apply countP_congr
      intro s _
      by_cases same : s / 32 = page <;> simp [same, absent]
  refine ⟨nodup.filter _, ?_, ?_, ?_⟩
  · intro page
    rw [count, release_eq, countP_append, ← known.counted]
  · intro page
    rw [release_eq]
    dsimp only
    split
    · omega
    · next absent =>
      rw [mem_completed known, countP_append, ← known.counted] at absent
      omega
  · have size := (completed_perm known nodup).length_eq
    rw [length_append, length_append, length_flatSlots] at size
    rw [release_eq]
    dsimp only
    rw [known.total]
    omega

end

end

/-- `a'` is `a` after `out` was taken from its free lists. -/
structure Draws (a a' : TriaxialAllocator) (out : List Nat) : Prop where
  pool : a'.pool = a.pool
  counters : a'.pageFreeCnt = a.pageFreeCnt ∧ a'.partialSlots = a.partialSlots
  group : a'.isNotInFreeGroup = a.isNotInFreeGroup ∧ a'.freeGroup = a.freeGroup
  slots4 : a'.freeSlots4 ⊆ a.freeSlots4
  pages : a'.freePages2 ⊆ a.freePages2
  drawn : (a.freeSlots4 ++ a.freePages2.flatMap pageSlots).Perm
    (out ++ (a'.freeSlots4 ++ a'.freePages2.flatMap pageSlots))

theorem alloc_draws (needSize : Nat) : Draws a (a.alloc needSize).2 ((a.alloc needSize).1.getD []) := by
  unfold alloc
  split
  · exact ⟨rfl, ⟨rfl, rfl⟩, ⟨rfl, rfl⟩, fun _ h => h, fun _ h => h, .refl _⟩
  · refine ⟨rfl, ⟨rfl, rfl⟩, ⟨rfl, rfl⟩, drop_subset _ _, fun _ h => h, ?_⟩
    simp only [Option.getD_some]
    rw [← append_assoc, take_append_drop]

theorem allocMixed_draws {bits reqLens : List Nat} (total : reqLens.sum = bits.length) :
    Draws a (a.allocMixed bits reqLens).2 ((a.allocMixed bits reqLens).1.getD []) := by
  rw [allocMixed_eq a bits reqLens total]
  dsimp only
  split
  · exact ⟨rfl, ⟨rfl, rfl⟩, ⟨rfl, rfl⟩, fun _ h => h, fun _ h => h, .refl _⟩
  · next _ =>
    refine ⟨rfl, ⟨rfl, rfl⟩, ⟨rfl, rfl⟩, drop_subset _ _, drop_subset _ _, ?_⟩
    simp only [Option.getD_some]
    have out := allocMixed_perm a total (by omega)
    have pages := take_append_drop (a.pagesTaken bits reqLens) a.freePages2
    have slots := take_append_drop (a.int4Need bits reqLens) a.freeSlots4
    generalize a.freePages2.take (a.pagesTaken bits reqLens) = taken at *
    generalize a.freeSlots4.take (a.int4Need bits reqLens) = taken4 at *
    rw [← pages, ← slots, flatMap_append]
    simp only [slots, pages]
    refine .trans ?_ (out.symm.append_right _)
    grind

end TriaxialAllocator

end TriaxialKV
