import TriaxialKV.Pool.Partition

/-! # Grouping of the slots of a write -/

namespace TriaxialKV
open List Tensor

variable {heap : Nat → List Nat} {out pages : List Nat} {pool : TriaxialKVPool}

structure Grouping where
  idx4 : List Nat
  rows4 : List Nat
  idx2 : List Nat
  slots2 : List Nat
  tokRows : List (List Nat)
  pages : List Nat
  deriving DecidableEq

namespace TriaxialKVPool

def grouping (pool : TriaxialKVPool) (loc : List Nat) : Except String Grouping :=
  let is4 := loc.map (fun s => decide (s ≥ pool.offset))
  let idx4 := nonzero is4
  let rows4 := (gather loc idx4).map (fun s => s - pool.offset)
  -- INT2 tokens outside the dummy page 0
  let is2 := zipWith (fun high s => !high && decide (s ≥ 32)) is4 loc
  let idx2 := nonzero is2
  let slots2 := gather loc idx2
  if slots2.length > 0 then
    let order := argsort slots2
    let sortedSlots := gather slots2 order
    let nFull := sortedSlots.length / 32
    if sortedSlots.length % 32 = 0 then
      let tokRows := view (gather idx2 order) nFull 32
      let pages := (view sortedSlots nFull 32).map (fun row => row[0]! / 32)
      .ok ⟨idx4, rows4, idx2, slots2, tokRows, pages⟩
    else
      .error ("INT2 slots in set_kv_buffer are not whole pages: " ++ toString sortedSlots.length)
  else
    .ok ⟨idx4, rows4, idx2, slots2, [], []⟩

/-- A call with the tensor object `loc`, whose entries are `heap loc`. `cache` holds the object of the
last call that computed a grouping. -/
def groupingCall (pool : TriaxialKVPool) (heap : Nat → List Nat) (cache : Option (Nat × Grouping)) (loc : Nat) :
    Except String Grouping × Option (Nat × Grouping) :=
  match cache with
  | some (grpLoc, grp) =>
    if grpLoc = loc then (.ok grp, cache) else
    match pool.grouping (heap loc) with
    | .ok grp => (.ok grp, some (loc, grp))
    | .error message => (.error message, cache)
  | none =>
    match pool.grouping (heap loc) with
    | .ok grp => (.ok grp, some (loc, grp))
    | .error message => (.error message, cache)

/-- The entries of `loc` that lie in INT2 pages other than page 0. -/
def int2Slots (pool : TriaxialKVPool) (loc : List Nat) : List Nat := loc.filter (fun s => decide (32 ≤ s ∧ s < pool.offset))

structure Groups (pool : TriaxialKVPool) (loc : List Nat) (g : Grouping) : Prop where
  idx4 : g.idx4 = nonzero (loc.map (fun s => decide (pool.offset ≤ s)))
  rows4 : g.rows4 = g.idx4.map (fun i => loc[i]! - pool.offset)
  idx2 : g.idx2 = nonzero (loc.map (fun s => decide (32 ≤ s ∧ s < pool.offset)))
  slots2 : g.slots2 = g.idx2.map (fun i => loc[i]!)
  rows : g.tokRows.length = g.pages.length
  tokens : ∀ p < g.pages.length, ∀ j < 32, (g.tokRows[p]!)[j]! < loc.length ∧ loc[(g.tokRows[p]!)[j]!]! = 32 * g.pages[p]! + j

theorem sorted_flatSlots (sorted : pages.Pairwise (· < ·)) : (pages.flatMap pageSlots).Pairwise (· ≤ ·) := by
  refine pairwise_flatMap.mpr ⟨?_, sorted.imp ?_⟩
  · intro _ _
    exact pairwise_map.mpr (pairwise_lt_range.imp (fun h => by omega))
  · intro p q _ s low t high
    have := mem_pageSlots.mp low
    have := mem_pageSlots.mp high
    omega

theorem sorted_slots_eq {slots sorted : List Nat} (nodup : pages.Nodup)
    (whole : slots.Perm (pages.flatMap pageSlots)) (perm : sorted.Perm slots) (increasing : sorted.Pairwise (· ≤ ·)) :
    sorted = (pages.insertionSort (· ≤ ·)).flatMap pageSlots := by
  have reordered := perm_insertionSort (· ≤ ·) pages
  have strict : (pages.insertionSort (· ≤ ·)).Pairwise (· < ·) :=
    ((pairwise_insertionSort (· ≤ ·) pages).and (reordered.nodup_iff.mpr nodup)).imp
      (fun h => Nat.lt_of_le_of_ne h.1 h.2)
  exact ((perm.trans whole).trans (reordered.flatMap_right pageSlots).symm).eq_of_pairwise
    (fun _ _ _ _ => le_antisymm) increasing (sorted_flatSlots strict)

theorem flatMap_pageSlots_getElem! (pages : List Nat) {p j : Nat} (lt : p < pages.length) (col : j < 32) :
    (pages.flatMap pageSlots)[p * 32 + j]! = 32 * pages[p]! + j := by
  rw [← TriaxialAllocator.slots_of_pages]
  rw [getElem!_pos _ _ (by simp; omega)]
  simp only [getElem_map, getElem_range]
  rw [show (p * 32 + j) / 32 = p by omega, show (p * 32 + j) % 32 = j by omega, mul_comm]

theorem pages_of_view (pages : List Nat) : (view (pages.flatMap pageSlots) pages.length 32).map (fun row => row[0]! / 32) = pages := by
  apply ext_getElem
  · simp [length_view]
  · intro p _ lt
    have first := view_getElem! (pages.flatMap pageSlots) lt (show 0 < 32 by omega)
    rw [flatMap_pageSlots_getElem! pages lt (by omega), getElem!_pos pages p lt, getElem!_pos (view _ _ _) p (by rwa [length_view])] at first
    rw [getElem_map, first]
    omega

theorem grouping_whole (pool : TriaxialKVPool) {loc : List Nat} (nodup : pages.Nodup) (whole : (pool.int2Slots loc).Perm (pages.flatMap pageSlots)) :
    ∃ g, pool.grouping loc = .ok g ∧ pool.Groups loc g ∧ g.pages = pages.insertionSort (· ≤ ·) := by
  let is2 := loc.map (fun s => decide (32 ≤ s ∧ s < pool.offset))
  have mask : zipWith (fun high s => !high && decide (s ≥ 32)) (loc.map (fun s => decide (s ≥ pool.offset))) loc = is2 := by
    rw [zipWith_map_left, zipWith_self]
    apply map_congr_left
    intro s _
    rw [← decide_not, ← Bool.decide_and, decide_eq_decide]
    omega
  have slots : gather loc (nonzero is2) = pool.int2Slots loc := by
    rw [gather_nonzero (by simp [is2]), select_map_mask, int2Slots]
  have size : (pool.int2Slots loc).length = pages.length * 32 := by
    rw [whole.length_eq, TriaxialAllocator.length_flatSlots]
  unfold grouping
  dsimp only
  rw [mask, slots]
  by_cases some : (pool.int2Slots loc).length > 0
  · rw [if_pos some]
    let order := argsort (pool.int2Slots loc)
    let listed := pages.insertionSort (· ≤ ·)
    have sorted : gather (pool.int2Slots loc) order = listed.flatMap pageSlots :=
      sorted_slots_eq nodup whole (gather_argsort_perm _) (gather_argsort_sorted _)
    have length : (gather (pool.int2Slots loc) order).length = listed.length * 32 := by
      rw [sorted, TriaxialAllocator.length_flatSlots]
    rw [length, if_pos (by omega), show listed.length * 32 / 32 = listed.length by omega]
    have found : (view (gather (pool.int2Slots loc) order) listed.length 32).map (fun row => row[0]! / 32) = listed := by
      rw [sorted, pages_of_view]
    have bounds : ∀ i ∈ order, i < (nonzero is2).length := by
      intro i mem
      rw [← length_gather loc, slots]
      exact mem_range.mp ((argsort_perm _).mem_iff.mp mem)
    refine ⟨_, rfl, ⟨rfl, ?_, rfl, slots.symm, ?_, ?_⟩, found⟩
    · simp only [gather, map_map]
      rfl
    · simp [length_view]
    · intro p lt j col
      simp only [show gather (pool.int2Slots loc) (argsort (pool.int2Slots loc)) = _ from sorted, pages_of_view] at lt ⊢
      have cell : p * 32 + j < (gather (nonzero is2) order).length := by
        rw [length_gather] at length ⊢
        omega
      rw [view_getElem! _ lt col]
      constructor
      · have mem : (gather (nonzero is2) order)[p * 32 + j]! ∈ nonzero is2 := by
          rw [getElem!_pos (gather (nonzero is2) order) _ cell]
          exact gather_subset _ bounds (getElem_mem _)
        simpa [is2] using nonzero_inside mem
      · rw [← gather_getElem! loc cell, gather_gather loc bounds, slots, sorted, flatMap_pageSlots_getElem! listed lt col]
  · have none : pages = [] := length_eq_zero_iff.mp (by omega)
    rw [if_neg some, none]
    refine ⟨_, rfl, ⟨rfl, ?_, rfl, slots.symm, rfl, ?_⟩, rfl⟩
    · simp only [gather, map_map]
      rfl
    · intro p lt
      simp at lt

def Coherent (pool : TriaxialKVPool) (heap : Nat → List Nat) (cache : Option (Nat × Grouping)) : Prop :=
  ∀ loc grp, cache = some (loc, grp) → pool.grouping (heap loc) = .ok grp

variable {cache : Option (Nat × Grouping)}

theorem groupingCall_spec (coherent : pool.Coherent heap cache) (loc : Nat) :
    (pool.groupingCall heap cache loc).1 = pool.grouping (heap loc) ∧ pool.Coherent heap (pool.groupingCall heap cache loc).2 := by
  have computed : ∀ result, pool.grouping (heap loc) = result → (match result with
        | .ok grp => (Except.ok grp, some (loc, grp))
        | .error message => (.error message, cache)).1 = result ∧
      pool.Coherent heap (match result with
        | .ok grp => (Except.ok grp, some (loc, grp))
        | .error message => (.error message, cache)).2 := by
    intro result same
    cases result with
    | error message => exact ⟨rfl, coherent⟩
    | ok grp =>
      refine ⟨rfl, ?_⟩
      rintro _ _ ⟨⟩
      exact same
  unfold groupingCall
  split
  · next _ grp =>
    split
    · next same =>
      subst same
      exact ⟨(coherent _ _ rfl).symm, coherent⟩
    · exact computed _ rfl
  · exact computed _ rfl

theorem reachable_coherent (reachable : Runs.Reachable (fun cache loc => (pool.groupingCall heap cache loc).2) (fun _ _ => True) none cache) :
    pool.Coherent heap cache := by
  refine reachable.invariant (pool.Coherent heap) ?_ ?_
  · rintro _ _ ⟨⟩
  · intro cache loc coherent _
    exact (groupingCall_spec coherent loc).2

end TriaxialKVPool

namespace Usage
open TriaxialAllocator

/-- A call that returned slots took a run of pages off the free list; the slots are those of these
pages and free INT4 slots. -/
theorem allocMixed_some {s : Usage} (inv : s.Inv) {bits reqLens : List Nat}
    (total : reqLens.sum = bits.length) (returned : (s.alloc.allocMixed bits reqLens).1 = some out) :
    ∃ taken slots4, s.alloc.freePages2 = taken ++ (s.alloc.allocMixed bits reqLens).2.freePages2 ∧
      out.Perm (taken.flatMap pageSlots ++ slots4) ∧ taken.Nodup ∧
      (∀ page ∈ taken, 1 ≤ page ∧ page < s.alloc.pool.numPages2) ∧ ∀ slot ∈ slots4, s.alloc.pool.offset < slot := by
  rw [allocMixed_eq _ _ _ total] at returned ⊢
  dsimp only at returned ⊢
  split at returned
  · cases returned
  · next enough =>
    rw [if_neg enough]
    have nodup := nodup_flatSlots.mp inv.nodup.of_append_right.of_append_right
    refine ⟨_, s.alloc.freeSlots4.take (s.alloc.int4Need bits reqLens), (take_append_drop _ _).symm, ?_, nodup.sublist (take_sublist _ _), ?_, ?_⟩
    · cases returned
      exact allocMixed_perm _ total (by omega)
    · intro page mem
      exact inv.pages page (mem_of_mem_take mem)
    · intro slot mem
      exact inv.slots4 slot (mem_of_mem_take mem)

theorem int2Slots_allocMixed (pool : TriaxialKVPool) {taken slots4 : List Nat} (pad : Nat)
    (slots : out.Perm (taken.flatMap pageSlots ++ slots4)) (pages : ∀ page ∈ taken, 1 ≤ page ∧ page < pool.numPages2)
    (high : ∀ slot ∈ slots4, pool.offset < slot) :
    (pool.int2Slots (out ++ replicate pad 0)).Perm (taken.flatMap pageSlots) := by
  have paged : (taken.flatMap pageSlots).filter (fun s => decide (32 ≤ s ∧ s < pool.offset)) = taken.flatMap pageSlots := by
    rw [filter_eq_self]
    intro slot mem
    have := pages _ (mem_flatSlots.mp mem)
    rw [decide_eq_true_eq, TriaxialKVPool.offset]
    omega
  have rest : slots4.filter (fun s => decide (32 ≤ s ∧ s < pool.offset)) = [] := by
    rw [filter_eq_nil_iff]
    intro slot mem
    have := high slot mem
    rw [decide_eq_true_eq]
    omega
  have padding : (replicate pad 0).filter (fun s => decide (32 ≤ s ∧ s < pool.offset)) = [] := by
    rw [filter_eq_nil_iff]
    intro slot mem
    rw [eq_of_mem_replicate mem]
    simp
  have all := slots.filter (fun s => decide (32 ≤ s ∧ s < pool.offset))
  rw [filter_append, paged, rest, append_nil] at all
  rw [TriaxialKVPool.int2Slots, filter_append, padding, append_nil]
  exact all

theorem idx_perm_range (pool : TriaxialKVPool) (pad : Nat) (usable : ∀ slot ∈ out, 32 ≤ slot) : let loc := out ++ replicate pad 0
    (nonzero (loc.map (fun s => decide (pool.offset ≤ s))) ++
      nonzero (loc.map (fun s => decide (32 ≤ s ∧ s < pool.offset)))).Perm (range out.length) := by
  intro loc
  have apart : (nonzero (loc.map (fun s => decide (pool.offset ≤ s))) ++ nonzero (loc.map (fun s => decide (32 ≤ s ∧ s < pool.offset)))).Nodup := by
    refine nodup_append'.mpr ⟨nodup_nonzero _, nodup_nonzero _, ?_⟩
    intro i left right
    rw [mem_nonzero_map, decide_eq_true_eq] at left right
    omega
  apply (perm_ext_iff_of_nodup apart nodup_range).mpr
  intro i
  rw [mem_append, mem_nonzero_map, mem_nonzero_map, decide_eq_true_eq, decide_eq_true_eq, mem_range]
  by_cases lt : i < out.length
  · have entry : 32 ≤ loc[i]! := by
      rw [getElem!_pos loc i (by simp [loc]; omega), getElem_append_left lt]
      exact usable _ (getElem_mem lt)
    have bound : i < loc.length := by simp [loc]; omega
    omega
  · have entry : loc[i]! = 0 := by
      simp [loc, getElem!_eq_getElem?_getD, getElem?_append_right (Nat.le_of_not_lt lt), getElem?_replicate]
      split <;> rfl
    have reserved : 32 ≤ pool.offset := by
      rw [TriaxialKVPool.offset, TriaxialKVPool.numPages2]
      omega
    omega

/-- An INT2 page is written whole: one `allocMixed` result is one grouping, whose pages are the pages
that the call took. -/
theorem grouping_allocMixed (pool : TriaxialKVPool) (s : Usage) (reachable : Runs.Reachable step Promised (start pool) s)
    (bits reqLens out : List Nat) (total : reqLens.sum = bits.length)
    (returned : (s.alloc.allocMixed bits reqLens).1 = some out)
    (heap : Nat → List Nat) (cache : Option (Nat × Grouping))
    (calls : Runs.Reachable (fun cache loc => (pool.groupingCall heap cache loc).2) (fun _ _ => True) none cache)
    (locId pad : Nat) (padded : heap locId = out ++ List.replicate pad 0) :
    let loc := heap locId
    ∃ g taken, (pool.groupingCall heap cache locId).1 = .ok g ∧ s.alloc.freePages2 = taken ++ (s.alloc.allocMixed bits reqLens).2.freePages2 ∧
      g.pages.Perm taken ∧ g.pages.Nodup ∧
      (g.tokRows.length = g.pages.length ∧ ∀ p < g.pages.length, ∀ j < 32,
        (g.tokRows[p]!)[j]! < loc.length ∧ loc[(g.tokRows[p]!)[j]!]! = 32 * g.pages[p]! + j) ∧
      (g.idx4.Nodup ∧ (∀ i, i ∈ g.idx4 ↔ i < loc.length ∧ pool.offset ≤ loc[i]!) ∧ g.rows4 = g.idx4.map (fun i => loc[i]! - pool.offset)) ∧
      (g.idx4 ++ g.idx2).Perm (List.range out.length) := by
  obtain ⟨invariant, rfl⟩ := reachable_inv reachable
  obtain ⟨taken, _, split, slots, nodup, pages, high⟩ := allocMixed_some invariant total returned
  intro loc
  have whole := int2Slots_allocMixed s.alloc.pool pad slots pages high
  rw [← padded] at whole
  obtain ⟨g, grouped, groups, listed⟩ := s.alloc.pool.grouping_whole nodup whole
  have order := perm_insertionSort (· ≤ ·) taken
  rw [(TriaxialKVPool.groupingCall_spec (TriaxialKVPool.reachable_coherent calls) locId).1]
  refine ⟨g, taken, grouped, split, listed ▸ order, listed ▸ order.nodup_iff.mpr nodup, ⟨groups.rows, groups.tokens⟩, ⟨?_, ?_, groups.rows4⟩, ?_⟩
  · rw [groups.idx4]
    exact nodup_nonzero _
  · intro i
    rw [groups.idx4, mem_nonzero_map, decide_eq_true_eq]
  · have usable : ∀ slot ∈ out, 32 ≤ slot := by
      intro slot member
      rcases mem_append.mp (slots.mem_iff.mp member) with paged | single
      · have := pages _ (mem_flatSlots.mp paged)
        omega
      · have := high slot single
        rw [TriaxialKVPool.offset, TriaxialKVPool.numPages2] at this
        omega
    rw [groups.idx4, groups.idx2]
    simpa only [padded] using idx_perm_range s.alloc.pool pad usable

theorem grouping_allocMixed_page : ∃ g taken, ((⟨1, 1⟩ : TriaxialKVPool).groupingCall
      (fun _ => List.range' 32 32 ++ [65] ++ List.replicate 2 0) none 0).1 = .ok g ∧
    [1] = taken ++ ((TriaxialAllocator.clear ⟨1, 1⟩).allocMixed (List.replicate 33 2) [33]).2.freePages2 ∧
    g.pages.Perm taken := by
  obtain ⟨g, taken, grouped, split, pages, _⟩ := grouping_allocMixed ⟨1, 1⟩ (start ⟨1, 1⟩) .start
    (replicate 33 2) [33] (range' 32 32 ++ [65]) (by decide) (by decide +kernel)
    (fun _ => range' 32 32 ++ [65] ++ replicate 2 0) none .start 0 2 rfl
  exact ⟨g, taken, grouped, split, pages⟩

end Usage

end TriaxialKV
