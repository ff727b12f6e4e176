import TriaxialKV.Pool.Allocator
import Mathlib.Data.List.SplitLengths

/-! # What `allocMixed` hands out -/

namespace TriaxialKV
open List Tensor Function

variable {bits lens reqLens : List Nat} {α : Type}

namespace TriaxialAllocator

def segStarts (start : Nat) : List Nat → List Nat
  | [] => []
  | len :: lens => start :: segStarts (start + len) lens

theorem segStarts_shift (d start : Nat) (lens : List Nat) : segStarts (d + start) lens = (segStarts start lens).map (d + ·) := by
  induction lens generalizing start with
  | nil => rfl
  | cons len lens ih => simp [segStarts, ← ih, add_assoc]

theorem segStarts_le {start s : Nat} (mem : s ∈ segStarts start lens) : s ≤ start + lens.sum := by
  induction lens generalizing start with
  | nil => simp [segStarts] at mem
  | cons len lens ih =>
    rcases mem_cons.mp mem with same | rest
    · simp [same]
    · have bound := ih rest
      simp only [sum_cons]
      omega

theorem length_segStarts (start : Nat) (lens : List Nat) : (segStarts start lens).length = lens.length := by
  induction lens generalizing start with
  | nil => rfl
  | cons len lens ih => simp [segStarts, ih]

theorem segStart_eq (start : Nat) (lens : List Nat) : zipWith (fun total len => (total - len).toNat)
      (cumsumFrom start (lens.map Int.ofNat)) (lens.map Int.ofNat) = segStarts start lens := by
  induction lens generalizing start with
  | nil => rfl
  | cons len lens ih =>
    have rest := ih (start + len)
    rw [Int.natCast_add] at rest
    simp only [map_cons, cumsumFrom, zipWith_cons_cons, segStarts, Int.ofNat_eq_natCast] at rest ⊢
    rw [rest, show ((start : Int) + len - len).toNat = start by omega]

theorem seg_cons (len : Nat) (lens : List Nat) : repeatInterleave (range (len :: lens).length) (len :: lens) =
      replicate len 0 ++ (repeatInterleave (range lens.length) lens).map (· + 1) := by
  rw [length_cons, range_succ_eq_map, repeat_cons, repeat_map]

theorem countsBefore_append (xs ys : List Int) (lens : List Nat) (total : lens.sum = ys.length) :
    gather (0 :: cumsum (xs ++ ys)) (segStarts 0 (xs.length :: lens)) = 0 :: (gather (0 :: cumsum ys) (segStarts 0 lens)).map (xs.sum + ·) := by
  have shift := segStarts_shift xs.length 0 lens
  simp only [gather, segStarts, map_cons, map_map, zero_add, add_zero] at shift ⊢
  rw [shift, map_map]
  congr 1
  apply map_congr_left
  intro s mem
  have bound : s ≤ ys.length := by
    have le := segStarts_le mem
    omega
  simp only [comp_apply]
  rw [zero_cons_cumsum _ _ (by simpa using bound), zero_cons_cumsum _ _ bound, take_length_add_append, sum_append]

theorem bincount_seg_cons (m₁ m₂ : List Bool) (lens : List Nat) :
    bincount (select (m₁ ++ m₂) (repeatInterleave (range (m₁.length :: lens).length) (m₁.length :: lens)))
        (m₁.length :: lens).length =
      m₁.count true ::
        bincount (select m₂ (repeatInterleave (range lens.length) lens)) lens.length := by
  rw [seg_cons, select_append (by simp), select_replicate, select_map, bincount, bincount, length_cons, range_succ_eq_map, map_cons, map_map]
  congr 1
  · have absent : 0 ∉ (select m₂ (repeatInterleave (range lens.length) lens)).map (· + 1) := by simp
    rw [count_append, count_replicate_self, count_eq_zero_of_not_mem absent, add_zero]
  · apply map_congr_left
    intro v _
    rw [comp_apply, count_append, count_eq_zero_of_not_mem (by simp [mem_replicate]), zero_add]
    exact count_map_of_injective _ (· + 1) (fun _ _ same => by simpa using same) v

theorem zipWith_zipWith_right {β γ δ : Type} (f : γ → β → δ) (g : α → β → γ) (xs : List α) (ys : List β) :
    zipWith f (zipWith g xs ys) ys = (xs.zip ys).map (fun e => f (g e.1 e.2) e.2) := by
  induction xs generalizing ys with
  | nil => rfl
  | cons x xs ih => cases ys <;> simp [ih]

def inFullGroup (before : List Int) (n2 : List Nat) (e : Int × Nat) : Bool :=
  decide (e.1 - before[e.2]! - 1 < (((n2.map (fun n => n / 32 * 32))[e.2]! : Nat) : Int))

theorem keepGroups_eq (bits lens : List Nat) : keepGroups bits lens = let mask := bits.map (· == 2)
      let seg := repeatInterleave (range lens.length) lens
      zipWith (· && ·) mask (((cumsum (maskInt mask)).zip seg).map
        (inFullGroup (gather (0 :: cumsum (maskInt mask)) (segStarts 0 lens))
          (bincount (select mask seg) lens.length))) := by
  have starts := segStart_eq 0 lens
  simp only [Int.natCast_zero] at starts
  simp only [keepGroups, zipWith_zipWith_right, cumsum, starts]
  rfl

theorem inFullGroup_shift (before : List Int) (n2 : List Nat) (first : Nat) (count : Int) (s : Nat) (bound : s < before.length) :
    inFullGroup (0 :: before.map ((first : Int) + ·)) (first :: n2) (first + count, s + 1) = inFullGroup before n2 (count, s) := by
  have shifted : ((0 :: before.map ((first : Int) + ·))[s + 1]! : Int) = first + before[s]! := by
    rw [getElem!_cons_succ, getElem!_pos _ s (by simpa using bound), getElem!_pos before s bound, getElem_map]
  simp only [inFullGroup, shifted, map_cons, getElem!_cons_succ]
  congr 1
  rw [show (first : Int) + count - (first + before[s]!) - 1 = count - before[s]! - 1 by omega]

theorem count_map_two (xs : List Nat) : (xs.map (· == 2)).count true = xs.count 2 := by
  rw [List.count, countP_map]
  simp [List.count, comp_def]

theorem keepGroups_append (xs ys : List Nat) (lens : List Nat) (total : lens.sum = ys.length) :
    keepGroups (xs ++ ys) (xs.length :: lens) = keepFirst (xs.count 2 / 32 * 32) (xs.map (· == 2)) ++ keepGroups ys lens := by
  have count2 := count_map_two xs
  have before := countsBefore_append (maskInt (xs.map (· == 2))) (maskInt (ys.map (· == 2))) lens
    (by simpa using total)
  have counts := bincount_seg_cons (xs.map (· == 2)) (ys.map (· == 2)) lens
  simp only [length_maskInt, length_map, sum_maskInt, count2] at before counts
  rw [keepGroups_eq, keepGroups_eq ys]
  dsimp only
  rw [map_append, maskInt_append, before, counts, cumsum_append, sum_maskInt, count2, seg_cons,
    zip_append (by simp), map_append, zipWith_append (by simp)]
  congr 1
  · -- the first request: its counts start at zero
    have first := zipWith_keepFirst (xs.map (· == 2)) 0 ((xs.count 2 / 32 * 32 : Nat) : Int)
    rw [Int.sub_zero, Int.toNat_natCast] at first
    rw [← first, zip_replicate_right _ _ _ (by simp), map_map, zipWith_map_right]
    simp [inFullGroup, cumsum]
  · congr 1
    rw [zip_map, map_map]
    apply map_congr_left
    rintro ⟨_, s⟩ mem
    apply inFullGroup_shift
    have inSeg := mem_range.mp (mem_repeat (of_mem_zip mem).2)
    simpa [gather, length_segStarts] using inSeg

def pageDemand : List Nat → List Nat → Nat
  | _, [] => 0
  | bits, len :: lens => (bits.take len).count 2 / 32 + pageDemand (bits.drop len) lens

theorem keepGroups_cons {len : Nat} (total : (len :: lens).sum = bits.length) :
    (bits.take len).length = len ∧ lens.sum = (bits.drop len).length ∧ keepGroups bits (len :: lens) =
        keepFirst ((bits.take len).count 2 / 32 * 32) ((bits.take len).map (· == 2)) ++ keepGroups (bits.drop len) lens := by
  rw [sum_cons] at total
  have taken : (bits.take len).length = len := by
    rw [length_take]
    omega
  have rest : lens.sum = (bits.drop len).length := by
    rw [length_drop]
    omega
  have split := keepGroups_append (bits.take len) (bits.drop len) lens rest
  rw [take_append_drop, taken] at split
  exact ⟨taken, rest, split⟩

theorem keepGroups_spec (bits lens : List Nat) (total : lens.sum = bits.length) : (keepGroups bits lens).length = bits.length ∧
      (keepGroups bits lens).count true = pageDemand bits lens * 32 := by
  induction lens generalizing bits with
  | nil =>
    have empty : bits = [] := length_eq_zero_iff.mp (by simpa using total.symm)
    subst empty
    exact ⟨rfl, rfl⟩
  | cons len lens ih =>
    obtain ⟨_, rest, split⟩ := keepGroups_cons total
    obtain ⟨size, count⟩ := ih (bits.drop len) rest
    rw [split]
    constructor
    · rw [length_append, length_keepFirst, length_map, size, ← length_append, take_append_drop]
    · rw [count_append, count_keepFirst, count_map_two, count, pageDemand, min_eq_left (Nat.div_mul_le_self _ _), add_mul]

theorem length_keepGroups (total : lens.sum = bits.length) : (keepGroups bits lens).length = bits.length := (keepGroups_spec bits lens total).1

theorem count_keepGroups (total : lens.sum = bits.length) :
    (keepGroups bits lens).count true = pageDemand bits lens * 32 := (keepGroups_spec bits lens total).2

theorem map_range_mul (f : Nat → α) (n : Nat) : (range (n * 32)).map f = (range n).flatMap (fun p => (range 32).map (fun j => f (p * 32 + j))) := by
  induction n with
  | zero => rfl
  | succ n ih =>
    rw [Nat.succ_mul, range_add, map_append, ih, range_succ (n := n), flatMap_append, map_map]
    simp [comp_def]

variable (pages : List Nat) (a : TriaxialAllocator) (keep2 : List Bool)

theorem slots_of_pages : (range (pages.length * 32)).map (fun i => pages[i / 32]! * 32 + i % 32) = pages.flatMap pageSlots := by
  have listed : (range pages.length).map (fun p => pages[p]!) = pages := by
    apply ext_getElem
    · simp
    · intro i _ lt
      rw [getElem_map, getElem_range, getElem!_pos pages i lt]
  rw [map_range_mul]
  conv => rhs; rw [← listed, flatMap_map]
  congr 1
  funext p
  rw [pageSlots]
  apply map_congr_left
  intro j mem
  have small := mem_range.mp mem
  rw [show (p * 32 + j) / 32 = p by omega, show (p * 32 + j) % 32 = j by omega]

theorem length_flatSlots : (pages.flatMap pageSlots).length = pages.length * 32 := by
  rw [← slots_of_pages, length_map, length_range]

def pagesTaken (a : TriaxialAllocator) (bits reqLens : List Nat) : Nat := min (pageDemand bits reqLens) a.freePages2.length

def int4Need (a : TriaxialAllocator) (bits reqLens : List Nat) : Nat := bits.length - a.pagesTaken bits reqLens * 32

def pagedTokens (a : TriaxialAllocator) (bits reqLens : List Nat) : List Bool := keepFirst (a.pagesTaken bits reqLens * 32) (keepGroups bits reqLens)

theorem count_paged (total : reqLens.sum = bits.length) : (a.pagedTokens bits reqLens).count true = a.pagesTaken bits reqLens * 32 := by
  rw [pagedTokens, count_keepFirst, count_keepGroups total, pagesTaken]
  omega

theorem count_false_paged (total : reqLens.sum = bits.length) : (a.pagedTokens bits reqLens).count false = a.int4Need bits reqLens := by
  have both := count_true_add_count_false (a.pagedTokens bits reqLens)
  rw [count_paged a total, pagedTokens, length_keepFirst, length_keepGroups total] at both
  rw [int4Need, pagedTokens]
  omega

theorem zipWith_pageIdx (avail : Nat) : zipWith (fun b p => b && decide (p < (avail : Int))) keep2
        (((cumsum (maskInt keep2)).map (· - 1)).map (· / 32)) = keepFirst (avail * 32) keep2 := by
  have kept := zipWith_keepFirst keep2 0 ((avail * 32 : Nat) : Int)
  rw [Int.sub_zero, Int.toNat_natCast] at kept
  rw [← kept, map_map, zipWith_map_right]
  congr 1
  funext b c
  congr 1
  simp only [comp_apply, decide_eq_decide]
  omega

theorem slots2_eq (pages : List Nat) (count : pages.length * 32 ≤ keep2.count true) :
    let k := (cumsum (maskInt keep2)).map (· - 1)
    let idx2 := nonzero (keepFirst (pages.length * 32) keep2)
    zipWith (fun p i => pages[p.toNat]! * 32 + i.toNat)
      (gather (k.map (· / 32)) idx2) (gather (k.map (· % 32)) idx2) = pages.flatMap pageSlots := by
  have ranks : select (keepFirst (pages.length * 32) keep2) ((cumsum (maskInt keep2)).map (· - 1)) =
      (range (pages.length * 32)).map (fun i : Nat => (i : Int)) := by
    rw [select_keepFirst _ _ _ (by simp), select_map, cumsum, select_cumsumFrom_maskInt, map_map, ← map_take, take_range, min_eq_left count]
    apply map_congr_left
    intro i _
    simp only [comp_apply]
    omega
  dsimp only
  rw [gather_nonzero (by simp), gather_nonzero (by simp), select_map (· / 32),
    select_map (· % 32), ranks, ← slots_of_pages, map_map, map_map, zipWith_map, zipWith_self]
  apply map_congr_left
  intro i _
  simp only [comp_apply]
  congr 2

theorem count_demoted (avail : Nat) : (zipWith (fun b p => b && decide (p ≥ (avail : Int))) keep2
        (((cumsum (maskInt keep2)).map (· - 1)).map (· / 32))).count true =
      keep2.count true - avail * 32 := by
  have kept := congrArg (List.count true) (zipWith_pageIdx keep2 avail)
  rw [count_keepFirst] at kept
  have both := count_zipWith_and_compl (f := fun p : Int => decide (p ≥ (avail : Int)))
    (g := fun p => decide (p < (avail : Int))) (by intro p; rw [← decide_not]; congr 1; simp)
    keep2 (((cumsum (maskInt keep2)).map (· - 1)).map (· / 32)) (by simp)
  rw [kept] at both
  omega

theorem allocMixed_eq (bits reqLens : List Nat) (total : reqLens.sum = bits.length) :
    a.allocMixed bits reqLens = let demoted := (pageDemand bits reqLens - a.freePages2.length) * 32
      let a' := { a with fallbackInt2ToInt4 := a.fallbackInt2ToInt4 + demoted }
      let n4 := a.int4Need bits reqLens
      let pages := a.freePages2.take (a.pagesTaken bits reqLens)
      if n4 > a.freeSlots4.length then (none, a')
      else (some (mergeMask (a.pagedTokens bits reqLens) (pages.flatMap pageSlots) (a.freeSlots4.take n4)), { a' with
          freePages2 := a.freePages2.drop (a.pagesTaken bits reqLens)
          freeSlots4 := a.freeSlots4.drop n4 }) := by
  let given := a.freePages2.take (a.pagesTaken bits reqLens)
  have groups := count_keepGroups total
  have size := length_keepGroups total
  by_cases empty : bits.length = 0
  · have noGroups : keepGroups bits reqLens = [] := length_eq_zero_iff.mp (size.trans empty)
    have noDemand : pageDemand bits reqLens = 0 := by
      rw [noGroups] at groups
      simpa using groups.symm
    simp [allocMixed, empty, int4Need, pagesTaken, pagedTokens, noGroups, noDemand, mergeMask, keepFirst]
  · have demand : pageDemand bits reqLens * 32 / 32 = pageDemand bits reqLens := by omega
    have pages : (if pageDemand bits reqLens > a.freePages2.length then a.freePages2.length
        else pageDemand bits reqLens) = a.pagesTaken bits reqLens := by
      rw [pagesTaken]
      split <;> omega
    have counted : (if pageDemand bits reqLens > a.freePages2.length then
          { a with fallbackInt2ToInt4 := a.fallbackInt2ToInt4 + (pageDemand bits reqLens * 32 - a.freePages2.length * 32) } else a) =
        { a with fallbackInt2ToInt4 := a.fallbackInt2ToInt4 + (pageDemand bits reqLens - a.freePages2.length) * 32 } := by
      split
      · rw [Nat.sub_mul]
      · rw [Nat.sub_eq_zero_of_le (by omega), zero_mul, add_zero]
    have mask : (if pageDemand bits reqLens > a.freePages2.length then
          keepFirst (a.freePages2.length * 32) (keepGroups bits reqLens) else keepGroups bits reqLens) =
        a.pagedTokens bits reqLens := by
      rw [pagedTokens, pagesTaken]
      split
      · rw [min_eq_right (by omega)]
      · rw [min_eq_left (by omega), keepFirst_of_le (by omega)]
    have taken : given.length = a.pagesTaken bits reqLens := by
      rw [length_take, pagesTaken]
      omega
    have slots2 := slots2_eq (keepGroups bits reqLens) given
      (by rw [taken, groups, pagesTaken]; omega)
    rw [taken] at slots2
    have need : bits.length - a.pagesTaken bits reqLens * 32 = a.int4Need bits reqLens := rfl
    simp only [allocMixed, if_neg empty, demand, zipWith_pageIdx, count_demoted, groups, pages, mask, counted, need]
    split
    · rfl
    · rename_i enough
      have written := indexPut_indexPut (a.pagedTokens bits reqLens) (replicate bits.length 0)
        (given.flatMap pageSlots)
        (a.freeSlots4.take (a.int4Need bits reqLens))
        (by rw [length_replicate, pagedTokens, length_keepFirst, size])
        (by rw [length_flatSlots, taken, count_paged a total])
        (by rw [length_take, count_false_paged a total]; omega)
      rw [← written, ← slots2]
      rfl

theorem allocMixed_perm (total : reqLens.sum = bits.length) (enough : a.int4Need bits reqLens ≤ a.freeSlots4.length) :
    (mergeMask (a.pagedTokens bits reqLens)
        ((a.freePages2.take (a.pagesTaken bits reqLens)).flatMap pageSlots)
        (a.freeSlots4.take (a.int4Need bits reqLens))).Perm
      ((a.freePages2.take (a.pagesTaken bits reqLens)).flatMap pageSlots ++ a.freeSlots4.take (a.int4Need bits reqLens)) := by
  apply mergeMask_perm
  · rw [length_flatSlots, count_paged a total, length_take, pagesTaken]
    omega
  · rw [length_take, count_false_paged a total]
    omega

/-- The tokens of a request after `rank` INT2 tokens, the first `whole` of them in whole groups. -/
def walkTokens (pages : List Nat) (group whole : Nat) : Nat → List Nat → List Nat → Option (List Nat × List Nat)
  | _, [], slots4 => some ([], slots4)
  | rank, b :: bits, slots4 =>
    if b = 2 ∧ rank < whole ∧ group + rank / 32 < pages.length then do
      let (out, left) ← walkTokens pages group whole (rank + 1) bits slots4
      some ((pages[group + rank / 32]! * 32 + rank % 32) :: out, left)
    else
      match slots4 with
      | [] => none
      | slot :: slots4 => do
        let (out, left) ← walkTokens pages group whole (if b = 2 then rank + 1 else rank) bits slots4
        some (slot :: out, left)

def walkRequests (pages : List Nat) : Nat → List (List Nat) → List Nat → Option (List Nat × Nat × List Nat)
  | group, [], slots4 => some ([], group, slots4)
  | group, bits :: requests, slots4 => do
    let (out, left) ← walkTokens pages group (bits.count 2 / 32 * 32) 0 bits slots4
    let (outs, groups, left) ← walkRequests pages (group + bits.count 2 / 32) requests left
    some (out ++ outs, groups, left)

theorem flatSlots_drop {k : Nat} (lt : k / 32 < pages.length) :
    (pages.flatMap pageSlots).drop k = (pages[k / 32]! * 32 + k % 32) :: (pages.flatMap pageSlots).drop (k + 1) := by
  have bound : k < (pages.flatMap pageSlots).length := by
    rw [length_flatSlots]
    omega
  rw [drop_eq_getElem_cons bound]
  simp only [← slots_of_pages, getElem_map, getElem_range]

theorem walkTokens_eq (group whole rank : Nat) (bits slots4 : List Nat) : walkTokens pages group whole rank bits slots4 =
      let mask := keepFirst (min whole ((pages.length - group) * 32) - rank) (bits.map (· == 2))
      if mask.count false ≤ slots4.length then
        some (mergeMask mask ((pages.flatMap pageSlots).drop (group * 32 + rank)) slots4, slots4.drop (mask.count false))
      else none := by
  let places := (pages.length - group) * 32
  induction bits generalizing rank slots4 with
  | nil => simp [walkTokens, keepFirst, mergeMask]
  | cons b bits ih =>
    unfold walkTokens
    split
    · next paged =>
      obtain ⟨rfl, _, _⟩ := paged
      obtain ⟨t, room⟩ : ∃ t, min whole places - rank = t + 1 :=
        ⟨min whole places - (rank + 1), by omega⟩
      have next : min whole places - (rank + 1) = t := by omega
      have place : (group * 32 + rank) / 32 = group + rank / 32 := by omega
      have slot := flatSlots_drop pages (k := group * 32 + rank) (by omega)
      rw [place, show (group * 32 + rank) % 32 = rank % 32 by omega, add_assoc] at slot
      have head : keepFirst (t + 1) ((2 :: bits).map (· == 2)) = true :: keepFirst t (bits.map (· == 2)) := rfl
      dsimp only
      rw [ih, next, room, head, slot, mergeMask, count_cons_of_ne (by simp)]
      dsimp only
      split <;> rfl
    · next _ =>
      generalize limit : min whole places = t at ih ⊢
      -- a further INT2 token changes nothing once there is no page for it
      have head : keepFirst (t - rank) ((b :: bits).map (· == 2)) =
          false :: keepFirst (t - if b = 2 then rank + 1 else rank) (bits.map (· == 2)) := by
        by_cases two : b = 2
        · have none : t - rank = 0 := by omega
          have after : t - (rank + 1) = 0 := by omega
          simp [two, none, after, keepFirst]
        · rw [if_neg two, map_cons, beq_eq_false_iff_ne.mpr two, keepFirst]
      have same (ys : List Nat) : mergeMask (keepFirst (t - if b = 2 then rank + 1 else rank) (bits.map (· == 2)))
          ((pages.flatMap pageSlots).drop (group * 32 + if b = 2 then rank + 1 else rank)) ys =
          mergeMask (keepFirst (t - if b = 2 then rank + 1 else rank) (bits.map (· == 2)))
            ((pages.flatMap pageSlots).drop (group * 32 + rank)) ys := by
        by_cases two : b = 2
        · have after : t - (rank + 1) = 0 := by omega
          rw [if_pos two, after]
          exact mergeMask_keepFirst_zero _ _ _ ys
        · rw [if_neg two]
      rw [head]
      cases slots4 with
      | nil => simp
      | cons slot slots4 =>
        generalize (if b = 2 then rank + 1 else rank) = next at same ⊢
        dsimp only
        rw [ih]
        simp only [mergeMask, count_cons_self, length_cons, Nat.add_le_add_iff_right, drop_succ_cons, same]
        split <;> rfl

theorem walkRequests_eq (group : Nat) (slots4 : List Nat) (total : reqLens.sum = bits.length) :
    walkRequests pages group (reqLens.splitLengths bits) slots4 =
      let mask := keepFirst ((pages.length - group) * 32) (keepGroups bits reqLens)
      if mask.count false ≤ slots4.length then
        some (mergeMask mask ((pages.flatMap pageSlots).drop (group * 32)) slots4, group + pageDemand bits reqLens, slots4.drop (mask.count false))
      else none := by
  induction reqLens generalizing bits group slots4 with
  | nil =>
    have empty : bits = [] := length_eq_zero_iff.mp (by simpa using total.symm)
    subst empty
    rfl
  | cons len lens ih =>
    obtain ⟨_, rest, split⟩ := keepGroups_cons total
    generalize hn : (bits.take len).count 2 = n at split
    have small := Nat.div_mul_le_self n 32
    generalize hfirst : keepFirst (min (n / 32 * 32) ((pages.length - group) * 32) - 0) ((bits.take len).map (· == 2)) = first
    have trues : first.count true = min (n / 32 * 32) ((pages.length - group) * 32) := by
      rw [← hfirst, count_keepFirst, count_map_two, hn]
      omega
    have mask : keepFirst ((pages.length - group) * 32) (keepGroups bits (len :: lens)) =
        first ++ keepFirst ((pages.length - (group + n / 32)) * 32) (keepGroups (bits.drop len) lens) := by
      rw [split, keepFirst_append, keepFirst_keepFirst, count_keepFirst, count_map_two, hn, min_eq_left small, min_comm,
        ← hfirst, Nat.sub_zero, ← Nat.sub_mul, Nat.sub_sub]
    -- once the pages are used up, both sides have none left
    have remaining : ((pages.flatMap pageSlots).drop (group * 32)).drop (first.count true) =
        (pages.flatMap pageSlots).drop ((group + n / 32) * 32) := by
      rw [drop_drop, trues]
      by_cases enough : group + n / 32 ≤ pages.length
      · rw [min_eq_left (by omega), add_mul]
      · rw [drop_of_length_le (by rw [length_flatSlots]; omega), drop_of_length_le (by rw [length_flatSlots]; omega)]
    dsimp only
    rw [splitLengths_cons, walkRequests, walkTokens_eq, hn, mask, count_append, pageDemand, hn]
    dsimp only
    rw [hfirst, add_zero]
    by_cases fits : first.count false ≤ slots4.length
    · have merged := mergeMask_append first (keepFirst ((pages.length - (group + n / 32)) * 32) (keepGroups (bits.drop len) lens))
        ((pages.flatMap pageSlots).drop (group * 32)) slots4
        (by rw [trues, length_drop, length_flatSlots]; omega) fits
      rw [if_pos fits, Option.bind_eq_bind, Option.bind_some]
      rw [ih (group + n / 32) _ rest, merged, remaining, length_drop, ← drop_drop, add_assoc]
      split
      · rw [if_pos (by omega)]
        rfl
      · rw [if_neg (by omega)]
        rfl
    · rw [if_neg fits, if_neg (by omega)]
      rfl

/-- `alloc_mixed` gives out and takes what the walk over the requests does, and fails where the walk does. -/
theorem allocMixed_eq_walk (a : TriaxialAllocator) (bits reqLens : List Nat) (total : reqLens.sum = bits.length) :
    let walk := walkRequests a.freePages2 0 (reqLens.splitLengths bits) a.freeSlots4
    (a.allocMixed bits reqLens).1 = walk.map (·.1) ∧ ∀ out groups left, walk = some (out, groups, left) →
        (a.allocMixed bits reqLens).2.freePages2 = a.freePages2.drop groups ∧ (a.allocMixed bits reqLens).2.freeSlots4 = left := by
  have mask : keepFirst ((a.freePages2.length - 0) * 32) (keepGroups bits reqLens) = a.pagedTokens bits reqLens := by
    have count := count_keepGroups total
    rw [pagedTokens, pagesTaken, Nat.sub_zero]
    rcases Nat.le_total (pageDemand bits reqLens) a.freePages2.length with all | short
    · rw [min_eq_left all, keepFirst_of_le (by omega), keepFirst_of_le (by omega)]
    · rw [min_eq_right short]
  have pages : a.freePages2.flatMap pageSlots = (a.freePages2.take (a.pagesTaken bits reqLens)).flatMap pageSlots ++
      (a.freePages2.drop (a.pagesTaken bits reqLens)).flatMap pageSlots := by
    rw [← flatMap_append, take_append_drop]
  have taken : a.freePages2.drop (a.pagesTaken bits reqLens) = a.freePages2.drop (pageDemand bits reqLens) := by
    rw [pagesTaken]
    rcases Nat.le_total (pageDemand bits reqLens) a.freePages2.length with all | short
    · rw [min_eq_left all]
    · rw [min_eq_right short, drop_length, drop_of_length_le short]
  intro walk
  have steps : walk = _ := walkRequests_eq a.freePages2 0 a.freeSlots4 total
  rw [mask] at steps
  dsimp only at steps
  rw [count_false_paged a total, zero_mul, drop_zero, zero_add] at steps
  rw [allocMixed_eq a bits reqLens total, steps]
  by_cases enough : a.int4Need bits reqLens ≤ a.freeSlots4.length
  · have slots := mergeMask_ignore (a.pagedTokens bits reqLens) ((a.freePages2.take (a.pagesTaken bits reqLens)).flatMap pageSlots)
      (a.freeSlots4.take (a.int4Need bits reqLens)) ((a.freePages2.drop (a.pagesTaken bits reqLens)).flatMap pageSlots)
      (a.freeSlots4.drop (a.int4Need bits reqLens))
      (by rw [length_flatSlots, length_take, count_paged a total, pagesTaken]; omega)
      (by rw [length_take, count_false_paged a total]; omega)
    rw [← pages, take_append_drop] at slots
    rw [if_neg (by omega), if_pos enough, slots]
    refine ⟨rfl, fun out groups left found => ?_⟩
    obtain ⟨_, rfl, rfl⟩ := Prod.mk.injEq .. ▸ Option.some.inj found
    exact ⟨taken, rfl⟩
  · rw [if_pos (by omega), if_neg enough]
    exact ⟨rfl, nofun⟩

theorem allocMixed_eq_walk_short : ((clear ⟨1, 40⟩).allocMixed (List.replicate 65 2) [33, 0, 32]).1 =
      (walkRequests [1] 0 [List.replicate 33 2, [], List.replicate 32 2] (clear ⟨1, 40⟩).freeSlots4).map (·.1) :=
  (allocMixed_eq_walk (clear ⟨1, 40⟩) (List.replicate 65 2) [33, 0, 32] (by decide)).1

end TriaxialAllocator

end TriaxialKV
