import TriaxialKV.Pool.Partition

/-! # The demotion counter -/

namespace TriaxialKV
open List Runs TriaxialAllocator

namespace Usage

/-- The INT2 tokens of whole groups that a call gives INT4 slots because no page is left for them. -/
def demotedTokens (s : Usage) (bits reqLens : List Nat) : Nat := (keepGroups bits reqLens).count true - (s.alloc.pagedTokens bits reqLens).count true

theorem demotedTokens_eq (s : Usage) {bits reqLens : List Nat} (total : reqLens.sum = bits.length) :
    s.demotedTokens bits reqLens = (pageDemand bits reqLens - s.alloc.freePages2.length) * 32 := by
  rw [demotedTokens, count_keepGroups total, count_paged _ total, pagesTaken]
  omega

def demotedBy (success : Bool) (s : Usage) : Op → Nat
  | .allocMixed bits reqLens =>
    if (s.alloc.allocMixed bits reqLens).1.isSome = success then s.demotedTokens bits reqLens else 0
  | _ => 0

def demotions (success : Bool) (s : Usage) : List Op → Nat
  | [] => 0
  | op :: ops => s.demotedBy success op + (s.step op).demotions success ops

theorem step_fallback (s : Usage) {op : Op} (promised : s.Promised op) : (s.step op).alloc.fallbackInt2ToInt4 =
      s.alloc.fallbackInt2ToInt4 + (s.demotedBy true op + s.demotedBy false op) := by
  cases op with
  | alloc needSize | allocDecode bs =>
    simp only [step, handOut, TriaxialAllocator.allocDecode, TriaxialAllocator.alloc]
    split <;> rfl
  | allocMixed bits reqLens =>
    have counted : (s.alloc.allocMixed bits reqLens).2.fallbackInt2ToInt4 = s.alloc.fallbackInt2ToInt4 + s.demotedTokens bits reqLens := by
      rw [allocMixed_eq _ _ _ promised, demotedTokens_eq s promised]
      dsimp only
      split <;> rfl
    simp only [step, handOut, demotedBy, counted]
    cases (s.alloc.allocMixed bits reqLens).1 <;> simp
  | free freeIndex =>
    simp only [step, TriaxialAllocator.free, release_eq]
    split <;> [rfl; split <;> rfl]
  | freeGroupBegin => rfl
  | freeGroupEnd => simp only [step, groupEnd_eq, release_eq, demotedBy, add_zero]

theorem run_fallback {s : Usage} {ops : List Op} (guarded : Guarded step Promised s ops) : (ops.foldl step s).alloc.fallbackInt2ToInt4 =
      s.alloc.fallbackInt2ToInt4 + (s.demotions true ops + s.demotions false ops) := by
  induction ops generalizing s with
  | nil => rfl
  | cons op ops ih =>
    rw [foldl_cons, ih guarded.2, step_fallback s guarded.1, demotions, demotions]
    omega

/-- A failed `alloc` changes nothing, a failed `alloc_mixed` only the counter, and that only without pages enough. -/
theorem failed_allocation (pool : TriaxialKVPool) {ops : List Op} (guarded : Guarded step Promised (start pool) ops) :
    (∀ (a : TriaxialAllocator) needSize, (a.alloc needSize).1 = none → (a.alloc needSize).2 = a) ∧
      (∀ (a : TriaxialAllocator) (bits reqLens : List Nat), reqLens.sum = bits.length → (a.allocMixed bits reqLens).1 = none →
        (a.allocMixed bits reqLens).2 = { a with fallbackInt2ToInt4 := (a.allocMixed bits reqLens).2.fallbackInt2ToInt4 } ∧
          ((a.allocMixed bits reqLens).2 = a ↔ pageDemand bits reqLens ≤ a.freePages2.length)) ∧
      ((ops.foldl step (start pool)).alloc.fallbackInt2ToInt4 = (start pool).demotions true ops ↔ (start pool).demotions false ops = 0) := by
  refine ⟨?_, ?_, ?_⟩
  · intro a needSize failed
    unfold TriaxialAllocator.alloc at failed ⊢
    split at failed
    · next short => rw [if_pos short]
    · cases failed
  · intro a bits reqLens total failed
    rw [allocMixed_eq a bits reqLens total] at failed ⊢
    dsimp only at failed ⊢
    split at failed
    · next short =>
      rw [if_pos short]
      refine ⟨rfl, ?_, ?_⟩
      · intro same
        have kept := congrArg fallbackInt2ToInt4 same
        dsimp only at kept
        omega
      · intro enough
        rw [Nat.sub_eq_zero_of_le enough]
        rfl
    · cases failed
  · rw [run_fallback guarded]
    show 0 + _ = _ ↔ _
    omega

/-- The first call fails without a whole group, and the second one demotes 32 tokens. -/
theorem failed_allocation_ungrouped :
    let ops := [Op.allocMixed (replicate 33 4) [33], .allocMixed (replicate 32 2) [32]]
    Guarded step Promised (start ⟨0, 32⟩) ops ∧ ((start ⟨0, 32⟩).alloc.allocMixed (replicate 33 4) [33]).1 = none ∧
      (ops.foldl step (start ⟨0, 32⟩)).alloc.fallbackInt2ToInt4 = (start ⟨0, 32⟩).demotions true ops := by
  have guarded : Guarded step Promised (start ⟨0, 32⟩) [.allocMixed (replicate 33 4) [33], .allocMixed (replicate 32 2) [32]] := by decide
  exact ⟨guarded, by decide, (failed_allocation _ guarded).2.2.mpr (by decide)⟩

/-- The first call fails, and the retry counts its 32 tokens again. -/
theorem failed_allocation_counts_twice :
    let ops := [.alloc 1, .allocMixed (replicate 32 2) [32], .free [33], .allocMixed (replicate 32 2) [32]]
    Guarded step Promised (start ⟨0, 32⟩) ops ∧ (((start ⟨0, 32⟩).step (.alloc 1)).alloc.allocMixed (replicate 32 2) [32]).1 = none ∧
      ((ops.take 2).foldl step (start ⟨0, 32⟩)).alloc.fallbackInt2ToInt4 = 32 ∧
      (ops.foldl step (start ⟨0, 32⟩)).alloc.fallbackInt2ToInt4 = 64 ∧ (start ⟨0, 32⟩).demotions true ops = 32 := by
  decide

end Usage

end TriaxialKV
